import TrackingPlan.Proofs.TypeScript.Tokens
import TrackingPlan.TypeScript.Syntax

/-!
# The grammar of types

A type is a row of alternatives with bars between them. An alternative is an
item with any number of empty brackets behind it, and an item is a word, a
literal, an object or a type in parentheses. Each form of a type has a rule,
which says that it is read wherever the types around it allow it.
-/

namespace TrackingPlan.TypeScript

/-- A type as it is read. Numbers are known by their text. -/
inductive TypeTerm where
  | primitive (primitive : Primitive)
  | array (items : TypeTerm)
  | union (options : List TypeTerm)
  | object (fields : List (TypeField TypeTerm))
  | text (value : String)
  | number (text : String)
  | boolean (value : Bool)
  | name (name : String)
  | qualified (scope name : String)
  deriving Inhabited

/-- A single alternative stands for itself. -/
def TypeTerm.ofAlternatives : List TypeTerm → TypeTerm
  | [alternative] => alternative
  | alternatives => .union alternatives

/-- The types that words stand for which are no names. -/
def keyword? (word : String) : Option TypeTerm :=
  [("string", TypeTerm.primitive .string), ("number", .primitive .number),
    ("boolean", .primitive .boolean), ("null", .primitive .null), ("never", .primitive .never),
    ("true", .boolean true), ("false", .boolean false)].lookup word

/-- The brackets behind an item. -/
def readArrays : TypeTerm → List Token → TypeTerm × List Token
  | item, .bracketOpen :: .bracketClose :: rest => readArrays (.array item) rest
  | item, rest => (item, rest)

def expect (token : Token) : List Token → Option (List Token)
  | [] => none
  | first :: rest => if first = token then some rest else none

/-- The name of a property, which may be quoted. -/
def readKey : List Token → Option (String × List Token)
  | .word name :: rest => some (name, rest)
  | .text name :: rest => some (name, rest)
  | _ => none

/-- Whether a property is marked as optional. -/
def readMark : List Token → Bool × List Token
  | .question :: rest => (true, rest)
  | rest => (false, rest)

/-- What stands in front of the type of a property. -/
def readHead (tokens : List Token) : Option (String × Bool × List Token) := do
  let (name, rest) ← readKey tokens
  let (optional, rest) := readMark rest
  let rest ← expect .colon rest
  return (name, optional, rest)

mutual

/-- The alternatives of a type, and what comes behind them. The fuel bounds the
nesting and the number of alternatives. -/
def readAlternatives : Nat → List Token → Option (List TypeTerm × List Token)
  | 0, _ => none
  | fuel + 1, tokens => do
    let (item, rest) ← (readItem fuel tokens).map fun found => readArrays found.1 found.2
    match rest with
    | .bar :: rest => do
      let (others, rest) ← readAlternatives fuel rest
      return (item :: others, rest)
    | rest => return ([item], rest)

def readItem : Nat → List Token → Option (TypeTerm × List Token)
  | 0, _ => none
  | fuel + 1, tokens =>
    match tokens with
    | .parenOpen :: rest => do
      let (alternatives, rest) ← readAlternatives fuel rest
      let rest ← expect .parenClose rest
      return (.ofAlternatives alternatives, rest)
    | .braceOpen :: rest => do
      let (fields, rest) ← readFields fuel rest
      return (.object fields, rest)
    | .text value :: rest => some (.text value, rest)
    | .number text :: rest => some (.number text, rest)
    | .minus :: .number text :: rest => some (.number ("-" ++ text), rest)
    | .word word :: rest =>
      match keyword? word with
      | some term => some (term, rest)
      | none =>
        match rest with
        | .dot :: .word name :: rest => some (.qualified word name, rest)
        | rest => some (.name word, rest)
    | _ => none

/-- The properties of an object up to its closing brace, with semicolons between them. -/
def readFields : Nat → List Token → Option (List (TypeField TypeTerm) × List Token)
  | 0, _ => none
  | fuel + 1, tokens =>
    match tokens with
    | .braceClose :: rest => some ([], rest)
    | tokens => do
      let (name, optional, rest) ← readHead tokens
      let (alternatives, rest) ← readAlternatives fuel rest
      let field : TypeField TypeTerm := ⟨name, .ofAlternatives alternatives, optional⟩
      match rest with
      | .semicolon :: rest => do
        let (fields, rest) ← readFields fuel rest
        return (field :: fields, rest)
      | .braceClose :: rest => return ([field], rest)
      | _ => none

end

/-- The type that a row of tokens is, all of them. -/
def typeOfTokens? (tokens : List Token) : Option TypeTerm := do
  let (alternatives, rest) ← readAlternatives (2 * tokens.length + 1) tokens
  if rest = [] then return .ofAlternatives alternatives else none

/-- The type that a text is. -/
def Letters.typeOf? (letters : Letters) (text : String) : Option TypeTerm :=
  (letters.tokens? text.toList).bind typeOfTokens?

/-- The tokens are read as the item, and brackets behind them as its arrays. -/
def ReadsItem (tokens : List Token) (term : TypeTerm) : Prop :=
  ∀ fuel rest, 2 * tokens.length ≤ fuel → rest.head? ≠ some .dot →
    (readItem fuel (tokens ++ rest)).map (fun found => readArrays found.1 found.2) =
      some (readArrays term rest)

/-- What can come behind an alternative: the end of a type, or a bar and other alternatives. -/
inductive Follows (bound : Nat) : List Token → List TypeTerm → List Token → Prop where
  | stop {rest : List Token} (hstop : ∀ token, rest.head? = some token →
      token ∈ [Token.parenClose, .braceClose, .semicolon]) : Follows bound rest [] rest
  | bar {more rest : List Token} {others : List TypeTerm}
      (hmore : ∀ fuel, bound ≤ fuel → readAlternatives fuel more = some (others, rest)) :
      Follows bound (.bar :: more) others rest

/-- The tokens are read as the alternatives, before any others. -/
def ReadsAlternatives (tokens : List Token) (alternatives : List TypeTerm) : Prop :=
  ∀ bound tail others rest, Follows bound tail others rest →
    ∀ fuel, bound + 2 * tokens.length + 1 ≤ fuel →
      readAlternatives fuel (tokens ++ tail) = some (alternatives ++ others, rest)

/-- The tokens are read as the properties of an object. -/
def ReadsFields (tokens : List Token) (fields : List (TypeField TypeTerm)) : Prop :=
  ∀ fuel rest, 2 * tokens.length + 1 ≤ fuel →
    readFields fuel (tokens ++ .braceClose :: rest) = some (fields, rest)

theorem readArrays_of_head? {rest : List Token} (hrest : rest.head? ≠ some .bracketOpen)
    (item : TypeTerm) : readArrays item rest = (item, rest) := by
  unfold readArrays
  split
  next => exact absurd rfl hrest
  next => rfl

theorem ReadsItem.alternatives {tokens : List Token} {term : TypeTerm}
    (hitem : ReadsItem tokens term) : ReadsAlternatives tokens [term] := by
  intro bound tail others rest hfollows fuel hfuel
  obtain ⟨fuel, rfl⟩ := Nat.exists_eq_add_of_le' (Nat.le_of_add_left_le hfuel)
  rw [readAlternatives]
  cases hfollows with
  | stop hstop =>
      have hhead : ∀ token, token ∉ [Token.parenClose, .braceClose, .semicolon] →
          tail.head? ≠ some token := fun token hnot heq => hnot (hstop token heq)
      rw [hitem fuel tail (by omega) (hhead .dot (by decide)),
        readArrays_of_head? (hhead .bracketOpen (by decide))]
      cases tail with
      | nil => rfl
      | cons token more =>
          have htoken := hstop token rfl
          simp only [Option.bind_eq_bind, Option.bind_some]
          split
          next heq =>
            obtain rfl := (List.cons.inj heq).1
            exact absurd htoken (by decide)
          next => rfl
  | @bar more _ others hmore =>
      rw [hitem fuel (.bar :: more) (by omega) (by simp), readArrays_of_head? (by simp)]
      change (readAlternatives fuel more).bind _ = _
      rw [hmore fuel (by omega)]
      rfl

/-- Alternatives of alternatives are alternatives of the same type. -/
theorem ReadsAlternatives.bar {first second : List Token} {before after : List TypeTerm}
    (hfirst : ReadsAlternatives first before) (hsecond : ReadsAlternatives second after) :
    ReadsAlternatives (first ++ .bar :: second) (before ++ after) := by
  intro bound tail others rest hfollows fuel hfuel
  have hbar : Follows (bound + 2 * second.length + 1) (.bar :: (second ++ tail)) (after ++ others)
      rest := .bar fun fuel hfuel => hsecond bound tail others rest hfollows fuel hfuel
  rw [List.length_append, List.length_cons] at hfuel
  have hread := hfirst _ _ _ _ hbar fuel (by omega)
  rw [List.append_assoc, List.cons_append, hread, List.append_assoc]

theorem ReadsItem.array {tokens : List Token} {term : TypeTerm} (hitem : ReadsItem tokens term) :
    ReadsItem (tokens ++ [.bracketOpen, .bracketClose]) (.array term) := by
  intro fuel rest hfuel hrest
  rw [List.length_append] at hfuel
  rw [List.append_assoc]
  exact hitem fuel (.bracketOpen :: .bracketClose :: rest) (by omega) (by simp)

/-- An item that has no brackets behind it. -/
theorem ReadsItem.of_readItem {tokens : List Token} {term : TypeTerm} (hne : tokens ≠ [])
    (hread : ∀ fuel rest, 2 * tokens.length ≤ fuel + 1 → rest.head? ≠ some .dot →
      readItem (fuel + 1) (tokens ++ rest) = some (term, rest)) : ReadsItem tokens term := by
  intro fuel rest hfuel hrest
  have hlength := List.length_pos_of_ne_nil hne
  obtain ⟨fuel, rfl⟩ := Nat.exists_eq_add_of_le' (Nat.le_trans (by omega) hfuel : 1 ≤ fuel)
  rw [hread fuel rest hfuel hrest]
  rfl

theorem ReadsAlternatives.paren {tokens : List Token} {alternatives : List TypeTerm}
    (htype : ReadsAlternatives tokens alternatives) :
    ReadsItem (.parenOpen :: (tokens ++ [.parenClose])) (.ofAlternatives alternatives) := by
  refine .of_readItem (List.cons_ne_nil _ _) fun fuel rest hfuel _ => ?_
  rw [List.length_cons, List.length_append, List.length_singleton] at hfuel
  have hstop : Follows 0 (.parenClose :: rest) [] (.parenClose :: rest) := .stop (by simp)
  have hread := htype _ _ _ _ hstop fuel (by omega)
  rw [List.cons_append, List.append_assoc, readItem]
  simp only [List.cons_append, List.nil_append, List.append_nil] at hread ⊢
  rw [hread]
  rfl

theorem ReadsFields.object {tokens : List Token} {fields : List (TypeField TypeTerm)}
    (hfields : ReadsFields tokens fields) :
    ReadsItem (.braceOpen :: (tokens ++ [.braceClose])) (.object fields) := by
  refine .of_readItem (List.cons_ne_nil _ _) fun fuel rest hfuel _ => ?_
  rw [List.length_cons, List.length_append, List.length_singleton] at hfuel
  have hread := hfields fuel rest (by omega)
  rw [List.cons_append, List.append_assoc, readItem]
  simp only [List.cons_append, List.nil_append]
  rw [hread]
  rfl

theorem readsItem_text (value : String) : ReadsItem [.text value] (.text value) :=
  .of_readItem (List.cons_ne_nil _ _) fun _ _ _ _ => rfl

/-- A number is read with its sign. -/
theorem readsItem_number (text : String) :
    ReadsItem (Letters.numberTokens text.toList) (.number text) := by
  unfold Letters.numberTokens
  split
  next numeral htext =>
    have hsigned : "-" ++ String.ofList numeral = text := by
      apply String.toList_injective
      simp [htext]
    rw [← hsigned]
    exact .of_readItem (List.cons_ne_nil _ _) fun _ _ _ _ => rfl
  next =>
    rw [String.ofList_toList]
    exact .of_readItem (List.cons_ne_nil _ _) fun _ _ _ _ => rfl

theorem readsItem_keyword {word : String} {term : TypeTerm} (hword : keyword? word = some term) :
    ReadsItem [.word word] term := by
  refine .of_readItem (List.cons_ne_nil _ _) fun fuel rest _ _ => ?_
  simp only [List.singleton_append, readItem, hword]

theorem readsItem_name {name : String} (hname : keyword? name = none) :
    ReadsItem [.word name] (.name name) := by
  refine .of_readItem (List.cons_ne_nil _ _) fun fuel rest _ hrest => ?_
  simp only [List.singleton_append, readItem, hname]
  split
  next => exact absurd rfl hrest
  next => rfl

theorem readsItem_qualified {scope : String} (hscope : keyword? scope = none) (name : String) :
    ReadsItem [.word scope, .dot, .word name] (.qualified scope name) := by
  refine .of_readItem (List.cons_ne_nil _ _) fun fuel rest _ _ => ?_
  simp only [List.cons_append, List.nil_append, readItem, hscope]

/-- The tokens of a property. -/
def fieldTokens (key : Token) (optional : Bool) (type : List Token) : List Token :=
  key :: ((if optional then [.question] else []) ++ .colon :: type)

theorem readsFields_nil : ReadsFields [] [] := by
  intro fuel rest hfuel
  obtain ⟨fuel, rfl⟩ := Nat.exists_eq_add_of_le' hfuel
  rfl

section Fields

variable {key : Token} {name : String} {type : List Token} {alternatives : List TypeTerm}

theorem readHead_fieldTokens (hkey : key = .word name ∨ key = .text name) (optional : Bool)
    (rest : List Token) :
    readHead (fieldTokens key optional type ++ rest) = some (name, optional, type ++ rest) := by
  rcases hkey with rfl | rfl <;> cases optional <;> rfl

theorem length_fieldTokens (key : Token) (optional : Bool) (type : List Token) :
    type.length + 2 ≤ (fieldTokens key optional type).length := by
  cases optional <;> simp [fieldTokens]

theorem readFields_fieldTokens (hkey : key = .word name ∨ key = .text name) (optional : Bool)
    (fuel : Nat) (rest : List Token) :
    readFields (fuel + 1) (fieldTokens key optional type ++ rest) =
      (readAlternatives fuel (type ++ rest)).bind fun (alternatives, rest) =>
        match rest with
        | .semicolon :: rest => (readFields fuel rest).bind fun (fields, rest) =>
          some (⟨name, .ofAlternatives alternatives, optional⟩ :: fields, rest)
        | .braceClose :: rest => some ([⟨name, .ofAlternatives alternatives, optional⟩], rest)
        | _ => none := by
  have hbrace : ∀ others, fieldTokens key optional type ++ rest ≠ .braceClose :: others := by
    intro others heq
    obtain ⟨rfl, -⟩ := List.cons.inj heq
    rcases hkey with hkey | hkey <;> cases hkey
  rw [readFields, readHead_fieldTokens hkey]
  · rfl
  · exact hbrace

theorem ReadsAlternatives.field (htype : ReadsAlternatives type alternatives)
    (hkey : key = .word name ∨ key = .text name) (optional : Bool) :
    ReadsFields (fieldTokens key optional type)
      [⟨name, .ofAlternatives alternatives, optional⟩] := by
  intro fuel rest hfuel
  have hlength := length_fieldTokens key optional type
  obtain ⟨fuel, rfl⟩ := Nat.exists_eq_add_of_le' (Nat.le_of_add_left_le hfuel)
  have hstop : Follows 0 (.braceClose :: rest) [] (.braceClose :: rest) := .stop (by simp)
  have hread := htype _ _ _ _ hstop fuel (by omega)
  rw [readFields_fieldTokens hkey, hread, List.append_nil]
  rfl

theorem ReadsFields.cons {others : List Token} {fields : List (TypeField TypeTerm)}
    (hothers : ReadsFields others fields) (htype : ReadsAlternatives type alternatives)
    (hkey : key = .word name ∨ key = .text name) (optional : Bool) :
    ReadsFields (fieldTokens key optional type ++ .semicolon :: others)
      (⟨name, .ofAlternatives alternatives, optional⟩ :: fields) := by
  intro fuel rest hfuel
  have hlength := length_fieldTokens key optional type
  rw [List.length_append, List.length_cons] at hfuel
  obtain ⟨fuel, rfl⟩ := Nat.exists_eq_add_of_le' (Nat.le_of_add_left_le hfuel)
  have hstop : Follows 0 (.semicolon :: (others ++ .braceClose :: rest)) []
      (.semicolon :: (others ++ .braceClose :: rest)) := .stop (by simp)
  have hread := htype _ _ _ _ hstop fuel (by omega)
  rw [List.append_assoc, List.cons_append, readFields_fieldTokens hkey, hread, List.append_nil]
  change (readFields fuel (others ++ .braceClose :: rest)).bind _ = _
  rw [hothers fuel rest (by omega)]
  rfl

end Fields

/-- A row of tokens that is read as alternatives is their type. -/
theorem ReadsAlternatives.typeOfTokens? {tokens : List Token} {alternatives : List TypeTerm}
    (htype : ReadsAlternatives tokens alternatives) :
    typeOfTokens? tokens = some (.ofAlternatives alternatives) := by
  have hstop : Follows 0 [] [] [] := .stop (by simp)
  have hread := htype _ _ _ _ hstop (2 * tokens.length + 1) (by omega)
  rw [List.append_nil, List.append_nil] at hread
  rw [TypeScript.typeOfTokens?, hread]
  rfl

end TrackingPlan.TypeScript
