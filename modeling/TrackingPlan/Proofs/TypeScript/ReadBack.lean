import TrackingPlan.Proofs.TypeScript.Grammar
import TrackingPlan.TypeScript.Printer

/-!
# Reading printed types

A type is meant up to two things that its text does not show: a union among the
options of a union, and how a number is kept. A printed type is read as it was
meant, provided that its names are names and its numbers have numerals.
-/

namespace TrackingPlan

/-- A literal is known by its value, and a number by its numeral. -/
def Literal.meant : Literal → TypeScript.TypeTerm
  | string value => .text value
  | integer value => .number (toString value.toInt)
  | float value => .number value.toText
  | boolean value => .boolean value

/-- Infinities and NaN have no numeral. -/
def Literal.IsPrintable : Literal → Prop
  | float value => value.IsNumber
  | _ => True

namespace TypeScript

mutual

/-- The alternatives of a type, those of its options in one row. -/
def Ty.alternatives : Ty → List TypeTerm
  | .primitive primitive => [.primitive primitive]
  | .array items => [.array (.ofAlternatives items.alternatives)]
  | .union options => optionAlternatives options
  | .object fields => [.object (fieldTerms fields)]
  | .literal value => [value.meant]
  | .name name => [.name name]
  | .qualified scope name => [.qualified scope name]

def optionAlternatives : List Ty → List TypeTerm
  | [] => []
  | type :: rest => type.alternatives ++ optionAlternatives rest

def fieldTerms : List (TypeField Ty) → List (TypeField TypeTerm)
  | [] => []
  | ⟨name, type, optional⟩ :: rest =>
    ⟨name, .ofAlternatives type.alternatives, optional⟩ :: fieldTerms rest

end

/-- The type as it is meant. -/
def Ty.meant (type : Ty) : TypeTerm := .ofAlternatives type.alternatives

namespace Letters

variable (letters : Letters)

/-- A name of a type, and not a word of the language. -/
def IsTypeName (name : String) : Prop :=
  letters.isIdentifier name = true ∧ keyword? name = none

/-- The type has the names and numbers of a type, and no union of nothing. -/
inductive IsProper : Ty → Prop where
  | primitive (primitive : Primitive) : IsProper (.primitive primitive)
  | array {items : Ty} (hitems : IsProper items) : IsProper (.array items)
  | union {options : List Ty} (hne : options ≠ [])
      (hoptions : ∀ option ∈ options, IsProper option) : IsProper (.union options)
  | object {fields : List (TypeField Ty)} (hfields : ∀ field ∈ fields, IsProper field.type) :
      IsProper (.object fields)
  | literal {value : Literal} (hvalue : value.IsPrintable) : IsProper (.literal value)
  | name {name : String} (hname : letters.IsTypeName name) : IsProper (.name name)
  | qualified {scope name : String} (hscope : letters.IsTypeName scope)
      (hname : letters.IsTypeName name) : IsProper (.qualified scope name)

section Rules

/-- The text is an alternative of a type. -/
def IsItem (text : String) (term : TypeTerm) : Prop :=
  ∃ tokens, letters.Lexes text tokens ∧ ReadsItem tokens term

/-- The text is a type with these alternatives. -/
def IsType (text : String) (alternatives : List TypeTerm) : Prop :=
  ∃ tokens, letters.Lexes text tokens ∧ ReadsAlternatives tokens alternatives

/-- The text stands between the braces of an object with these properties. -/
def IsBody (text : String) (fields : List (TypeField TypeTerm)) : Prop :=
  ∃ tokens, letters.Lexes text tokens ∧ ReadsFields tokens fields

variable {letters} {text other : String} {term : TypeTerm} {alternatives others : List TypeTerm}
  {fields : List (TypeField TypeTerm)}

theorem IsItem.type (hitem : letters.IsItem text term) : letters.IsType text [term] := by
  obtain ⟨tokens, hlexes, hreads⟩ := hitem
  exact ⟨tokens, hlexes, hreads.alternatives⟩

theorem IsItem.array (hitem : letters.IsItem text term) :
    letters.IsItem (text ++ "[]") (.array term) := by
  obtain ⟨tokens, hlexes, hreads⟩ := hitem
  exact ⟨_, hlexes.append (lexes_symbols rfl) rfl, hreads.array⟩

theorem IsType.paren (htype : letters.IsType text alternatives) :
    letters.IsItem ("(" ++ text ++ ")") (.ofAlternatives alternatives) := by
  obtain ⟨tokens, hlexes, hreads⟩ := htype
  exact ⟨_, (hlexes.behind rfl).append (lexes_symbols rfl) rfl, hreads.paren⟩

theorem IsType.bar (htype : letters.IsType text alternatives)
    (hother : letters.IsType other others) :
    letters.IsType (text ++ " | " ++ other) (alternatives ++ others) := by
  obtain ⟨tokens, hlexes, hreads⟩ := htype
  obtain ⟨more, hmore, hothers⟩ := hother
  have hmark : (" | " ++ other).toList.head?.any isEnd = true := by simp [isEnd]
  rw [String.append_assoc]
  exact ⟨_, hlexes.append (hmore.behind rfl) hmark, hreads.bar hothers⟩

theorem IsBody.object (hbody : letters.IsBody text fields) :
    letters.IsItem ("\x7b " ++ text ++ " \x7d") (.object fields) := by
  obtain ⟨tokens, hlexes, hreads⟩ := hbody
  exact ⟨_, (hlexes.behind rfl).append (lexes_symbols rfl) rfl, hreads.object⟩

theorem isIdentifier_of_ascii {name : String} (hname : TypeScript.isIdentifier name = true) :
    letters.isIdentifier name = true := by
  unfold TypeScript.isIdentifier at hname
  unfold isIdentifier
  generalize name.toList = chars at hname
  cases chars with
  | nil => cases hname
  | cons first rest =>
      simp only [isStart, isPart, Bool.and_eq_true, List.all_eq_true, Bool.or_eq_true] at hname ⊢
      exact ⟨.inl hname.1, fun c hc => .inl (hname.2 c hc)⟩

theorem lexes_key (name : String) : ∃ token, (token = .word name ∨ token = .text name) ∧
    letters.Lexes (key name) [token] := by
  unfold key
  split
  next hname => exact ⟨_, .inl rfl, letters.lexes_word (isIdentifier_of_ascii hname)⟩
  next => exact ⟨_, .inr rfl, letters.lexes_quote name⟩

theorem lexes_field {token : Token} {tokens : List Token} {name : String}
    (hkey : letters.Lexes (key name) [token]) (optional : Bool)
    (htype : letters.Lexes text tokens) :
    letters.Lexes (key name ++ optionalMark optional ++ ": " ++ text)
      (fieldTokens token optional tokens) := by
  have hmark : symbols? (optionalMark optional) = some (if optional then [.question] else []) := by
    cases optional <;> rfl
  have hends : (optionalMark optional ++ (": " ++ text)).toList.head?.any isEnd = true := by
    cases optional <;> simp [optionalMark, isEnd]
  have hcolon : symbols? ": " = some [.colon] := rfl
  rw [String.append_assoc, String.append_assoc]
  exact hkey.append ((htype.behind hcolon).behind hmark) hends

theorem IsType.field (htype : letters.IsType text alternatives) (name : String)
    (optional : Bool) : letters.IsBody (key name ++ optionalMark optional ++ ": " ++ text)
      [⟨name, .ofAlternatives alternatives, optional⟩] := by
  obtain ⟨token, htoken, hkey⟩ := letters.lexes_key name
  obtain ⟨tokens, hlexes, hreads⟩ := htype
  exact ⟨_, lexes_field hkey optional hlexes, hreads.field htoken optional⟩

theorem IsBody.cons (hbody : letters.IsBody other fields)
    (htype : letters.IsType text alternatives) (name : String) (optional : Bool) :
    letters.IsBody (key name ++ optionalMark optional ++ ": " ++ text ++ "; " ++ other)
      (⟨name, .ofAlternatives alternatives, optional⟩ :: fields) := by
  obtain ⟨token, htoken, hkey⟩ := letters.lexes_key name
  obtain ⟨tokens, hlexes, hreads⟩ := htype
  obtain ⟨more, hmore, hothers⟩ := hbody
  have hmark : ("; " ++ other).toList.head?.any isEnd = true := by simp [isEnd]
  rw [String.append_assoc]
  exact ⟨_, (lexes_field hkey optional hlexes).append (hmore.behind rfl) hmark,
    hothers.cons hreads htoken optional⟩

theorem isItem_keyword {word : String} (hname : letters.isIdentifier word = true)
    (hword : keyword? word = some term) : letters.IsItem word term :=
  ⟨_, letters.lexes_word hname, readsItem_keyword hword⟩

theorem isItem_name {name : String} (hname : letters.IsTypeName name) :
    letters.IsItem name (.name name) :=
  ⟨_, letters.lexes_word hname.1, readsItem_name hname.2⟩

theorem isItem_qualified {scope name : String} (hscope : letters.IsTypeName scope)
    (hname : letters.IsTypeName name) :
    letters.IsItem (scope ++ "." ++ name) (.qualified scope name) := by
  refine ⟨_, fun rest hends => ?_, readsItem_qualified hscope.2 name⟩
  have hdot : symbols? "." = some [.dot] := rfl
  rw [String.toList_append, String.toList_append, List.append_assoc, List.append_assoc,
    letters.tokens?_word hscope.1 rfl, letters.tokens?_symbols hdot,
    letters.tokens?_word hname.1 (Ends.no_part letters hends), Option.map_map, Option.map_map]
  rfl

theorem isItem_number (hsigned : IsSigned text.toList) : letters.IsItem text (.number text) :=
  ⟨_, letters.lexes_number hsigned, readsItem_number text⟩

theorem isItem_literal {value : Literal} (hvalue : value.IsPrintable) :
    letters.IsItem value.toText value.meant := by
  cases value with
  | string value => exact ⟨_, letters.lexes_quote value, readsItem_text value⟩
  | integer value => exact isItem_number (isSigned_toString value.toInt)
  | float value => exact isItem_number (Binary64.isSigned_toText hvalue)
  | boolean value => cases value <;> exact isItem_keyword rfl rfl

theorem isItem_primitive (primitive : Primitive) :
    letters.IsItem primitive.toText (.primitive primitive) := by
  cases primitive <;> exact isItem_keyword rfl rfl

end Rules

section Types

variable {letters}

theorem isType_join {options : List Ty} (hne : options ≠ [])
    (hoptions : ∀ option ∈ options, letters.IsType option.toText option.alternatives) :
    letters.IsType (Text.join " | " (typeTexts options)) (optionAlternatives options) := by
  induction options with
  | nil => exact absurd rfl hne
  | cons option options ih =>
      obtain ⟨hoption, hothers⟩ := List.forall_mem_cons.mp hoptions
      cases options with
      | nil => simpa [typeTexts, Text.join, optionAlternatives] using hoption
      | cons next rest => exact hoption.bar (ih (List.cons_ne_nil _ _) hothers)

theorem isBody_join {fields : List (TypeField Ty)} (hne : fields ≠ [])
    (hfields : ∀ field ∈ fields, letters.IsType field.type.toText field.type.alternatives) :
    letters.IsBody (Text.join "; " (fieldTexts fields)) (fieldTerms fields) := by
  induction fields with
  | nil => exact absurd rfl hne
  | cons field fields ih =>
      obtain ⟨hfield, hothers⟩ := List.forall_mem_cons.mp hfields
      cases fields with
      | nil => exact hfield.field field.name field.optional
      | cons next rest =>
          exact (ih (List.cons_ne_nil _ _) hothers).cons hfield field.name field.optional

theorem isItem_object {fields : List (TypeField Ty)}
    (hfields : ∀ field ∈ fields, letters.IsType field.type.toText field.type.alternatives) :
    letters.IsItem (braced "; " (fieldTexts fields)) (.object (fieldTerms fields)) := by
  cases fields with
  | nil => exact ⟨_, lexes_symbols rfl, readsFields_nil.object⟩
  | cons field fields => exact (isBody_join (List.cons_ne_nil _ _) hfields).object

theorem IsItem.reads {type : Ty} (hitem : letters.IsItem text term)
    (htext : type.toText = text) (hterm : type.alternatives = [term]) :
    letters.IsType type.toText type.alternatives ∧
      (type.isUnion = false → letters.IsItem type.toText type.meant) := by
  rw [Ty.meant, htext, hterm]
  exact ⟨hitem.type, fun _ => hitem⟩

/-- A proper type is read as its alternatives, and as one item if it is no union. -/
theorem IsProper.reads {type : Ty} (hproper : letters.IsProper type) :
    letters.IsType type.toText type.alternatives ∧
      (type.isUnion = false → letters.IsItem type.toText type.meant) := by
  induction hproper with
  | primitive primitive =>
      exact (letters.isItem_primitive primitive).reads (by rw [Ty.toText]) (by rw [Ty.alternatives])
  | @array items _ ih =>
      have hitem : letters.IsItem (Ty.array items).toText (.array items.meant) := by
        rw [Ty.toText]
        split
        next =>
          have hparen := ih.1.paren.array
          rw [String.append_assoc] at hparen
          exact hparen
        next hunion => exact (ih.2 (Bool.eq_false_of_not_eq_true hunion)).array
      exact hitem.reads rfl (by rw [Ty.alternatives, Ty.meant])
  | union hne _ ih =>
      rw [Ty.toText, Ty.alternatives]
      exact ⟨isType_join hne fun option hoption => (ih option hoption).1,
        fun hunion => nomatch hunion⟩
  | object _ ih =>
      have hitem := isItem_object fun field hfield => (ih field hfield).1
      exact hitem.reads (by rw [Ty.toText]) (by rw [Ty.alternatives])
  | literal hvalue =>
      exact (letters.isItem_literal hvalue).reads (by rw [Ty.toText]) (by rw [Ty.alternatives])
  | name hname =>
      exact (isItem_name hname).reads (by rw [Ty.toText]) (by rw [Ty.alternatives])
  | qualified hscope hname =>
      exact (isItem_qualified hscope hname).reads (by rw [Ty.toText]) (by rw [Ty.alternatives])

/-- A proper type is read from its text, all of it, as it was meant. -/
theorem IsProper.typeOf?_toText {type : Ty} (hproper : letters.IsProper type) :
    letters.typeOf? type.toText = some type.meant := by
  obtain ⟨tokens, hlexes, hreads⟩ := hproper.reads.1
  have htokens := hlexes [] fun _ hnone => nomatch hnone
  rw [List.append_nil, tokens?, Option.map_some, List.append_nil] at htokens
  rw [typeOf?, htokens]
  exact hreads.typeOfTokens?

end Types

end Letters

end TypeScript

end TrackingPlan
