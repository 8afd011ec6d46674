import TrackingPlan.Proofs.Decimal.Numerals
import TrackingPlan.Proofs.TypeScript.Quoted

/-!
# Tokens of types

The text of a type is a row of words, numerals, quoted texts and symbols, with
blanks between them. Each token is as long as it can be, so that a text has the
tokens of its parts where none of them goes on in the next one.
-/

namespace TrackingPlan.TypeScript

inductive Token where
  | word (name : String)
  | number (text : String)
  /-- A quoted text, as it is meant. -/
  | text (text : String)
  | parenOpen
  | parenClose
  | bracketOpen
  | bracketClose
  | braceOpen
  | braceClose
  | bar
  | colon
  | semicolon
  | question
  | dot
  | minus
  deriving DecidableEq, Repr

def symbol? : Char → Option Token
  | '(' => some .parenOpen
  | ')' => some .parenClose
  | '[' => some .bracketOpen
  | ']' => some .bracketClose
  | '\x7b' => some .braceOpen
  | '\x7d' => some .braceClose
  | '|' => some .bar
  | ':' => some .colon
  | ';' => some .semicolon
  | '?' => some .question
  | '.' => some .dot
  | '-' => some .minus
  | _ => none

/-- The characters beyond ASCII that an identifier may start with, and those
that it may go on with. -/
structure Letters where
  start : Char → Bool
  part : Char → Bool

namespace Letters

variable (letters : Letters)

def isStart (c : Char) : Bool := isIdentifierStart c || (128 ≤ c.toNat && letters.start c)

def isPart (c : Char) : Bool := isIdentifierPart c || (128 ≤ c.toNat && letters.part c)

/-- An identifier of any characters; keywords count. -/
def isIdentifier (name : String) : Bool :=
  match name.toList with
  | [] => false
  | first :: rest => letters.isStart first && rest.all letters.isPart

/-- The end of a numeral, which no letter may follow. -/
def endNumeral (text : List Char) (rest : List Char) : Option (Token × List Char) :=
  if rest.head?.any letters.isStart then none else some (.number (String.ofList text), rest)

/-- A numeral with its first digit. -/
def readNumeral (first : Char) (rest : List Char) : Option (Token × List Char) :=
  let digits := first :: rest.takeWhile Char.isDigit
  if first = '0' ∧ digits ≠ ['0'] then none
  else
    match rest.dropWhile Char.isDigit with
    | '.' :: more =>
      let places := more.takeWhile Char.isDigit
      if places = [] then none
      else letters.endNumeral (digits ++ '.' :: places) (more.dropWhile Char.isDigit)
    | rest => letters.endNumeral digits rest

/-- The token that starts with the character, and what comes behind it. -/
def readToken (c : Char) (rest : List Char) : Option (Token × List Char) :=
  if letters.isStart c then
    some (.word (String.ofList (c :: rest.takeWhile letters.isPart)),
      rest.dropWhile letters.isPart)
  else if c.isDigit then letters.readNumeral c rest
  else if c = '"' then
    (readQuoted (.character false) rest).map fun (text, rest) => (.text (String.ofList text), rest)
  else (symbol? c).map fun token => (token, rest)

theorem rest_of_endNumeral {text chars rest : List Char} {token : Token}
    (hread : letters.endNumeral text chars = some (token, rest)) : rest = chars := by
  unfold endNumeral at hread
  split at hread
  · cases hread
  · exact (Prod.mk.inj (Option.some.inj hread)).2.symm

theorem length_of_readToken {c : Char} {chars rest : List Char} {token : Token}
    (hread : letters.readToken c chars = some (token, rest)) : rest.length ≤ chars.length := by
  have hdrop : ∀ (p : Char → Bool) (chars : List Char),
      (chars.dropWhile p).length ≤ chars.length :=
    fun p chars => (List.dropWhile_sublist p).length_le
  unfold readToken at hread
  split at hread
  · obtain rfl := (Prod.mk.inj (Option.some.inj hread)).2
    exact hdrop letters.isPart chars
  split at hread
  · unfold readNumeral at hread
    dsimp only at hread
    split at hread
    · cases hread
    split at hread
    next more hmore =>
      split at hread
      · cases hread
      · obtain rfl := letters.rest_of_endNumeral hread
        have hrest := hdrop Char.isDigit chars
        rw [hmore, List.length_cons] at hrest
        have hmoreDrop := hdrop Char.isDigit more
        omega
    next =>
      obtain rfl := letters.rest_of_endNumeral hread
      exact hdrop Char.isDigit chars
  split at hread
  · obtain ⟨⟨text, after⟩, hquoted, heq⟩ := Option.map_eq_some_iff.mp hread
    obtain rfl := (Prod.mk.inj heq).2
    exact (length_of_readQuoted hquoted).le
  · obtain ⟨symbol, -, heq⟩ := Option.map_eq_some_iff.mp hread
    obtain rfl := (Prod.mk.inj heq).2
    exact le_rfl

/-- The tokens of a text, in which only blanks may stand between them. -/
def tokens? : List Char → Option (List Token)
  | [] => some []
  | c :: rest =>
    if c = ' ' then tokens? rest
    else
      match _h : letters.readToken c rest with
      | some (token, after) => (tokens? after).map (token :: ·)
      | none => none
termination_by chars => chars.length
decreasing_by
  · exact Nat.lt_succ_self _
  · exact Nat.lt_succ_of_le (letters.length_of_readToken _h)

theorem tokens?_blank (rest : List Char) :
    letters.tokens? (' ' :: rest) = letters.tokens? rest := by
  rw [tokens?, if_pos rfl]

theorem tokens?_cons {c : Char} {rest after : List Char} {token : Token} (hblank : c ≠ ' ')
    (hread : letters.readToken c rest = some (token, after)) :
    letters.tokens? (c :: rest) = (letters.tokens? after).map (token :: ·) := by
  rw [tokens?, if_neg hblank]
  split
  next found hfound =>
    obtain ⟨rfl, rfl⟩ := Prod.mk.inj (Option.some.inj (hread.symm.trans hfound))
    rfl
  next hnone =>
    rw [hread] at hnone
    cases hnone

theorem tokens?_symbol {c : Char} {token : Token} (hsymbol : symbol? c = some token)
    (rest : List Char) :
    letters.tokens? (c :: rest) = (letters.tokens? rest).map (token :: ·) := by
  unfold symbol? at hsymbol
  split at hsymbol <;> first
    | cases hsymbol
      exact letters.tokens?_cons (by decide) rfl
    | cases hsymbol

theorem takeWhile_append_of_head? {p : Char → Bool} {chars rest : List Char}
    (hchars : ∀ c ∈ chars, p c = true) (hrest : rest.head?.any p = false) :
    (chars ++ rest).takeWhile p = chars ∧ (chars ++ rest).dropWhile p = rest := by
  have hstop : rest.takeWhile p = [] ∧ rest.dropWhile p = rest := by
    cases rest with
    | nil => exact ⟨rfl, rfl⟩
    | cons c rest =>
        have hc : ¬ p c = true := by simpa using hrest
        exact ⟨List.takeWhile_cons_of_neg hc, List.dropWhile_cons_of_neg hc⟩
  rw [List.takeWhile_append_of_pos hchars, List.dropWhile_append_of_pos hchars, hstop.1, hstop.2,
    List.append_nil]
  exact ⟨rfl, rfl⟩

/-- A word ends where no letter follows. -/
theorem exists_readToken_word {name : String} (hname : letters.isIdentifier name = true)
    {rest : List Char} (hrest : rest.head?.any letters.isPart = false) :
    ∃ first others, name.toList = first :: others ∧ letters.isStart first = true ∧
      letters.readToken first (others ++ rest) = some (.word name, rest) := by
  unfold isIdentifier at hname
  split at hname
  next => cases hname
  next first others hchars =>
    obtain ⟨hfirst, hothers⟩ := Bool.and_eq_true_iff.mp hname
    have hsplit := takeWhile_append_of_head? (List.all_eq_true.mp hothers) hrest
    refine ⟨first, others, hchars, hfirst, ?_⟩
    rw [readToken, if_pos hfirst, hsplit.1, hsplit.2, ← hchars, String.ofList_toList]

theorem tokens?_word {name : String} (hname : letters.isIdentifier name = true)
    {rest : List Char} (hrest : rest.head?.any letters.isPart = false) :
    letters.tokens? (name.toList ++ rest) = (letters.tokens? rest).map (.word name :: ·) := by
  obtain ⟨first, others, hchars, hfirst, hread⟩ := letters.exists_readToken_word hname hrest
  have hblank : first ≠ ' ' := by
    rintro rfl
    exact Bool.false_ne_true hfirst
  rw [hchars, List.cons_append]
  exact letters.tokens?_cons hblank hread

/-- What can stand behind a type or a key, and is not part of any other token. -/
def isEnd (c : Char) : Bool := [' ', '[', ')', ';', '?', ':'].contains c

def Ends (chars : List Char) : Prop := ∀ c, chars.head? = some c → isEnd c = true

theorem ends_append {chars : List Char} (hchars : chars.head?.any isEnd = true)
    (rest : List Char) : Ends (chars ++ rest) := by
  intro first hfirst
  cases chars with
  | nil => cases hchars
  | cons c chars =>
      obtain rfl := Option.some.inj hfirst
      exact hchars

theorem Ends.head?_any {chars : List Char} (hends : Ends chars) {p : Char → Bool}
    (hp : [' ', '[', ')', ';', '?', ':'].any p = false) : chars.head?.any p = false := by
  cases chars with
  | nil => rfl
  | cons c rest =>
      have hc := List.any_eq_false.mp hp c (List.contains_iff_mem.mp (hends c rfl))
      simpa using hc

theorem Ends.no_part {chars : List Char} (hends : Ends chars) :
    chars.head?.any letters.isPart = false :=
  hends.head?_any rfl

theorem Ends.no_start {chars : List Char} (hends : Ends chars) :
    chars.head?.any letters.isStart = false :=
  hends.head?_any rfl

/-- A numeral ends where neither a digit nor a point nor a letter follows. -/
theorem readNumeral_eq {first : Char} {chars rest : List Char}
    (hnumeral : IsNumeral (first :: chars)) (hends : Ends rest) :
    letters.readNumeral first (chars ++ rest) =
      some (.number (String.ofList (first :: chars)), rest) := by
  have hend : ∀ text, letters.endNumeral text rest = some (.number (String.ofList text), rest) := by
    intro text
    rw [endNumeral, if_neg (by rw [hends.no_start]; exact Bool.false_ne_true)]
  have hdigit : rest.head?.any Char.isDigit = false := hends.head?_any rfl
  generalize hchars : first :: chars = numeral at hnumeral
  unfold readNumeral
  cases hnumeral with
  | whole hwhole =>
      subst hchars
      have hdigits := (List.forall_mem_cons.mp hwhole.digits).2
      obtain ⟨htake, hdrop⟩ := takeWhile_append_of_head? hdigits hdigit
      have hzero : ¬ (first = '0' ∧ first :: chars ≠ ['0']) := by
        rintro ⟨rfl, hne⟩
        exact hne (hwhole.no_zero rfl)
      rw [htake, hdrop]
      dsimp only
      rw [if_neg hzero]
      split
      next more =>
        exact absurd (hends '.' rfl) (by decide)
      next => exact hend _
  | @fraction whole places hwhole hne hplaces =>
      obtain ⟨digit, digits, rfl⟩ := List.exists_cons_of_ne_nil hwhole.ne_nil
      rw [List.cons_append] at hchars
      obtain ⟨rfl, rfl⟩ := List.cons.inj hchars
      have hdigits := (List.forall_mem_cons.mp hwhole.digits).2
      have hpoint : ('.' :: (places ++ rest)).head?.any Char.isDigit = false := rfl
      obtain ⟨htake, hdrop⟩ := takeWhile_append_of_head? hdigits hpoint
      obtain ⟨hplacesTake, hplacesDrop⟩ := takeWhile_append_of_head? hplaces hdigit
      have hzero : ¬ (first = '0' ∧ first :: digits ≠ ['0']) := by
        rintro ⟨rfl, hne⟩
        exact hne (hwhole.no_zero rfl)
      rw [List.append_assoc, List.cons_append, htake, hdrop]
      dsimp only
      rw [if_neg hzero]
      split
      next more hmore =>
        obtain rfl := (List.cons.inj hmore).2
        rw [hplacesTake, hplacesDrop, if_neg hne]
        exact hend _
      next hmore => exact absurd rfl (hmore _)

/-- The text has these tokens wherever it ends. -/
def Lexes (text : String) (tokens : List Token) : Prop :=
  ∀ rest, Ends rest →
    letters.tokens? (text.toList ++ rest) = (letters.tokens? rest).map (tokens ++ ·)

/-- The tokens of a number: its sign is one of its own. -/
def numberTokens : List Char → List Token
  | '-' :: numeral => [.minus, .number (String.ofList numeral)]
  | numeral => [.number (String.ofList numeral)]

theorem isStart_of_isDigit {c : Char} (hdigit : c.isDigit = true) : letters.isStart c = false := by
  have hcode : 48 ≤ c.toNat ∧ c.toNat ≤ 57 := by
    simpa [Char.isDigit, UInt32.le_iff_toNat_le] using hdigit
  have hcases : ∀ code ≤ 57, 48 ≤ code → isIdentifierStart (Char.ofNat code) = false := by decide
  have hascii : ¬ 128 ≤ c.toNat := by omega
  have hstart := hcases c.toNat hcode.2 hcode.1
  rw [Char.ofNat_toNat] at hstart
  simp [isStart, hstart, hascii]

theorem exists_digit_of_isNumeral {numeral : List Char} (hnumeral : IsNumeral numeral) :
    ∃ first chars, numeral = first :: chars ∧ first.isDigit = true := by
  cases hnumeral with
  | whole hwhole =>
      obtain ⟨first, chars, rfl⟩ := List.exists_cons_of_ne_nil hwhole.ne_nil
      exact ⟨first, chars, rfl, hwhole.digits first List.mem_cons_self⟩
  | fraction hwhole _ _ =>
      obtain ⟨first, chars, rfl⟩ := List.exists_cons_of_ne_nil hwhole.ne_nil
      exact ⟨first, _, rfl, hwhole.digits first List.mem_cons_self⟩

theorem tokens?_numeral {numeral rest : List Char} (hnumeral : IsNumeral numeral)
    (hends : Ends rest) : letters.tokens? (numeral ++ rest) =
      (letters.tokens? rest).map (.number (String.ofList numeral) :: ·) := by
  obtain ⟨first, chars, rfl, hdigit⟩ := exists_digit_of_isNumeral hnumeral
  have hstart := letters.isStart_of_isDigit hdigit
  have hread : letters.readToken first (chars ++ rest) =
      some (.number (String.ofList (first :: chars)), rest) := by
    rw [readToken, if_neg (by rw [hstart]; exact Bool.false_ne_true), if_pos hdigit]
    exact letters.readNumeral_eq hnumeral hends
  refine letters.tokens?_cons ?_ hread
  rintro rfl
  exact Bool.false_ne_true hdigit

theorem lexes_number {text : String} (hsigned : IsSigned text.toList) :
    letters.Lexes text (numberTokens text.toList) := by
  intro rest hends
  obtain ⟨numeral, hnumeral, htext⟩ := hsigned
  rcases htext with htext | htext
  · obtain ⟨first, chars, rfl, hdigit⟩ := exists_digit_of_isNumeral hnumeral
    have htokens : numberTokens (first :: chars) = [.number (String.ofList (first :: chars))] := by
      unfold numberTokens
      split
      next heq =>
        obtain ⟨rfl, -⟩ := List.cons.inj heq
        exact absurd hdigit (by decide)
      next => rfl
    rw [htext, htokens]
    exact letters.tokens?_numeral hnumeral hends
  · rw [htext, numberTokens, List.cons_append, letters.tokens?_symbol rfl,
      letters.tokens?_numeral hnumeral hends, Option.map_map]
    rfl

theorem lexes_word {name : String} (hname : letters.isIdentifier name = true) :
    letters.Lexes name [.word name] :=
  fun _ hends => letters.tokens?_word hname (Ends.no_part letters hends)

theorem toList_quote_append (text : String) (rest : List Char) :
    (quote text).toList ++ rest = '"' :: ((escape text).toList ++ '"' :: rest) := by
  simp [quote]

/-- A literal ends at its own quote, whatever follows. -/
theorem readToken_quote (text : String) (rest : List Char) :
    letters.readToken '"' ((escape text).toList ++ '"' :: rest) = some (.text text, rest) := by
  have hquoted := readQuoted_escape text rest
  rw [readToken, if_neg (by exact Bool.false_ne_true), if_neg (by decide), if_pos rfl, hquoted]
  simp

theorem lexes_quote (text : String) : letters.Lexes (quote text) [.text text] := by
  intro rest _
  rw [toList_quote_append]
  exact letters.tokens?_cons (by decide) (letters.readToken_quote text rest)

section Marks

/-- The tokens of a text of symbols and blanks. -/
def symbols? (text : String) : Option (List Token) :=
  (text.toList.filter (· ≠ ' ')).mapM symbol?

theorem tokens?_symbols {chars : List Char} {marks : List Token}
    (hmarks : (chars.filter (· ≠ ' ')).mapM symbol? = some marks) (rest : List Char) :
    letters.tokens? (chars ++ rest) = (letters.tokens? rest).map (marks ++ ·) := by
  induction chars generalizing marks with
  | nil =>
      obtain rfl := Option.some.inj hmarks
      simp
  | cons c chars ih =>
      by_cases hblank : c = ' '
      · subst hblank
        rw [List.cons_append, tokens?_blank]
        exact ih hmarks
      · rw [List.filter_cons_of_pos (by simpa using hblank), List.mapM_cons] at hmarks
        obtain ⟨mark, hmark, hrest⟩ := Option.bind_eq_some_iff.mp hmarks
        obtain ⟨others, hothers, heq⟩ := Option.bind_eq_some_iff.mp hrest
        obtain rfl := Option.some.inj heq
        rw [List.cons_append, letters.tokens?_symbol hmark, ih hothers, Option.map_map]
        rfl

variable {letters} {text other mark : String} {tokens others marks : List Token}

theorem lexes_symbols (hmark : symbols? mark = some marks) : letters.Lexes mark marks :=
  fun rest _ => letters.tokens?_symbols hmark rest

/-- Symbols can stand in front of any text. -/
theorem Lexes.behind (htext : letters.Lexes text tokens) (hmark : symbols? mark = some marks) :
    letters.Lexes (mark ++ text) (marks ++ tokens) := by
  intro rest hends
  rw [String.toList_append, List.append_assoc, letters.tokens?_symbols hmark, htext rest hends,
    Option.map_map]
  simp only [Function.comp_def, List.append_assoc]

/-- A text that starts with a mark can stand behind any other one. -/
theorem Lexes.append (htext : letters.Lexes text tokens) (hother : letters.Lexes other others)
    (hmark : other.toList.head?.any isEnd = true) :
    letters.Lexes (text ++ other) (tokens ++ others) := by
  intro rest hends
  rw [String.toList_append, List.append_assoc, htext _ (ends_append hmark rest),
    hother rest hends, Option.map_map]
  simp only [Function.comp_def, List.append_assoc]

end Marks

end Letters

end TrackingPlan.TypeScript
