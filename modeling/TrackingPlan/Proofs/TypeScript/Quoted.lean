import TrackingPlan.TypeScript.Quoted

/-!
# Reading quoted text

A double-quoted literal is read one character at a time, as the language has
it. Escaped text is read back up to the quote behind it, whatever comes next.
-/

namespace TrackingPlan.TypeScript

/-- The value of a hexadecimal digit, in either case. -/
def hexValue? (c : Char) : Option Nat :=
  if '0' ≤ c ∧ c ≤ '9' then some (c.toNat - '0'.toNat)
  else if 'a' ≤ c ∧ c ≤ 'f' then some (c.toNat - 'a'.toNat + 10)
  else if 'A' ≤ c ∧ c ≤ 'F' then some (c.toNat - 'A'.toNat + 10)
  else none

/-- The character with the code point. Half of a surrogate pair is no character. -/
def characterOf? (code : Nat) : Option Char :=
  if code.isValidChar then some (Char.ofNat code) else none

/-- What a character stands for behind a backslash, unless it is the start of
an escape by code point or the end of a line. -/
def escapedChar (c : Char) : Char :=
  if c = 'b' then '\x08'
  else if c = 't' then '\t'
  else if c = 'n' then '\n'
  else if c = 'v' then '\x0B'
  else if c = 'f' then '\x0C'
  else if c = 'r' then '\r'
  else c

/-- Where the reading of a literal is. -/
inductive QuotedState where
  /-- Before a character. A carriage return that continues the line takes a
  line feed with it. -/
  | character (afterReturn : Bool)
  /-- Behind a backslash. -/
  | escape
  /-- Behind a backslash and a `u`. -/
  | unicode
  /-- Before the last digits of a code point: one more than `others`. -/
  | digits (others value : Nat)
  /-- Between the braces of a code point. -/
  | braces (value : Option Nat)

/-- A text that was read, with a character in front of it. -/
def inFront (c : Char) (found : Option (List Char × List Char)) : Option (List Char × List Char) :=
  found.map fun (text, rest) => (c :: text, rest)

/-- Read a literal up to its closing quote: its text, and what comes behind the quote. -/
def readQuoted : QuotedState → List Char → Option (List Char × List Char)
  | _, [] => none
  | .character afterReturn, c :: rest =>
    if c = '"' then some ([], rest)
    else if c = '\\' then readQuoted .escape rest
    else if c = '\n' ∧ afterReturn then readQuoted (.character false) rest
    else if c = '\n' ∨ c = '\r' then none
    else inFront c (readQuoted (.character false) rest)
  | .escape, c :: rest =>
    if c = 'x' then readQuoted (.digits 1 0) rest
    else if c = 'u' then readQuoted .unicode rest
    else if c = '\n' ∨ isLineSeparator c then readQuoted (.character false) rest
    else if c = '\r' then readQuoted (.character true) rest
    else if c.isDigit then
      if c = '0' ∧ ¬ rest.head?.any Char.isDigit then
        inFront '\x00' (readQuoted (.character false) rest)
      else none
    else inFront (escapedChar c) (readQuoted (.character false) rest)
  | .unicode, c :: rest =>
    if c = '\x7b' then readQuoted (.braces none) rest
    else
      match hexValue? c with
      | some digit => readQuoted (.digits 2 digit) rest
      | none => none
  | .digits others value, c :: rest =>
    match hexValue? c with
    | none => none
    | some digit =>
      match others with
      | others + 1 => readQuoted (.digits others (value * 16 + digit)) rest
      | 0 =>
        match characterOf? (value * 16 + digit) with
        | some c => inFront c (readQuoted (.character false) rest)
        | none => none
  | .braces value, c :: rest =>
    if c = '\x7d' then
      match value.bind characterOf? with
      | some c => inFront c (readQuoted (.character false) rest)
      | none => none
    else
      match hexValue? c with
      | some digit => readQuoted (.braces (some (value.getD 0 * 16 + digit))) rest
      | none => none

theorem inFront_eq_some {c : Char} {found : Option (List Char × List Char)}
    {text rest : List Char} (hfound : inFront c found = some (text, rest)) :
    ∃ inner, found = some (inner, rest) := by
  obtain ⟨⟨inner, after⟩, hinner, heq⟩ := Option.map_eq_some_iff.mp hfound
  obtain rfl := (Prod.mk.inj heq).2
  exact ⟨inner, hinner⟩

/-- What comes behind a literal is shorter than what it was read from. -/
theorem length_of_readQuoted {state : QuotedState} {chars text rest : List Char}
    (hread : readQuoted state chars = some (text, rest)) : rest.length < chars.length := by
  fun_induction readQuoted state chars generalizing text with
  | case1 | case5 | case12 | case16 | case17 | case20 | case22 | case24 => cases hread
  | case2 =>
      obtain rfl := (Prod.mk.inj (Option.some.inj hread)).2
      exact Nat.lt_succ_self _
  | case6 | case11 | case13 | case19 | case21 =>
      rename_i ih
      obtain ⟨inner, hinner⟩ := inFront_eq_some hread
      exact Nat.lt_succ_of_lt (ih hinner)
  | _ =>
      rename_i ih
      exact Nat.lt_succ_of_lt (ih hread)

theorem hexValue?_hexDigit : ∀ digit < 16, hexValue? (hexDigit digit) = some digit := by decide

theorem hexDigit_ne_brace : ∀ digit < 16, hexDigit digit ≠ '\x7b' := by decide

theorem characterOf?_toNat (c : Char) : characterOf? c.toNat = some c := by
  have hvalid : c.toNat.isValidChar := c.valid
  rw [characterOf?, if_pos hvalid, Char.ofNat_toNat]

theorem readQuoted_digit {digit : Nat} (hdigit : digit < 16) (others value : Nat)
    (rest : List Char) :
    readQuoted (.digits (others + 1) value) (hexDigit digit :: rest) =
      readQuoted (.digits others (value * 16 + digit)) rest := by
  rw [readQuoted, hexValue?_hexDigit digit hdigit]

/-- The four digits of a code point are read one after the other. -/
theorem readQuoted_unicodeEscape {c : Char} (hcode : c.toNat < 0x10000) (rest : List Char) :
    readQuoted (.character false) (unicodeEscape c ++ rest) =
      inFront c (readQuoted (.character false) rest) := by
  have hvalue : ((c.toNat / 4096 % 16 * 16 + c.toNat / 256 % 16) * 16 + c.toNat / 16 % 16) * 16 +
      c.toNat % 16 = c.toNat := by omega
  have hdigit : ∀ code : Nat, code % 16 < 16 := fun code => Nat.mod_lt code (by decide)
  have hlast : ∀ value : Nat, value * 16 + c.toNat % 16 = c.toNat →
      readQuoted (.digits 0 value) (hexDigit (c.toNat % 16) :: rest) =
        inFront c (readQuoted (.character false) rest) := by
    intro value hvalue
    rw [readQuoted, hexValue?_hexDigit _ (hdigit _)]
    simp only [hvalue, characterOf?_toNat]
  simp only [unicodeEscape, List.cons_append, List.nil_append]
  rw [readQuoted]
  simp only [Char.reduceEq, if_false, if_true]
  rw [readQuoted]
  simp only [Char.reduceEq, if_false, if_true]
  rw [readQuoted, if_neg (hexDigit_ne_brace _ (hdigit _)), hexValue?_hexDigit _ (hdigit _)]
  dsimp only
  rw [readQuoted_digit (hdigit _), readQuoted_digit (hdigit _), hlast _ hvalue]

/-- A character that is escaped by itself. -/
theorem readQuoted_escapedChar {c : Char} (hcode : c ≠ 'x' ∧ c ≠ 'u')
    (hline : c ≠ '\n' ∧ c ≠ '\r' ∧ isLineSeparator c = false) (hdigit : c.isDigit = false)
    (rest : List Char) :
    readQuoted (.character false) ('\\' :: c :: rest) =
      inFront (escapedChar c) (readQuoted (.character false) rest) := by
  rw [readQuoted]
  simp only [Char.reduceEq, if_false, if_true]
  rw [readQuoted]
  simp [hcode, hline, hdigit]

theorem readQuoted_escapeChar (c : Char) (rest : List Char) :
    readQuoted (.character false) (escapeChar c ++ rest) =
      inFront c (readQuoted (.character false) rest) := by
  have hescaped : ∀ escaped : Char, escaped ∈ ['\\', '"', 'n', 'r', 't'] →
      readQuoted (.character false) (['\\', escaped] ++ rest) =
        inFront (escapedChar escaped) (readQuoted (.character false) rest) := by
    intro escaped hmem
    have hplain : ∀ c ∈ ['\\', '"', 'n', 'r', 't'], (c ≠ 'x' ∧ c ≠ 'u') ∧
        (c ≠ '\n' ∧ c ≠ '\r' ∧ isLineSeparator c = false) ∧ c.isDigit = false := by
      simp only [List.forall_mem_cons, List.not_mem_nil, false_implies, implies_true]
      decide
    obtain ⟨hcode, hline, hdigit⟩ := hplain escaped hmem
    exact readQuoted_escapedChar hcode hline hdigit rest
  unfold escapeChar
  split
  next hc =>
    subst hc
    exact hescaped '\\' (by decide)
  split
  next hc =>
    subst hc
    exact hescaped '"' (by decide)
  split
  next hc =>
    subst hc
    exact hescaped 'n' (by decide)
  split
  next hc =>
    subst hc
    exact hescaped 'r' (by decide)
  split
  next hc =>
    subst hc
    exact hescaped 't' (by decide)
  split
  next hunicode =>
    refine readQuoted_unicodeEscape ?_ rest
    simp only [isControl, isLineSeparator, Bool.or_eq_true, decide_eq_true_eq, beq_iff_eq]
      at hunicode
    omega
  next hback hquote hfeed hreturn _ _ =>
    rw [List.singleton_append, readQuoted]
    simp [hback, hquote, hfeed, hreturn]

/-- Escaped text is read back, and the reading stops at the quote behind it. -/
theorem readQuoted_escape (text : String) (rest : List Char) :
    readQuoted (.character false) ((escape text).toList ++ '"' :: rest) =
      some (text.toList, rest) := by
  rw [escape, String.toList_ofList]
  induction text.toList with
  | nil => simp [readQuoted]
  | cons c chars ih =>
      rw [List.flatMap_cons, List.append_assoc, readQuoted_escapeChar, ih]
      rfl

end TrackingPlan.TypeScript
