import Mathlib.Algebra.Group.Nat.Even
import TrackingPlan.Proofs.TypeScript.ReadBack

/-!
# Literals and keys

Escaped text has no character that a literal must not have, and no quote that
could end it. So a literal is read up to its own last quote, whatever follows,
and a key of a property is read as the name that it was made of.
-/

namespace TrackingPlan.TypeScript

section Escaped

/-- A character is itself, or it is a backslash in front of another one or of a code point. -/
theorem escapeChar_cases (c : Char) :
    (escapeChar c = [c] ∧ c ≠ '\\' ∧ c ≠ '"' ∧ isControl c = false ∧ isLineSeparator c = false) ∨
      (∃ escaped ∈ ['\\', '"', 'n', 'r', 't'], escapeChar c = ['\\', escaped]) ∨
      escapeChar c = unicodeEscape c := by
  unfold escapeChar
  split
  · exact .inr (.inl ⟨'\\', by simp, rfl⟩)
  split
  · exact .inr (.inl ⟨'"', by simp, rfl⟩)
  split
  · exact .inr (.inl ⟨'n', by simp, rfl⟩)
  split
  · exact .inr (.inl ⟨'r', by simp, rfl⟩)
  split
  · exact .inr (.inl ⟨'t', by simp, rfl⟩)
  split
  · exact .inr (.inr rfl)
  next hback hquote _ _ _ hplain =>
    simp only [Bool.or_eq_true, not_or, Bool.not_eq_true] at hplain
    exact .inl ⟨rfl, hback, hquote, hplain.1, hplain.2⟩

/-- A character that may stand in a literal as itself. -/
structure IsPlain (c : Char) : Prop where
  printable : 0x20 ≤ c.toNat
  ne_delete : c.toNat ≠ 0x7F
  ne_lineSeparator : c.toNat ≠ 0x2028
  ne_paragraphSeparator : c.toNat ≠ 0x2029

theorem isPlain_of_not_escaped {c : Char} (hcontrol : isControl c = false)
    (hline : isLineSeparator c = false) : IsPlain c := by
  simp only [isControl, isLineSeparator, Bool.or_eq_false_iff, decide_eq_false_iff_not,
    beq_eq_false_iff_ne, Nat.not_lt] at hcontrol hline
  exact ⟨hcontrol.1, hcontrol.2, hline.1, hline.2⟩

instance (c : Char) : Decidable (IsPlain c) :=
  decidable_of_iff (0x20 ≤ c.toNat ∧ c.toNat ≠ 0x7F ∧ c.toNat ≠ 0x2028 ∧ c.toNat ≠ 0x2029)
    ⟨fun ⟨h₁, h₂, h₃, h₄⟩ => ⟨h₁, h₂, h₃, h₄⟩, fun ⟨h₁, h₂, h₃, h₄⟩ => ⟨h₁, h₂, h₃, h₄⟩⟩

theorem hexDigit_ne_backslash : ∀ digit < 16, hexDigit digit ≠ '\\' := by decide

theorem hexDigit_ne_quote : ∀ digit < 16, hexDigit digit ≠ '"' := by decide

theorem isPlain_hexDigit : ∀ digit < 16, IsPlain (hexDigit digit) := by decide

/-- A code point is a row of digits behind a backslash. -/
theorem exists_unicodeEscape_eq (c : Char) : ∃ digits last,
    (∀ digit ∈ digits ++ [last], digit < 16) ∧
      unicodeEscape c = '\\' :: 'u' :: digits.map hexDigit ++ [hexDigit last] := by
  refine ⟨[c.toNat / 4096 % 16, c.toNat / 256 % 16, c.toNat / 16 % 16], c.toNat % 16, ?_, rfl⟩
  simp [Nat.mod_lt]

theorem mem_unicodeEscape {c part : Char} (hpart : part ∈ unicodeEscape c) :
    part = '\\' ∨ part = 'u' ∨ ∃ digit < 16, part = hexDigit digit := by
  obtain ⟨digits, last, hdigits, heq⟩ := exists_unicodeEscape_eq c
  rw [heq, List.cons_append, List.cons_append, ← List.map_singleton, ← List.map_append,
    List.mem_cons, List.mem_cons, List.mem_map] at hpart
  rcases hpart with rfl | rfl | ⟨digit, hdigit, rfl⟩
  · exact .inl rfl
  · exact .inr (.inl rfl)
  · exact .inr (.inr ⟨digit, hdigits digit hdigit, rfl⟩)

theorem isPlain_of_mem_escapeChar {c part : Char} (hpart : part ∈ escapeChar c) :
    IsPlain part := by
  rcases escapeChar_cases c with ⟨hself, -, -, hcontrol, hline⟩ | ⟨escaped, hescaped, heq⟩ | hcode
  · rw [hself, List.mem_singleton] at hpart
    exact hpart ▸ isPlain_of_not_escaped hcontrol hline
  · rw [heq, List.mem_pair] at hpart
    rcases hpart with rfl | rfl
    · decide
    · simp only [List.mem_cons, List.not_mem_nil, or_false] at hescaped
      rcases hescaped with rfl | rfl | rfl | rfl | rfl <;> decide
  · rcases mem_unicodeEscape (hcode ▸ hpart) with rfl | rfl | ⟨digit, hdigit, rfl⟩
    · decide
    · decide
    · exact isPlain_hexDigit digit hdigit

/-- How many backslashes a text ends in. -/
def backslashesAtEnd (chars : List Char) : Nat :=
  (chars.reverse.takeWhile (· == '\\')).length

@[simp] theorem backslashesAtEnd_nil : backslashesAtEnd [] = 0 := rfl

@[simp] theorem backslashesAtEnd_concat (chars : List Char) (c : Char) :
    backslashesAtEnd (chars ++ [c]) = if c = '\\' then backslashesAtEnd chars + 1 else 0 := by
  by_cases hc : c = '\\' <;> simp [backslashesAtEnd, hc]

/-- Every backslash of an escaped text has something behind it that it belongs to. -/
theorem even_backslashesAtEnd_escape (chars : List Char) :
    Even (backslashesAtEnd (chars.flatMap escapeChar)) := by
  induction chars using List.reverseRecOn with
  | nil => simp
  | append_singleton chars c ih =>
      rw [List.flatMap_append, List.flatMap_singleton]
      rcases escapeChar_cases c with ⟨hself, hback, -⟩ | ⟨escaped, -, heq⟩ | hcode
      · simp [hself, hback]
      · rw [heq, List.append_cons, backslashesAtEnd_concat, backslashesAtEnd_concat, if_pos rfl]
        split
        · exact ih.add ⟨1, rfl⟩
        · exact Even.zero
      · obtain ⟨digits, last, hdigits, hdigitsEq⟩ := exists_unicodeEscape_eq c
        have hlast := hexDigit_ne_backslash last (hdigits last (by simp))
        rw [hcode, hdigitsEq, ← List.append_assoc, backslashesAtEnd_concat, if_neg hlast]
        exact Even.zero

/-- Only the escape of a quote has a quote in it. -/
theorem eq_backslash_of_escapeChar {c : Char} {before after : List Char}
    (hquote : escapeChar c = before ++ '"' :: after) : before = ['\\'] := by
  rcases escapeChar_cases c with ⟨hself, -, hne, -⟩ | ⟨escaped, -, heq⟩ | hcode
  · rw [hself] at hquote
    have hmem : '"' ∈ [c] := hquote ▸ List.mem_append_right _ List.mem_cons_self
    exact absurd (List.mem_singleton.mp hmem) (Ne.symm hne)
  · rw [heq] at hquote
    cases before with
    | nil => exact absurd (List.cons.inj hquote).1 (by decide)
    | cons first rest =>
        obtain ⟨rfl, hrest⟩ := List.cons.inj hquote
        cases rest with
        | nil => rfl
        | cons second others => simp at hrest
  · have hmem : '"' ∈ unicodeEscape c :=
      hcode ▸ hquote ▸ List.mem_append_right _ List.mem_cons_self
    rcases mem_unicodeEscape hmem with hback | hu | ⟨digit, hdigit, hhex⟩
    · exact absurd hback (by decide)
    · exact absurd hu (by decide)
    · exact absurd hhex.symm (hexDigit_ne_quote digit hdigit)

/-- A quote in an escaped text has an odd number of backslashes in front of it. -/
theorem odd_backslashesAtEnd_escape {chars before after : List Char}
    (hquote : chars.flatMap escapeChar = before ++ '"' :: after) :
    Odd (backslashesAtEnd before) := by
  induction chars using List.reverseRecOn generalizing after with
  | nil => simp at hquote
  | append_singleton chars c ih =>
      rw [List.flatMap_append, List.flatMap_singleton] at hquote
      rcases List.append_eq_append_iff.mp hquote with ⟨middle, hbefore, hc⟩ | ⟨middle, hchars, hc⟩
      · obtain rfl := eq_backslash_of_escapeChar hc
        rw [hbefore, backslashesAtEnd_concat, if_pos rfl]
        exact (even_backslashesAtEnd_escape chars).add_one
      · cases middle with
        | nil =>
            have hstart : escapeChar c = [] ++ '"' :: after := hc.symm
            cases eq_backslash_of_escapeChar hstart
        | cons first rest =>
            obtain ⟨rfl, -⟩ := List.cons.inj hc
            exact ih hchars

end Escaped

namespace Letters

variable (letters : Letters)

/-- The first token of a text, and what comes behind it. -/
def firstToken? : List Char → Option (Token × List Char)
  | [] => none
  | c :: rest => letters.readToken c rest

theorem firstToken?_quote (text : String) (rest : List Char) :
    letters.firstToken? ((quote text).toList ++ rest) = some (.text text, rest) := by
  rw [toList_quote_append]
  exact letters.readToken_quote text rest

theorem firstToken?_word {name : String} (hname : letters.isIdentifier name = true)
    {rest : List Char} (hrest : rest.head?.any letters.isPart = false) :
    letters.firstToken? (name.toList ++ rest) = some (.word name, rest) := by
  obtain ⟨first, others, hchars, -, hread⟩ := letters.exists_readToken_word hname hrest
  rw [hchars]
  exact hread

/-- The text is read as the name of a property: as a word if the name is an identifier, which
ends where no letter follows, and else as a literal, whatever follows. -/
structure IsKey (name text : String) : Prop where
  word : TypeScript.isIdentifier name = true → ∀ rest, rest.head?.any letters.isPart = false →
    letters.firstToken? (text.toList ++ rest) = some (.word name, rest)
  literal : TypeScript.isIdentifier name = false → ∀ rest,
    letters.firstToken? (text.toList ++ rest) = some (.text name, rest)

theorem isKey_key (name : String) : letters.IsKey name (key name) where
  word hname rest hrest := by
    rw [key, if_pos hname]
    exact letters.firstToken?_word (isIdentifier_of_ascii hname) hrest
  literal hname rest := by
    rw [key, if_neg (by rw [hname]; exact Bool.false_ne_true)]
    exact letters.firstToken?_quote name rest

variable {letters}

/-- A key is one token, which names the property. -/
theorem IsKey.exists_token {name text : String} (hkey : letters.IsKey name text) :
    ∃ token, letters.firstToken? text.toList = some (token, []) ∧
      readKey [token] = some (name, []) := by
  cases hname : TypeScript.isIdentifier name with
  | true =>
      have hread := hkey.word hname [] rfl
      rw [List.append_nil] at hread
      exact ⟨.word name, hread, rfl⟩
  | false =>
      have hread := hkey.literal hname []
      rw [List.append_nil] at hread
      exact ⟨.text name, hread, rfl⟩

theorem IsKey.unique {first second text : String} (hfirst : letters.IsKey first text)
    (hsecond : letters.IsKey second text) : first = second := by
  obtain ⟨token, htoken, hname⟩ := hfirst.exists_token
  obtain ⟨other, hother, hsame⟩ := hsecond.exists_token
  obtain ⟨rfl, -⟩ := Prod.mk.inj (Option.some.inj (htoken.symm.trans hother))
  exact (Prod.mk.inj (Option.some.inj (hname.symm.trans hsame))).1

end Letters

/-- A literal is read back up to its own last quote, whatever follows: nothing in it ends it or
has to be escaped. A key is read as the name that it is made of, so that different names have
different keys. -/
theorem quoted_reads_back (letters : Letters) (text : String) :
    (Literal.string text).toText = "\"" ++ escape text ++ "\"" ∧
    (∀ rest, letters.firstToken? ((Literal.string text).toText.toList ++ rest) =
      some (.text text, rest)) ∧
    (∀ c ∈ (escape text).toList, IsPlain c) ∧
    (∀ before after, (escape text).toList = before ++ '"' :: after →
      Odd (backslashesAtEnd before)) ∧
    letters.IsKey text (key text) ∧
    ∀ other, key other = key text → other = text := by
  refine ⟨rfl, letters.firstToken?_quote text, ?_, ?_, letters.isKey_key text, ?_⟩
  · intro c hc
    rw [escape, String.toList_ofList] at hc
    obtain ⟨origin, -, hpart⟩ := List.mem_flatMap.mp hc
    exact isPlain_of_mem_escapeChar hpart
  · intro before after hquote
    rw [escape, String.toList_ofList] at hquote
    exact odd_backslashesAtEnd_escape hquote
  · intro other hkey
    have hother := letters.isKey_key other
    rw [hkey] at hother
    exact hother.unique (letters.isKey_key text)

theorem sayHi_reads_back :
    let letters : Letters := ⟨fun _ => false, fun _ => false⟩
    letters.firstToken? "\"say \\\"hi\\\"\\n\"?: string".toList =
      some (.text "say \"hi\"\n", "?: string".toList) ∧
    letters.firstToken? "userId: number".toList = some (.word "userId", ": number".toList) ∧
    key "userId" ≠ key "user id" := by
  intro letters
  obtain ⟨-, -, -, -, hsayHi, -⟩ := quoted_reads_back letters "say \"hi\"\n"
  obtain ⟨-, -, -, -, huserId, hdifferent⟩ := quoted_reads_back letters "userId"
  refine ⟨hsayHi.literal (by decide) "?: string".toList,
    huserId.word (by decide) ": number".toList (by decide), fun hkey => ?_⟩
  exact absurd (hdifferent "user id" hkey.symm) (by decide)

end TrackingPlan.TypeScript
