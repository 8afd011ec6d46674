import Mathlib.Data.List.Infix
import TrackingPlan.Proofs.Text.Lines
import TrackingPlan.Proofs.TypeScript.Quoted
import TrackingPlan.TypeScript.DocComment

/-!
# Comments hold their text

A comment ends at the first `*` with a slash behind it. No line of a description
has one in it when it is shown, nor do two lines put one together, so that the
comment ends where it is meant to. What is shown still tells what was described.
-/

namespace TrackingPlan.TypeScript

/-- Somewhere in the text a comment would end. -/
def EndsComment (chars : List Char) : Prop := ['*', '/'] <:+: chars

theorem endsComment_cons_iff {c : Char} {rest : List Char} :
    EndsComment (c :: rest) ↔ c = '*' ∧ rest.head? = some '/' ∨ EndsComment rest := by
  rw [EndsComment, List.infix_cons_iff, List.cons_prefix_cons]
  cases rest with
  | nil => simp [EndsComment]
  | cons d rest => simp [EndsComment, eq_comm]

theorem not_endsComment_nil : ¬ EndsComment [] := by simp [EndsComment]

theorem not_endsComment_singleton (c : Char) : ¬ EndsComment [c] := by
  simp [endsComment_cons_iff, not_endsComment_nil]

theorem endsComment_append {first second : List Char}
    (hends : EndsComment (first ++ second)) (hslash : second.head? ≠ some '/') :
    EndsComment first ∨ EndsComment second := by
  induction first with
  | nil => exact .inr hends
  | cons c rest ih =>
      rw [List.cons_append, endsComment_cons_iff] at hends
      rw [endsComment_cons_iff]
      rcases hends with ⟨hc, hhead⟩ | hends
      · cases rest with
        | nil => exact absurd hhead hslash
        | cons d rest => exact .inl (.inl ⟨hc, hhead⟩)
      · rcases ih hends with hrest | hsecond
        · exact .inl (.inr hrest)
        · exact .inr hsecond

section Breaking

theorem head?_breakCommentEnds (chars : List Char) :
    (breakCommentEnds chars).head? = chars.head? := by
  fun_cases breakCommentEnds chars <;> rfl

theorem not_endsComment_breakCommentEnds (chars : List Char) :
    ¬ EndsComment (breakCommentEnds chars) := by
  fun_induction breakCommentEnds chars with
  | case1 => exact not_endsComment_nil
  | case2 rest ih =>
      simp [endsComment_cons_iff, ih]
  | case3 c rest hplain ih =>
      rw [endsComment_cons_iff, head?_breakCommentEnds]
      rintro (⟨rfl, hslash⟩ | hrest)
      · obtain ⟨others, rfl⟩ := List.head?_eq_some_iff.mp hslash
        exact hplain others rfl rfl
      · exact ih hrest

/-- Every occurrence of the pattern is replaced, and nothing else is. -/
def Replaces (pattern replacement before after : List Char) : Prop :=
  ∃ first others, before = pattern.intercalate (first :: others) ∧
    after = replacement.intercalate (first :: others) ∧
    ∀ part ∈ first :: others, ¬ pattern <:+: part

theorem intercalate_cons (separator first : List Char) (c : Char) (others : List (List Char)) :
    separator.intercalate ((c :: first) :: others) =
      c :: separator.intercalate (first :: others) := by
  cases others <;> simp [List.intercalate_cons_cons]

theorem replaces_breakCommentEnds (chars : List Char) :
    Replaces ['*', '/'] ['*', '\\', '/'] chars (breakCommentEnds chars) := by
  fun_induction breakCommentEnds chars with
  | case1 => exact ⟨[], [], rfl, rfl, by simp⟩
  | case2 rest ih =>
      obtain ⟨first, others, hbefore, hafter, hparts⟩ := ih
      refine ⟨[], first :: others, ?_, ?_, List.forall_mem_cons.mpr ⟨by simp, hparts⟩⟩
      · rw [List.intercalate_cons_cons, ← hbefore]
        rfl
      · rw [List.intercalate_cons_cons, ← hafter]
        rfl
  | case3 c rest hplain ih =>
      obtain ⟨first, others, hbefore, hafter, hparts⟩ := ih
      obtain ⟨hfirst, hothers⟩ := List.forall_mem_cons.mp hparts
      refine ⟨c :: first, others, ?_, ?_, List.forall_mem_cons.mpr ⟨?_, hothers⟩⟩
      · rw [intercalate_cons, ← hbefore]
      · rw [intercalate_cons, ← hafter]
      · intro hends
        rcases endsComment_cons_iff.mp hends with ⟨rfl, hslash⟩ | hends
        · obtain ⟨more, rfl⟩ := List.head?_eq_some_iff.mp hslash
          rw [intercalate_cons] at hbefore
          exact hplain _ rfl hbefore
        · exact hfirst hends

/-- The text with every broken comment end mended, read from the left. -/
def mendCommentEnds : List Char → List Char
  | [] => []
  | '*' :: '\\' :: '/' :: rest => '*' :: '/' :: mendCommentEnds rest
  | c :: rest => c :: mendCommentEnds rest

theorem mendCommentEnds_breakCommentEnds {chars : List Char}
    (hbroken : ¬ ['*', '\\', '/'] <:+: chars) :
    mendCommentEnds (breakCommentEnds chars) = chars := by
  fun_induction breakCommentEnds chars with
  | case1 => rfl
  | case2 rest ih =>
      rw [mendCommentEnds, ih]
      exact fun hrest => hbroken (List.infix_cons (List.infix_cons hrest))
  | case3 c rest hplain ih =>
      rw [mendCommentEnds, ih fun hrest => hbroken (List.infix_cons hrest)]
      intro others hc hrest
      -- A backslash that was not put in has a slash behind it, and the text had all three.
      obtain ⟨more, rfl⟩ : ∃ more, rest = '\\' :: more := by
        rw [← List.head?_eq_some_iff, ← head?_breakCommentEnds, hrest]
        rfl
      obtain ⟨last, rfl⟩ : ∃ last, more = '/' :: last := by
        rw [← List.head?_eq_some_iff, ← head?_breakCommentEnds]
        have hmore : breakCommentEnds more = '/' :: others := (List.cons.inj hrest).2
        rw [hmore]
        rfl
      subst hc
      exact hbroken ⟨[], last, rfl⟩

end Breaking

section Reading

/-- A comment behind its opening: its text, and what comes behind its end. -/
def readComment : List Char → Option (List Char × List Char)
  | [] => none
  | '*' :: '/' :: rest => some ([], rest)
  | c :: rest => inFront c (readComment rest)

/-- A block comment at the start of a text. -/
def readBlockComment? : List Char → Option (List Char × List Char)
  | '/' :: '*' :: rest => readComment rest
  | _ => none

variable {inner : List Char}

/-- A comment is read up to the end that was put behind it. -/
theorem readComment_append (hinner : ¬ EndsComment inner) (rest : List Char) :
    readComment (inner ++ '*' :: '/' :: rest) = some (inner, rest) := by
  induction inner with
  | nil => rfl
  | cons c inner ih =>
      rw [endsComment_cons_iff, not_or] at hinner
      rw [List.cons_append, readComment, ih hinner.2]
      · rfl
      · rintro others rfl hrest
        cases inner with
        | nil => simp at hrest
        | cons d inner =>
            obtain ⟨rfl, -⟩ := List.cons.inj hrest
            exact hinner.1 ⟨rfl, rfl⟩

/-- There is no other one if none follows. -/
theorem eq_of_append_commentEnd {last before after : List Char} (hinner : ¬ EndsComment inner)
    (hlast : ¬ EndsComment last)
    (heq : inner ++ '*' :: '/' :: last = before ++ '*' :: '/' :: after) :
    before = inner ∧ after = last := by
  rcases List.append_eq_append_iff.mp heq with ⟨middle, rfl, hends⟩ | ⟨middle, rfl, hends⟩
  · rcases middle with _ | ⟨c, _ | ⟨d, middle⟩⟩
    · simp_all
    · simp at hends
    · obtain ⟨rfl, rfl, rfl⟩ := by simpa using hends
      exact absurd ⟨middle, after, by simp⟩ hlast
  · rcases middle with _ | ⟨c, _ | ⟨d, middle⟩⟩
    · simp_all
    · simp at hends
    · obtain ⟨rfl, rfl, rfl⟩ := by simpa using hends
      exact absurd ⟨before, middle, by simp⟩ hinner

end Reading

section Lines

/-- A line of a description as it is shown. -/
def shownLine (line : List Char) : List Char :=
  if line = [] then [' ', '*'] else ' ' :: '*' :: ' ' :: breakCommentEnds line

theorem docLine_eq (line : List Char) : docLine line = shownLine line ++ ['\n'] := by
  unfold docLine shownLine
  split <;> rfl

theorem not_mem_breakCommentEnds {line : List Char} (hline : '\n' ∉ line) :
    '\n' ∉ breakCommentEnds line := by
  fun_induction breakCommentEnds line <;> simp_all

theorem not_mem_shownLine {line : List Char} (hline : '\n' ∉ line) : '\n' ∉ shownLine line := by
  unfold shownLine
  split
  · decide
  · simpa using not_mem_breakCommentEnds hline

theorem not_endsComment_docLine (line : List Char) : ¬ EndsComment (docLine line) := by
  unfold docLine
  split
  · simp [endsComment_cons_iff, not_endsComment_nil]
  · intro hends
    have hline : EndsComment (breakCommentEnds line ++ ['\n']) := by
      simpa [endsComment_cons_iff] using hends
    rcases endsComment_append hline (by simp) with hbroken | hbroken
    · exact not_endsComment_breakCommentEnds line hbroken
    · exact not_endsComment_singleton '\n' hbroken

theorem head?_docLine (line : List Char) : (docLine line).head? = some ' ' := by
  unfold docLine
  split <;> rfl

/-- Neither do the lines one after the other. -/
theorem not_endsComment_flatMap (lines : List (List Char)) :
    ¬ EndsComment (lines.flatMap docLine) := by
  induction lines with
  | nil => exact not_endsComment_nil
  | cons line rest ih =>
      have hhead : (rest.flatMap docLine).head? ≠ some '/' := by
        cases rest <;> simp [head?_docLine]
      rw [List.flatMap_cons]
      intro hends
      rcases endsComment_append hends hhead with hline | hrest
      · exact not_endsComment_docLine line hline
      · exact ih hrest

theorem splitOn_flatMap_docLine {lines : List (List Char)} (hlines : ∀ line ∈ lines, '\n' ∉ line)
    (rest : List Char) : Text.splitOn '\n' (lines.flatMap docLine ++ rest) =
      lines.map shownLine ++ Text.splitOn '\n' rest := by
  induction lines with
  | nil => rfl
  | cons line others ih =>
      obtain ⟨hline, hothers⟩ := List.forall_mem_cons.mp hlines
      rw [List.flatMap_cons, docLine_eq, List.append_assoc, List.append_assoc,
        List.singleton_append, Text.splitOn_append_separator,
        Text.splitOn_of_not_mem (not_mem_shownLine hline), ih hothers]
      rfl

end Lines

/-- A text is one block comment that shows these lines. -/
structure IsCommentOf (shown : List (List Char)) (comment : List Char) : Prop where
  /-- It opens as a comment for documentation. -/
  opens : ['/', '*', '*'] <+: comment
  /-- It has one end of a comment, behind a blank and in front of its last line feed. -/
  ends : ∃ body, comment = body ++ [' ', '*', '/', '\n'] ∧
    ∀ before after, comment = before ++ '*' :: '/' :: after →
      before = body ++ [' '] ∧ after = ['\n']
  /-- It is read as one comment, whatever follows. -/
  reads : ∃ inner, comment = '/' :: '*' :: (inner ++ ['*', '/', '\n']) ∧
    ∀ rest, readBlockComment? (comment ++ rest) = some (inner, '\n' :: rest)
  /-- Between its first and its last line it has the shown ones. -/
  lines_eq : Text.splitOn '\n' comment = ['/', '*', '*'] :: (shown ++ [[' ', '*', '/'], []])

theorem isCommentOf_docComment (text : String) :
    IsCommentOf ((Text.lines (Text.trimEnd text.toList)).map shownLine)
      (docComment text).toList := by
  have hlines : ∀ line ∈ Text.lines (Text.trimEnd text.toList), '\n' ∉ line :=
    fun line hline => Text.not_mem_of_mem_lines hline
  generalize hshown : Text.lines (Text.trimEnd text.toList) = lines at hlines ⊢
  have hcomment : (docComment text).toList =
      '/' :: '*' :: '*' :: '\n' :: (lines.flatMap docLine ++ [' ', '*', '/', '\n']) := by
    simp [docComment, hshown]
  have hblank : ¬ EndsComment (lines.flatMap docLine ++ [' ']) := by
    intro hends
    rcases endsComment_append hends (by simp) with hends | hends
    · exact not_endsComment_flatMap lines hends
    · exact not_endsComment_singleton ' ' hends
  rw [hcomment]
  refine ⟨⟨_, rfl⟩, ⟨'/' :: '*' :: '*' :: '\n' :: lines.flatMap docLine, rfl, ?_⟩,
    ⟨'*' :: '\n' :: (lines.flatMap docLine ++ [' ']), by simp, ?_⟩, ?_⟩
  · intro before after heq
    apply eq_of_append_commentEnd ?_ (not_endsComment_singleton '\n')
    · rw [← heq]
      simp
    · simp [endsComment_cons_iff, hblank]
  · intro rest
    have hinner : ¬ EndsComment ('*' :: '\n' :: (lines.flatMap docLine ++ [' '])) := by
      simp [endsComment_cons_iff, hblank]
    simpa [readBlockComment?] using readComment_append hinner ('\n' :: rest)
  · have hopening : Text.splitOn '\n' ('/' :: '*' :: '*' :: '\n' ::
        (lines.flatMap docLine ++ [' ', '*', '/', '\n'])) = ['/', '*', '*'] ::
          Text.splitOn '\n' (lines.flatMap docLine ++ [' ', '*', '/', '\n']) :=
      Text.splitOn_append_separator ['/', '*', '*'] _
    rw [hopening, splitOn_flatMap_docLine hlines]
    rfl

/-- Whatever a description is, its comment is one block comment, which shows the lines of the
trimmed text in order. Only their ends of comments are shown in another way, and a line that had
none of these already can be told from what is shown. -/
theorem docComment_shows_lines (text : String) :
    ∃ described blanks, text.toList = described ++ blanks ∧
      (∀ c ∈ blanks, Text.isBlank c = true) ∧
      (∀ c, described.getLast? = some c → Text.isBlank c = false) ∧
      Text.lines described = (if described = [] then []
        else (Text.splitOn '\n' described).map Text.dropReturn) ∧
      IsCommentOf ((Text.lines described).map shownLine) (docComment text).toList ∧
      ∀ line : List Char,
        Replaces ['*', '/'] ['*', '\\', '/'] line (breakCommentEnds line) ∧
        (¬ ['*', '\\', '/'] <:+: line → mendCommentEnds (breakCommentEnds line) = line) := by
  obtain ⟨blanks, htext, hblanks⟩ := Text.exists_trimEnd_append text.toList
  refine ⟨Text.trimEnd text.toList, blanks, htext, hblanks,
    fun c => Text.isBlank_of_getLast?_trimEnd, ?_, isCommentOf_docComment text,
    fun line => ⟨replaces_breakCommentEnds line, mendCommentEnds_breakCommentEnds⟩⟩
  split
  next hempty => rw [hempty, Text.lines]
  next hne => exact Text.lines_eq_map_dropReturn hne (Text.endsInLine_trimEnd text.toList)

example : docComment "Ends **/ here\r\n\r\n/ and not there \n" =
    "/**\n * Ends **\\/ here\n *\n * / and not there\n */\n" := rfl

end TrackingPlan.TypeScript
