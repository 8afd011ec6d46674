import Mathlib.Data.List.DropRight
import TrackingPlan.Proofs.Path.Names

/-!
# Lines of a text

Where a text does not end in a line end, its lines are what stands between its
line feeds, less a carriage return at the end of each. A trimmed text is such a
text. A text of lines that each end in a line feed is cut into these lines.
-/

namespace TrackingPlan.Text

/-- The characters in front of a line feed without the carriage return that goes with it. -/
def dropReturn (part : List Char) : List Char :=
  if part.getLast? = some '\r' then part.dropLast else part

theorem dropReturn_cons {c : Char} {part : List Char} (hc : c ≠ '\r' ∨ part ≠ []) :
    dropReturn (c :: part) = c :: dropReturn part := by
  cases part with
  | nil =>
      have hreturn : c ≠ '\r' := hc.resolve_right (fun hne => hne rfl)
      simp [dropReturn, hreturn]
  | cons d rest =>
      simp only [dropReturn, List.getLast?_cons_cons]
      split <;> rfl

/-- The text does not end in a character of a line end. -/
def EndsInLine (chars : List Char) : Prop :=
  ∀ c, chars.getLast? = some c → c ≠ '\n' ∧ c ≠ '\r'

theorem EndsInLine.tail {c d : Char} {rest : List Char} (hlast : EndsInLine (c :: d :: rest)) :
    EndsInLine (d :: rest) := by
  intro last hend
  apply hlast
  rwa [List.getLast?_cons_cons]

theorem lines_eq_nil_iff {chars : List Char} : lines chars = [] ↔ chars = [] := by
  fun_cases lines chars <;> simp_all

theorem exists_splitOn_eq (separator : Char) (chars : List Char) :
    ∃ part parts, splitOn separator chars = part :: parts := by
  rw [splitOn_eq]
  exact List.exists_cons_of_ne_nil (List.splitOn_ne_nil separator chars)

theorem splitOn_cons {separator c : Char} (hc : c ≠ separator) {rest part : List Char}
    {others : List (List Char)} (hrest : splitOn separator rest = part :: others) :
    splitOn separator (c :: rest) = (c :: part) :: others := by
  rw [splitOn, if_neg hc, hrest]

/-- A part that starts with a character is not empty. -/
theorem splitOn_cons_ne {separator c : Char} (hc : c ≠ separator) (rest : List Char)
    (parts : List (List Char)) : splitOn separator (c :: rest) ≠ [] :: parts := by
  obtain ⟨part, others, hrest⟩ := exists_splitOn_eq separator rest
  rw [splitOn_cons hc hrest]
  simp

theorem lines_eq_map_dropReturn {chars : List Char} (hne : chars ≠ [])
    (hlast : EndsInLine chars) : lines chars = (splitOn '\n' chars).map dropReturn := by
  have hend : ∀ {c : Char}, EndsInLine [c] → c ≠ '\n' ∧ c ≠ '\r' := fun hlast => hlast _ rfl
  fun_induction lines chars with
  | case1 => exact absurd rfl hne
  | case2 rest ih =>
      cases rest with
      | nil => exact absurd rfl (hend hlast).1
      | cons d rest => rw [splitOn_separator_cons, ih (by simp) hlast.tail]; rfl
  | case3 rest ih =>
      cases rest with
      | nil => exact absurd rfl (hend hlast.tail).1
      | cons d rest =>
          have hsplit : splitOn '\n' ('\r' :: '\n' :: d :: rest) = ['\r'] :: splitOn '\n' (d :: rest) :=
            splitOn_append_separator ['\r'] (d :: rest)
          rw [hsplit, ih (by simp) hlast.tail.tail]
          rfl
  | case4 c rest hfeed hreturn hrest ih =>
      obtain rfl := lines_eq_nil_iff.mp hrest
      have hfree : '\n' ∉ [c] := by simpa using Ne.symm hfeed
      rw [splitOn_of_not_mem hfree, List.map_singleton, dropReturn_cons (.inl (hend hlast).2)]
      rfl
  | case5 c rest hfeed hreturn line others hrest ih =>
      cases rest with
      | nil => cases hrest
      | cons d rest =>
          obtain ⟨part, parts, hparts⟩ := exists_splitOn_eq '\n' (d :: rest)
          have hlines := ih (List.cons_ne_nil _ _) hlast.tail
          rw [hrest, hparts, List.map_cons] at hlines
          obtain ⟨rfl, rfl⟩ := List.cons.inj hlines
          -- A carriage return that no line feed follows has characters of its line behind it.
          have hkept : c ≠ '\r' ∨ part ≠ [] := by
            by_cases hd : d = '\n'
            · subst hd
              exact .inl fun hc => hreturn rest hc rfl
            · right
              rintro rfl
              exact absurd hparts (splitOn_cons_ne hd rest parts)
          rw [splitOn_cons hfeed hparts, List.map_cons, dropReturn_cons hkept]

theorem not_mem_of_mem_lines {chars line : List Char} (hline : line ∈ lines chars) :
    '\n' ∉ line := by
  fun_induction lines chars generalizing line with
  | case1 => cases hline
  | case2 rest ih =>
      rcases List.mem_cons.mp hline with rfl | hline
      · exact List.not_mem_nil
      · exact ih hline
  | case3 rest ih =>
      rcases List.mem_cons.mp hline with rfl | hline
      · exact List.not_mem_nil
      · exact ih hline
  | case4 c rest hfeed hreturn hrest ih =>
      rw [List.mem_singleton.mp hline]
      simpa using Ne.symm hfeed
  | case5 c rest hfeed hreturn first others hrest ih =>
      rw [hrest] at ih
      rcases List.mem_cons.mp hline with rfl | hline
      · have hfirst := ih List.mem_cons_self
        simpa [Ne.symm hfeed] using hfirst
      · exact ih (List.mem_cons_of_mem _ hline)

theorem trimEnd_eq_rdropWhile (chars : List Char) : trimEnd chars = chars.rdropWhile isBlank := rfl

/-- Only blanks are cut off. -/
theorem exists_trimEnd_append (chars : List Char) :
    ∃ blanks, chars = trimEnd chars ++ blanks ∧ ∀ c ∈ blanks, isBlank c = true := by
  refine ⟨chars.rtakeWhile isBlank, ?_, fun c hc => List.mem_rtakeWhile_imp hc⟩
  rw [trimEnd_eq_rdropWhile, List.rdropWhile_append_rtakeWhile]

/-- A trimmed text ends in no blank. -/
theorem isBlank_of_getLast?_trimEnd {chars : List Char} {c : Char}
    (hlast : (trimEnd chars).getLast? = some c) : isBlank c = false := by
  obtain ⟨hne, rfl⟩ := List.mem_getLast?_eq_getLast hlast
  exact eq_false_of_ne_true (List.rdropWhile_last_not isBlank chars hne)

theorem endsInLine_trimEnd (chars : List Char) : EndsInLine (trimEnd chars) := by
  intro c hlast
  have hblank := isBlank_of_getLast?_trimEnd hlast
  constructor
  · rintro rfl
    cases hblank
  · rintro rfl
    cases hblank

/-- A text of lines, each of which ends in a line feed. -/
def unlines (lines : List String) : String := String.join (lines.map (· ++ "\n"))

theorem unlines_cons (line : String) (lines : List String) :
    unlines (line :: lines) = line ++ "\n" ++ unlines lines := String.join_cons

theorem unlines_append (first second : List String) :
    unlines (first ++ second) = unlines first ++ unlines second := by
  rw [unlines, List.map_append, String.join_append]
  rfl

theorem splitOn_unlines {lines : List String} (hlines : ∀ line ∈ lines, '\n' ∉ line.toList) :
    splitOn '\n' (unlines lines).toList = lines.map String.toList ++ [[]] := by
  induction lines with
  | nil => rfl
  | cons line rest ih =>
      rw [List.forall_mem_cons] at hlines
      have htext : (unlines (line :: rest)).toList =
          line.toList ++ '\n' :: (unlines rest).toList := by
        rw [unlines_cons, String.toList_append, String.toList_append, List.append_assoc]
        rfl
      rw [htext, splitOn_append_separator, splitOn_of_not_mem hlines.1, ih hlines.2]
      rfl

end TrackingPlan.Text
