import TrackingPlan.LineDiff.Hunk

/-!
# Edit scripts

Edits are a script from one sequence of lines to another when they cover both in
order, and keep only lines that are the same. The lines that a script keeps or drops
are the old ones, and those that it keeps or adds are the new ones.
-/

namespace TrackingPlan.LineDiff

section Lines

theorem flatten_splitLines (chars : List Char) : (splitLines chars).flatten = chars := by
  fun_induction splitLines chars with
  | case1 => rfl
  | case2 rest ih => rw [List.flatten_cons, ih]; rfl
  | case3 c rest hreturn hend ih => rw [List.flatten_cons, ih]; rfl
  | case4 c rest hreturn hend hrest ih =>
      rw [hrest] at ih
      rw [← ih]
      rfl
  | case5 c rest hreturn hend line others hrest ih =>
      rw [hrest] at ih
      rw [← ih]
      rfl

/-- A text is all its lines, one after the other. -/
theorem linesOf_injective : Function.Injective linesOf := by
  intro first second hlines
  have hsplit : splitLines first.toList = splitLines second.toList := by
    exact (List.map_inj_right fun _ _ => String.ofList_inj.mp).mp (Array.toList_inj.mpr hlines)
  have hchars := congrArg List.flatten hsplit
  rw [flatten_splitLines, flatten_splitLines] at hchars
  exact String.toList_inj.mp hchars

end Lines

variable {old new : Array String} {i j i' j' : Nat}

/-- Lines from two places on that are the same. -/
def SameLines (old new : Array String) (i j count : Nat) : Prop :=
  ∀ k < count, old[i + k]? = new[j + k]?

section SameLines

theorem SameLines.add {first second : Nat} (hfirst : SameLines old new i j first)
    (hsecond : SameLines old new (i + first) (j + first) second) :
    SameLines old new i j (first + second) := by
  intro k hk
  by_cases hkfirst : k < first
  · exact hfirst k hkfirst
  · have hline := hsecond (k - first) (by omega)
    rwa [Nat.add_assoc, Nat.add_assoc, Nat.add_sub_cancel' (Nat.not_lt.mp hkfirst)] at hline

theorem SameLines.mono {count fewer : Nat} (hsame : SameLines old new i j count)
    (hfewer : fewer ≤ count) : SameLines old new i j fewer :=
  fun k hk => hsame k (Nat.lt_of_lt_of_le hk hfewer)

theorem SameLines.skip {count skipped : Nat} (hsame : SameLines old new i j count)
    (hskipped : skipped ≤ count) :
    SameLines old new (i + skipped) (j + skipped) (count - skipped) := by
  intro k hk
  have hline := hsame (skipped + k) (by omega)
  rwa [← Nat.add_assoc, ← Nat.add_assoc] at hline

theorem commonStart_go_spec (fuel i j : Nat) :
    commonStart.go old new fuel i j ≤ fuel ∧
      SameLines old new i j (commonStart.go old new fuel i j) ∧
      (commonStart.go old new fuel i j < fuel →
        old[i + commonStart.go old new fuel i j]? ≠
          new[j + commonStart.go old new fuel i j]?) := by
  induction fuel generalizing i j with
  | zero => exact ⟨Nat.le_refl _, fun k hk => absurd hk (Nat.not_lt_zero k), nofun⟩
  | succ fuel ih =>
      obtain ⟨hle, hsame, hnext⟩ := ih (i + 1) (j + 1)
      rw [commonStart.go]
      split
      next heq =>
        have hfirst : SameLines old new i j 1 := by
          intro k hk
          obtain rfl := Nat.lt_one_iff.mp hk
          exact beq_iff_eq.mp heq
        refine ⟨Nat.succ_le_succ hle, Nat.add_comm 1 _ ▸ hfirst.add hsame, fun hlt => ?_⟩
        have hdiffer := hnext (Nat.lt_of_succ_lt_succ hlt)
        rwa [Nat.add_assoc, Nat.add_assoc, Nat.add_comm 1] at hdiffer
      next hne =>
        exact ⟨Nat.zero_le _, fun k hk => absurd hk (Nat.not_lt_zero k),
          fun _ heq => hne (beq_iff_eq.mpr heq)⟩

/-- As many lines are the same at the start, and the next ones differ where there are some. -/
theorem commonStart_spec (a b : Range) :
    commonStart old new a b ≤ a.size ∧ commonStart old new a b ≤ b.size ∧
      SameLines old new a.start b.start (commonStart old new a b) ∧
      (commonStart old new a b < a.size → commonStart old new a b < b.size →
        old[a.start + commonStart old new a b]? ≠ new[b.start + commonStart old new a b]?) := by
  obtain ⟨hle, hsame, hnext⟩ :=
    @commonStart_go_spec old new (min a.size b.size) a.start b.start
  rw [← commonStart] at hle hsame hnext
  exact ⟨by omega, by omega, hsame, fun ha hb => hnext (by omega)⟩

theorem commonEnd_go_spec {fuel i j : Nat} (hi : fuel ≤ i) (hj : fuel ≤ j) :
    commonEnd.go old new fuel i j ≤ fuel ∧
      SameLines old new (i - commonEnd.go old new fuel i j) (j - commonEnd.go old new fuel i j)
        (commonEnd.go old new fuel i j) ∧
      (commonEnd.go old new fuel i j < fuel →
        old[i - commonEnd.go old new fuel i j - 1]? ≠
          new[j - commonEnd.go old new fuel i j - 1]?) := by
  induction fuel generalizing i j with
  | zero => exact ⟨Nat.le_refl _, fun k hk => absurd hk (Nat.not_lt_zero k), nofun⟩
  | succ fuel ih =>
      obtain ⟨hle, hsame, hnext⟩ := @ih (i - 1) (j - 1) (by omega) (by omega)
      rw [commonEnd.go]
      split
      next heq =>
        generalize commonEnd.go old new fuel (i - 1) (j - 1) = count at *
        have hlast : SameLines old new (i - 1 - count + count) (j - 1 - count + count) 1 := by
          intro k hk
          obtain rfl := Nat.lt_one_iff.mp hk
          rw [Nat.sub_add_cancel (by omega), Nat.sub_add_cancel (by omega)]
          exact beq_iff_eq.mp heq
        have hsub : ∀ place : Nat, place - (count + 1) = place - 1 - count := by omega
        rw [hsub, hsub]
        refine ⟨Nat.succ_le_succ hle, hsame.add hlast, fun hlt => ?_⟩
        exact hnext (Nat.lt_of_succ_lt_succ hlt)
      next hne =>
        exact ⟨Nat.zero_le _, fun k hk => absurd hk (Nat.not_lt_zero k),
          fun _ heq => hne (beq_iff_eq.mpr heq)⟩

/-- As many lines are the same at the end, and those before them differ where there are some. -/
theorem commonEnd_spec (a b : Range) :
    commonEnd old new a b ≤ a.size ∧ commonEnd old new a b ≤ b.size ∧
      SameLines old new (a.stop - commonEnd old new a b) (b.stop - commonEnd old new a b)
        (commonEnd old new a b) ∧
      (commonEnd old new a b < a.size → commonEnd old new a b < b.size →
        old[a.stop - commonEnd old new a b - 1]? ≠ new[b.stop - commonEnd old new a b - 1]?) := by
  have hbounds : min a.size b.size ≤ a.stop ∧ min a.size b.size ≤ b.stop := by
    simp only [Range.size]
    omega
  obtain ⟨hle, hsame, hnext⟩ := @commonEnd_go_spec old new _ _ _ hbounds.1 hbounds.2
  rw [← commonEnd] at hle hsame hnext
  exact ⟨by omega, by omega, hsame, fun ha hb => hnext (by omega)⟩

theorem commonStart_eq_zero {a b : Range} (hne : old[a.start]? ≠ new[b.start]?) :
    commonStart old new a b = 0 := by
  obtain ⟨-, -, hsame, -⟩ := @commonStart_spec old new a b
  refine Nat.eq_zero_of_not_pos fun hpos => hne ?_
  exact hsame 0 hpos

theorem commonEnd_eq_zero {a b : Range} (hne : old[a.stop - 1]? ≠ new[b.stop - 1]?) :
    commonEnd old new a b = 0 := by
  obtain ⟨hle, hle', hsame, -⟩ := @commonEnd_spec old new a b
  refine Nat.eq_zero_of_not_pos fun hpos => hne ?_
  have hlast := hsame (commonEnd old new a b - 1) (by omega)
  simp only [Range.size] at hle hle'
  have hplace : ∀ stop, commonEnd old new a b ≤ stop →
      stop - commonEnd old new a b + (commonEnd old new a b - 1) = stop - 1 := by omega
  rwa [hplace _ (by omega), hplace _ (by omega)] at hlast

end SameLines

/-- The edits lead from one place in both sequences to another one. -/
inductive IsScript (old new : Array String) : Nat → Nat → List Edit → Nat → Nat → Prop where
  | nil (i j : Nat) : IsScript old new i j [] i j
  | keep {i j count i' j' : Nat} {rest : List Edit} (hsame : SameLines old new i j count)
      (hrest : IsScript old new (i + count) (j + count) rest i' j') :
      IsScript old new i j (.keep i j count :: rest) i' j'
  | drop {i j count i' j' : Nat} {rest : List Edit}
      (hrest : IsScript old new (i + count) j rest i' j') :
      IsScript old new i j (.drop i count :: rest) i' j'
  | add {i j count i' j' : Nat} {rest : List Edit}
      (hrest : IsScript old new i (j + count) rest i' j') :
      IsScript old new i j (.add j count :: rest) i' j'

namespace IsScript

variable {edits more : List Edit}

theorem append {m n : Nat} (hedits : IsScript old new i j edits m n)
    (hmore : IsScript old new m n more i' j') : IsScript old new i j (edits ++ more) i' j' := by
  induction hedits with
  | nil => exact hmore
  | keep hsame _ ih => exact .keep hsame (ih hmore)
  | drop _ ih => exact .drop (ih hmore)
  | add _ ih => exact .add (ih hmore)

theorem exists_of_append (hscript : IsScript old new i j (edits ++ more) i' j') :
    ∃ m n, IsScript old new i j edits m n ∧ IsScript old new m n more i' j' := by
  induction edits generalizing i j with
  | nil => exact ⟨i, j, .nil i j, hscript⟩
  | cons edit rest ih =>
      cases hscript with
      | keep hsame hrest =>
          obtain ⟨m, n, hfirst, hsecond⟩ := ih hrest
          exact ⟨m, n, .keep hsame hfirst, hsecond⟩
      | drop hrest =>
          obtain ⟨m, n, hfirst, hsecond⟩ := ih hrest
          exact ⟨m, n, .drop hfirst, hsecond⟩
      | add hrest =>
          obtain ⟨m, n, hfirst, hsecond⟩ := ih hrest
          exact ⟨m, n, .add hfirst, hsecond⟩

/-- Scripts go forward in both sequences. -/
theorem le (hscript : IsScript old new i j edits i' j') : i ≤ i' ∧ j ≤ j' := by
  induction hscript with
  | nil => exact ⟨Nat.le_refl _, Nat.le_refl _⟩
  | keep _ _ ih | drop _ ih | add _ ih => omega

end IsScript

section Changes

/-- The line of a change in the old sequence. -/
def Change.old? : Change → Option String
  | kept line => some line
  | dropped line => some line
  | added _ => none

/-- The line of a change in the new sequence. -/
def Change.new? : Change → Option String
  | kept line => some line
  | dropped _ => none
  | added line => some line

theorem filterMap_of_some {change : String → Change} {side : Change → Option String}
    (hside : ∀ line, side (change line) = some line) (lines : List String) :
    (lines.map change).filterMap side = lines := by
  rw [List.filterMap_map, show side ∘ change = some from funext hside, List.filterMap_some]

theorem filterMap_of_none {change : String → Change} {side : Change → Option String}
    (hside : ∀ line, side (change line) = none) (lines : List String) :
    (lines.map change).filterMap side = [] := by
  rw [List.filterMap_map, List.filterMap_eq_nil_iff]
  exact fun line _ => hside line

/-- All changes of edits, line by line. -/
def changesOf (old new : Array String) (edits : List Edit) : List Change :=
  edits.flatMap (·.changes old new)

theorem changesOf_cons (edit : Edit) (rest : List Edit) :
    changesOf old new (edit :: rest) = edit.changes old new ++ changesOf old new rest :=
  List.flatMap_cons

theorem changesOf_singleton (edit : Edit) : changesOf old new [edit] = edit.changes old new :=
  List.flatMap_singleton _ _

theorem changesOf_append (edits more : List Edit) :
    changesOf old new (edits ++ more) = changesOf old new edits ++ changesOf old new more :=
  List.flatMap_append

/-- Lines up to a place and from there on. -/
theorem extract_append_extract (lines : Array String) {start middle stop : Nat}
    (hstart : start ≤ middle) (hstop : middle ≤ stop) :
    (lines.extract start middle).toList ++ (lines.extract middle stop).toList =
      (lines.extract start stop).toList := by
  rw [← Array.toList_append, Array.extract_append_extract, Nat.min_eq_left hstart,
    Nat.max_eq_right hstop]

theorem SameLines.extract_eq {count : Nat} (hsame : SameLines old new i j count) :
    (old.extract i (i + count)).toList = (new.extract j (j + count)).toList := by
  refine List.ext_getElem? fun k => ?_
  rw [Array.getElem?_toList, Array.getElem?_toList, Array.getElem?_extract, Array.getElem?_extract]
  by_cases hk : k < count
  · have hline := hsame k hk
    by_cases hold : i + k < old.size
    · have hnew : j + k < new.size := by
        rw [Array.getElem?_eq_getElem hold] at hline
        exact (Array.getElem?_eq_some_iff.mp hline.symm).1
      rw [if_pos (by omega), if_pos (by omega), hline]
    · have hnew : ¬ j + k < new.size := by
        rw [Array.getElem?_eq_none (by omega)] at hline
        exact Nat.not_lt.mpr (Array.getElem?_eq_none_iff.mp hline.symm)
      rw [if_neg (by omega), if_neg (by omega)]
  · rw [if_neg (by omega), if_neg (by omega)]

/-- The lines that a script keeps or drops are the old ones on its way. -/
theorem IsScript.filterMap_old? {edits : List Edit} (hscript : IsScript old new i j edits i' j') :
    (changesOf old new edits).filterMap Change.old? = (old.extract i i').toList := by
  induction hscript with
  | nil i j => simp [changesOf]
  | @keep i j count i' j' rest hsame hrest ih =>
      rw [changesOf_cons, List.filterMap_append, ih, Edit.changes,
        filterMap_of_some fun _ => rfl,
        extract_append_extract old (Nat.le_add_right i count) hrest.le.1]
  | @drop i j count i' j' rest hrest ih =>
      rw [changesOf_cons, List.filterMap_append, ih, Edit.changes,
        filterMap_of_some fun _ => rfl,
        extract_append_extract old (Nat.le_add_right i count) hrest.le.1]
  | add hrest ih =>
      rw [changesOf_cons, List.filterMap_append, ih, Edit.changes,
        filterMap_of_none fun _ => rfl, List.nil_append]

/-- The lines that a script keeps or adds are the new ones on its way. -/
theorem IsScript.filterMap_new? {edits : List Edit} (hscript : IsScript old new i j edits i' j') :
    (changesOf old new edits).filterMap Change.new? = (new.extract j j').toList := by
  induction hscript with
  | nil i j => simp [changesOf]
  | @keep i j count i' j' rest hsame hrest ih =>
      rw [changesOf_cons, List.filterMap_append, ih, Edit.changes,
        filterMap_of_some fun _ => rfl,
        hsame.extract_eq, extract_append_extract new (Nat.le_add_right j count) hrest.le.2]
  | drop hrest ih =>
      rw [changesOf_cons, List.filterMap_append, ih, Edit.changes,
        filterMap_of_none fun _ => rfl, List.nil_append]
  | @add i j count i' j' rest hrest ih =>
      rw [changesOf_cons, List.filterMap_append, ih, Edit.changes,
        filterMap_of_some fun _ => rfl,
        extract_append_extract new (Nat.le_add_right j count) hrest.le.2]

end Changes

end TrackingPlan.LineDiff
