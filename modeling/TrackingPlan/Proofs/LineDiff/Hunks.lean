import Mathlib.Data.List.Basic
import TrackingPlan.Proofs.LineDiff.Script

/-!
# What hunks show

Hunks are the changes of their edits with some kept lines left out, before, between
and after them. Whatever the edits of a script are and however they are grouped, if
only kept lines are left out, then the old and the new lines are the same left out lines
with either side of what is shown in between.
-/

namespace TrackingPlan.LineDiff

/-- Gaps with parts in between, as long as there are any. -/
def weave {α : Type} : List (List α) → List (List α) → List α
  | gap :: gaps, part :: parts => gap ++ part ++ weave gaps parts
  | gaps, [] => gaps.flatten
  | [], parts => parts.flatten

section Weave

variable {α β : Type}

theorem weave_cons_cons (gap part : List α) (gaps parts : List (List α)) :
    weave (gap :: gaps) (part :: parts) = gap ++ part ++ weave gaps parts := rfl

/-- Items in front belong to the first gap. -/
theorem append_weave (front gap : List α) (gaps parts : List (List α)) :
    front ++ weave (gap :: gaps) parts = weave ((front ++ gap) :: gaps) parts := by
  cases parts with
  | nil => simp [weave]
  | cons part parts => simp [weave]

theorem filterMap_weave (f : α → Option β) (gaps parts : List (List α)) :
    (weave gaps parts).filterMap f =
      weave (gaps.map (·.filterMap f)) (parts.map (·.filterMap f)) := by
  fun_induction weave gaps parts with
  | case1 gap gaps part parts ih =>
      rw [List.filterMap_append, List.filterMap_append, ih]
      rfl
  | case2 gaps =>
      rw [List.filterMap_flatten]
      cases gaps <;> simp [weave]
  | case3 parts hparts =>
      rw [List.filterMap_flatten]
      cases parts <;> simp_all [weave]

theorem map_weave (f : α → β) (gaps parts : List (List α)) :
    (weave gaps parts).map f = weave (gaps.map (·.map f)) (parts.map (·.map f)) := by
  have hmap : ∀ items : List α, items.filterMap (some ∘ f) = items.map f :=
    fun items => congrFun List.filterMap_eq_map items
  have hweave := filterMap_weave (some ∘ f) gaps parts
  simp only [hmap] at hweave
  exact hweave

end Weave

variable {old new : Array String} {context : Nat}

/-- Kept lines can be kept in two parts. -/
theorem changes_keep_add (o n first second : Nat) :
    Edit.changes old new (.keep o n (first + second)) =
      Edit.changes old new (.keep o n first) ++
        Edit.changes old new (.keep (o + first) (n + first) second) := by
  dsimp only [Edit.changes]
  rw [← List.map_append, extract_append_extract old (by omega) (by omega), Nat.add_assoc]

theorem exists_changes_keep (o n count : Nat) :
    ∃ gap : List String, Edit.changes old new (.keep o n count) = gap.map .kept :=
  ⟨_, rfl⟩

/-- What is cut off before the first change are kept lines. -/
theorem exists_changesOf_trimFirst (edits : List Edit) : ∃ gap : List String,
    changesOf old new edits = gap.map .kept ++ changesOf old new (trimFirst context edits) := by
  unfold trimFirst
  split
  next o n count rest =>
    obtain ⟨gap, hgap⟩ := @exists_changes_keep old new o n (count - context)
    have hcount : count = (count - context) + (count - (count - context)) := by omega
    refine ⟨gap, ?_⟩
    dsimp only
    rw [changesOf_cons, changesOf_cons, ← List.append_assoc, ← hgap, ← changes_keep_add, ← hcount]
  next => exact ⟨[], rfl⟩

/-- What is cut off after the last change are kept lines. -/
theorem exists_changesOf_trimLast (edits : List Edit) : ∃ gap : List String,
    changesOf old new edits = changesOf old new (trimLast context edits) ++ gap.map .kept := by
  fun_induction trimLast context edits with
  | case1 => exact ⟨[], rfl⟩
  | case2 o n count =>
      obtain ⟨gap, hgap⟩ := @exists_changes_keep old new (o + min count context)
        (n + min count context) (count - min count context)
      have hcount : count = min count context + (count - min count context) := by omega
      refine ⟨gap, ?_⟩
      rw [← hgap]
      simp only [changesOf, List.flatMap_singleton]
      rw [← changes_keep_add, ← hcount]
  | case3 edit rest hrest ih =>
      obtain ⟨gap, hgap⟩ := ih
      exact ⟨gap, by rw [changesOf_cons, changesOf_cons, hgap, List.append_assoc]⟩

/-- The lines of gaps are kept. -/
def keptGaps (gaps : List (List String)) : List (List Change) := gaps.map (·.map .kept)

/-- Of the changes, runs are shown, and kept lines before, between and behind them are not. -/
structure LeavesOut (changes : List Change) (gaps : List (List String))
    (runs : List (List Change)) : Prop where
  length_gaps : gaps.length = runs.length + 1
  changes_eq : changes = weave (keptGaps gaps) runs

theorem keptGaps_cons (gap : List String) (gaps : List (List String)) :
    keptGaps (gap :: gaps) = gap.map .kept :: keptGaps gaps := rfl

/-- Kept lines behind the last part belong to the last gap. -/
theorem exists_weave_append {gaps : List (List String)} {parts : List (List Change)}
    (hlength : gaps.length = parts.length + 1) (back : List String) :
    ∃ gaps' : List (List String), gaps'.length = parts.length + 1 ∧
      weave (keptGaps gaps) parts ++ back.map .kept = weave (keptGaps gaps') parts := by
  induction parts generalizing gaps with
  | nil =>
      obtain ⟨gap, rfl⟩ := List.length_eq_one_iff.mp hlength
      exact ⟨[gap ++ back], rfl, by simp [weave, keptGaps]⟩
  | cons part parts ih =>
      obtain ⟨gap, gaps, rfl⟩ := List.exists_cons_of_length_eq_add_one hlength
      obtain ⟨gaps', hlength', hweave⟩ := ih (Nat.succ.inj hlength)
      refine ⟨gap :: gaps', congrArg Nat.succ hlength', ?_⟩
      rw [keptGaps_cons, weave_cons_cons, List.append_assoc, hweave, keptGaps_cons, weave_cons_cons]

/-- From a hunk that has begun on, kept lines only are left out. -/
theorem exists_weave_hunksFrom (hunk edits : List Edit) : ∃ gap gaps,
    gaps.length = (hunksFrom context hunk edits).length ∧
      changesOf old new hunk ++ changesOf old new edits = weave (keptGaps (gap :: gaps))
        ((hunksFrom context hunk edits).map (changesOf old new)) := by
  have hmove : ∀ (hunk rest : List Edit) (edit : Edit),
      changesOf old new hunk ++ changesOf old new (edit :: rest) =
        changesOf old new (hunk ++ [edit]) ++ changesOf old new rest := by
    intro hunk rest edit
    rw [← changesOf_append, ← changesOf_append, List.append_assoc, List.singleton_append]
  fun_induction hunksFrom context hunk edits with
  | case1 => exact ⟨[], [], rfl, rfl⟩
  | case2 o n count =>
      obtain ⟨gap, hgap⟩ := @exists_changes_keep old new o n count
      refine ⟨gap, [], rfl, ?_⟩
      rw [changesOf_cons, hgap]
      simp [weave, keptGaps, changesOf]
  | case3 hunk hne hne' => exact ⟨[], [[]], rfl, by simp [weave, keptGaps, changesOf]⟩
  | case4 hunk o n count rest hlong skipped ih =>
      obtain ⟨gap, gaps, hlength, hrest⟩ := ih
      -- The kept lines end this hunk, are left out and start the next one.
      obtain ⟨middle, hmiddle⟩ :=
        @exists_changes_keep old new (o + context) (n + context) (skipped - context)
      have hkeep : Edit.changes old new (.keep o n count) =
          Edit.changes old new (.keep o n context) ++ middle.map .kept ++
            Edit.changes old new (.keep (o + skipped) (n + skipped) context) := by
        have hcount : count = context + (skipped - context) + context := by omega
        have hskipped : context + (skipped - context) = skipped := by omega
        rw [← hmiddle, ← changes_keep_add, hskipped, ← changes_keep_add, ← hskipped, ← hcount]
      refine ⟨[], (middle ++ gap) :: gaps, congrArg Nat.succ hlength, ?_⟩
      rw [List.map_cons, keptGaps_cons, keptGaps_cons, weave_cons_cons, List.map_append,
        ← append_weave, ← keptGaps_cons, ← hrest, changesOf_cons, hkeep, changesOf_append,
        changesOf_singleton, changesOf_singleton]
      simp only [List.map_nil, List.nil_append, List.append_assoc]
  | case5 hunk o n count rest hshort ih =>
      rw [hmove]
      exact ih
  | case6 hunk edit rest hkeep ih =>
      rw [hmove]
      exact ih

/-- Hunks leave out kept lines only. -/
theorem exists_leavesOut_hunks (context : Nat) (edits : List Edit) : ∃ gaps,
    LeavesOut (changesOf old new edits) gaps ((hunks context edits).map (changesOf old new)) := by
  obtain ⟨first, hfirst⟩ := @exists_changesOf_trimFirst old new context edits
  obtain ⟨last, hlast⟩ := @exists_changesOf_trimLast old new context (trimFirst context edits)
  obtain ⟨gap, gaps, hlength, hweave⟩ :=
    @exists_weave_hunksFrom old new context [] (trimLast context (trimFirst context edits))
  have hchanges : changesOf old new (trimLast context (trimFirst context edits)) =
      weave (keptGaps (gap :: gaps)) ((hunks context edits).map (changesOf old new)) := hweave
  obtain ⟨gaps', hlength', hback⟩ :=
    @exists_weave_append ((first ++ gap) :: gaps) ((hunks context edits).map (changesOf old new))
      (by rw [List.length_map]; exact congrArg Nat.succ hlength) last
  refine ⟨gaps', hlength', ?_⟩
  rw [← hback, keptGaps_cons, List.map_append, ← append_weave, ← keptGaps_cons, ← hchanges,
    List.append_assoc, ← hlast, ← hfirst]

theorem Comparison.edits_standard : Comparison.standard.edits = LineDiff.edits := rfl

theorem Comparison.groups_standard : Comparison.standard.groups = hunks := rfl

/-- What is taken for granted of a comparison: its edits are a script from the old lines to the
new ones, and its groups show the changes of the script without some kept lines. -/
structure Comparison.IsSound (comparison : Comparison) (context : Nat) (old new : Array String)
    (gaps : List (List String)) (runs : List (List Change)) : Prop where
  isScript : IsScript old new 0 0 (comparison.edits old new) old.size new.size
  leavesOut : LeavesOut (changesOf old new (comparison.edits old new)) gaps runs
  groups_eq : (comparison.groups context (comparison.edits old new)).flatMap (changesOf old new) =
    runs.flatten

def Change.isKept : Change → Bool
  | kept _ => true
  | dropped _ => false
  | added _ => false

/-- Runs of changes show the old lines but for what is left out between them, the new lines but
for the same, all changed lines in order and at least one. -/
structure Shows (old new : List String) (changes : List Change) (gaps : List (List String))
    (runs : List (List Change)) : Prop where
  length_gaps : gaps.length = runs.length + 1
  old_eq : old = weave gaps (runs.map (·.filterMap Change.old?))
  new_eq : new = weave gaps (runs.map (·.filterMap Change.new?))
  changed_eq : runs.flatten.filter (!·.isKept) = changes.filter (!·.isKept)
  exists_changed : ∃ change ∈ runs.flatten, change.isKept = false

section Shows

/-- A script between different lines does not only keep lines. -/
theorem IsScript.exists_changed {edits : List Edit}
    (hscript : IsScript old new 0 0 edits old.size new.size) (hne : old ≠ new) :
    ∃ change ∈ changesOf old new edits, change.isKept = false := by
  refine Classical.byContradiction fun hkept => hne ?_
  have hsame : ∀ change ∈ changesOf old new edits, change.old? = change.new? := by
    intro change hchange
    cases change with
    | kept line => rfl
    | dropped line => exact absurd ⟨_, hchange, rfl⟩ hkept
    | added line => exact absurd ⟨_, hchange, rfl⟩ hkept
  have hlines := List.filterMap_congr hsame
  rw [hscript.filterMap_old?, hscript.filterMap_new?] at hlines
  simpa using hlines

theorem filterMap_keptGaps {side : Change → Option String}
    (hside : ∀ line, side (.kept line) = some line) (gaps : List (List String)) :
    (keptGaps gaps).map (·.filterMap side) = gaps := by
  rw [keptGaps, List.map_map]
  exact List.map_id'' (filterMap_of_some hside) gaps

/-- Changes are left out nowhere. -/
theorem LeavesOut.filter_eq {changes : List Change} {gaps : List (List String)}
    {runs : List (List Change)} (hleaves : LeavesOut changes gaps runs) :
    runs.flatten.filter (!·.isKept) = changes.filter (!·.isKept) := by
  have hgap : ∀ gap : List String, (gap.map Change.kept).filter (!·.isKept) = [] := by
    intro gap
    simp [Change.isKept]
  obtain ⟨hlength, rfl⟩ := hleaves
  induction runs generalizing gaps with
  | nil =>
      obtain ⟨gap, rfl⟩ := List.length_eq_one_iff.mp hlength
      simp [weave, keptGaps, Change.isKept]
  | cons run runs ih =>
      obtain ⟨gap, gaps, rfl⟩ := List.exists_cons_of_length_eq_add_one hlength
      rw [keptGaps_cons, weave_cons_cons, List.filter_append, List.filter_append, hgap,
        ← ih (Nat.succ.inj hlength), List.flatten_cons, List.filter_append, List.nil_append]

/-- What is shown of a script between different lines shows both sides of it. -/
theorem IsScript.shows {edits : List Edit} {gaps : List (List String)} {runs : List (List Change)}
    (hscript : IsScript old new 0 0 edits old.size new.size) (hne : old ≠ new)
    (hleaves : LeavesOut (changesOf old new edits) gaps runs) :
    Shows old.toList new.toList (changesOf old new edits) gaps runs where
  length_gaps := hleaves.length_gaps
  old_eq := by
    have hold := hscript.filterMap_old?
    rw [hleaves.changes_eq, filterMap_weave, filterMap_keptGaps fun _ => rfl] at hold
    simpa using hold.symm
  new_eq := by
    have hnew := hscript.filterMap_new?
    rw [hleaves.changes_eq, filterMap_weave, filterMap_keptGaps fun _ => rfl] at hnew
    simpa using hnew.symm
  changed_eq := hleaves.filter_eq
  exists_changed := by
    obtain ⟨change, hchange, hchanged⟩ := hscript.exists_changed hne
    have hshown : change ∈ (changesOf old new edits).filter (!·.isKept) :=
      List.mem_filter.mpr ⟨hchange, by simp [hchanged]⟩
    rw [← hleaves.filter_eq] at hshown
    exact ⟨change, (List.mem_filter.mp hshown).1, hchanged⟩

end Shows

end TrackingPlan.LineDiff
