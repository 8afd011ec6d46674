import Mathlib.Data.List.Forall2
import TrackingPlan.GeneratedFile

/-!
# What has become of a generated file

A file that has to be written is new or modified, but not both. A modified file
has a difference, which says first what is compared, and no other file has one.
-/

namespace TrackingPlan.GeneratedFile

theorem isModified_iff {file : GeneratedFile} :
    file.isModified = true ↔ ∃ text, file.onDisk = some text ∧ text ≠ file.text := by
  unfold isModified
  cases file.onDisk with
  | none => simp
  | some text => simp

theorem isModified_of_isNew {file : GeneratedFile} (hnew : file.isNew = true) :
    file.isModified = false := by
  rw [isNew, Option.isNone_iff_eq_none] at hnew
  rw [isModified, hnew]

theorem isSome_diffBy? (comparison : LineDiff.Comparison) (colours : Bool) (file : GeneratedFile) :
    (file.diffBy? comparison colours).isSome = file.isModified := by
  unfold diffBy? isModified
  cases file.onDisk with
  | none => rfl
  | some text => by_cases hsame : text = file.text <;> simp [hsame]

theorem isSome_diff? (colours : Bool) (file : GeneratedFile) :
    (file.diff? colours).isSome = file.isModified :=
  isSome_diffBy? .standard colours file

theorem exists_eq_of_diff? {colours : Bool} {file : GeneratedFile} {diff : String}
    (hdiff : file.diff? colours = some diff) :
    ∃ body, diff = diffHeader colours file.path ++ body := by
  unfold diff? diffBy? at hdiff
  split at hdiff
  next => cases hdiff
  next =>
    split at hdiff
    next => cases hdiff
    next => exact ⟨_, (Option.some.inj hdiff).symm⟩

/-- The files that a run creates. -/
def created (files : List GeneratedFile) : List GeneratedFile := files.filter (·.isNew)

/-- The files that a run changes. -/
def modified (files : List GeneratedFile) : List GeneratedFile := files.filter (·.isModified)

theorem length_created (files : List GeneratedFile) :
    (created files).length = files.countP (·.isNew) :=
  List.countP_eq_length_filter.symm

theorem length_modified (files : List GeneratedFile) :
    (modified files).length = files.countP (·.isModified) :=
  List.countP_eq_length_filter.symm

/-- A file that has to be written is created or changed. -/
theorem countP_isStale (files : List GeneratedFile) :
    files.countP (·.isStale) = (created files).length + (modified files).length := by
  rw [length_created, length_modified]
  induction files with
  | nil => rfl
  | cons file rest ih =>
      rw [List.countP_cons, List.countP_cons, List.countP_cons, ih, isStale]
      cases hnew : file.isNew with
      | true =>
          simp only [isModified_of_isNew hnew, Bool.true_or, Bool.false_eq_true, if_true, if_false]
          omega
      | false =>
          simp only [Bool.false_or, Bool.false_eq_true, if_false]
          omega

theorem length_created_add_modified_le (files : List GeneratedFile) :
    (created files).length + (modified files).length ≤ files.length :=
  countP_isStale files ▸ List.countP_le_length

/-- The modified files have a difference each, in their order. -/
theorem forall₂_diff? (colours : Bool) (files : List GeneratedFile) :
    List.Forall₂ (fun file diff => file.diff? colours = some diff) (modified files)
      (files.filterMap (·.diff? colours)) := by
  induction files with
  | nil => exact .nil
  | cons file rest ih =>
      have hsome := isSome_diff? colours file
      cases hdiff : file.diff? colours with
      | none =>
          rw [hdiff] at hsome
          rwa [List.filterMap_cons_none hdiff, modified,
            List.filter_cons_of_neg (by simp [← hsome])]
      | some diff =>
          rw [hdiff] at hsome
          rw [List.filterMap_cons_some hdiff, modified, List.filter_cons_of_pos hsome.symm]
          exact .cons hdiff ih

end TrackingPlan.GeneratedFile
