import Mathlib.Data.List.Induction
import Mathlib.Data.List.Nodup

/-!
# First occurrences

A list without repetitions grows only at its end when more values are
mentioned, so the place of a value never changes again. Places are what a plan
hands out as ids.
-/

namespace TrackingPlan

variable {α : Type} [BEq α] [LawfulBEq α]

theorem eraseDups_concat_of_mem {values : List α} {value : α} (hmem : value ∈ values) :
    (values ++ [value]).eraseDups = values.eraseDups := by
  rw [List.eraseDups_append]
  simp [List.removeAll, hmem]

theorem eraseDups_concat_of_not_mem {values : List α} {value : α} (hmem : value ∉ values) :
    (values ++ [value]).eraseDups = values.eraseDups ++ [value] := by
  rw [List.eraseDups_append]
  simp [List.removeAll, hmem, List.eraseDups_cons]

theorem nodup_eraseDups (values : List α) : values.eraseDups.Nodup := by
  induction values using List.reverseRecOn with
  | nil => exact List.nodup_nil
  | append_singleton values value ih =>
      by_cases hmem : value ∈ values
      · rw [eraseDups_concat_of_mem hmem]
        exact ih
      · rw [eraseDups_concat_of_not_mem hmem]
        refine List.nodup_append.mpr ⟨ih, List.nodup_singleton value, ?_⟩
        intro old hold new hnew heq
        rw [List.mem_singleton.mp hnew] at heq
        exact hmem (heq ▸ List.mem_eraseDups.mp hold)

theorem eraseDups_of_nodup {values : List α} (hnodup : values.Nodup) :
    values.eraseDups = values := by
  induction values using List.reverseRecOn with
  | nil => rfl
  | append_singleton values value ih =>
      obtain ⟨hvalues, -, hdisjoint⟩ := List.nodup_append.mp hnodup
      have hmem : value ∉ values := fun hmem => hdisjoint value hmem value (by simp) rfl
      rw [eraseDups_concat_of_not_mem hmem, ih hvalues]

theorem eraseDups_eraseDups (values : List α) : values.eraseDups.eraseDups = values.eraseDups :=
  eraseDups_of_nodup (nodup_eraseDups values)

/-- What comes first matters only by its first occurrences. -/
theorem eraseDups_append_congr {first second : List α} (hsame : first.eraseDups = second.eraseDups)
    (after : List α) : (first ++ after).eraseDups = (second ++ after).eraseDups := by
  have hmem : ∀ value, value ∈ first ↔ value ∈ second := by
    intro value
    rw [← List.mem_eraseDups, hsame, List.mem_eraseDups]
  have hrest : after.removeAll first = after.removeAll second := by
    unfold List.removeAll
    apply List.filter_congr
    intro value _
    rw [Bool.eq_iff_iff]
    simp only [Bool.not_eq_true', List.elem_eq_mem, decide_eq_false_iff_not, hmem]
  rw [List.eraseDups_append, List.eraseDups_append, hsame, hrest]

theorem eraseDups_append_eraseDups (before values : List α) :
    (before ++ values.eraseDups).eraseDups = (before ++ values).eraseDups := by
  induction values using List.reverseRecOn with
  | nil => rfl
  | append_singleton values value ih =>
      rw [← List.append_assoc]
      by_cases hmem : value ∈ values
      · rw [eraseDups_concat_of_mem hmem,
          eraseDups_concat_of_mem (List.mem_append_right before hmem), ih]
      · rw [eraseDups_concat_of_not_mem hmem, ← List.append_assoc, eraseDups_append_congr ih]

/-- Repetitions in the parts of a list do not matter. -/
theorem eraseDups_flatMap {β : Type} (part : β → List α) (items : List β) :
    (items.flatMap fun item => (part item).eraseDups).eraseDups =
      (items.flatMap part).eraseDups := by
  induction items using List.reverseRecOn with
  | nil => rfl
  | append_singleton items item ih =>
      rw [List.flatMap_append, List.flatMap_append, List.flatMap_singleton,
        List.flatMap_singleton, eraseDups_append_eraseDups, eraseDups_append_congr ih]

/-- Values that were all mentioned before make no difference. -/
theorem eraseDups_append_of_subset {before after : List α}
    (hsubset : ∀ value ∈ after, value ∈ before) :
    (before ++ after).eraseDups = before.eraseDups := by
  have hnone : after.removeAll before = [] := by
    simpa [List.removeAll, List.filter_eq_nil_iff] using hsubset
  rw [List.eraseDups_append, hnone]
  exact List.append_nil _

theorem eraseDups_append_of_disjoint {before after : List α}
    (hdisjoint : ∀ value ∈ after, value ∉ before) :
    (before ++ after).eraseDups = before.eraseDups ++ after.eraseDups := by
  have hall : after.removeAll before = after := by
    simpa [List.removeAll, List.filter_eq_self] using hdisjoint
  rw [List.eraseDups_append, hall]

theorem eraseDups_map {β : Type} [BEq β] [LawfulBEq β] {f : α → β} (hf : f.Injective)
    (values : List α) : (values.map f).eraseDups = values.eraseDups.map f := by
  induction values using List.reverseRecOn with
  | nil => rfl
  | append_singleton values value ih =>
      rw [List.map_append, List.map_singleton]
      by_cases hmem : value ∈ values
      · rw [eraseDups_concat_of_mem hmem, eraseDups_concat_of_mem (List.mem_map_of_mem hmem), ih]
      · have hnew : f value ∉ values.map f := by rwa [List.mem_map_of_injective hf]
        rw [eraseDups_concat_of_not_mem hmem, eraseDups_concat_of_not_mem hnew, ih,
          List.map_append, List.map_singleton]

/-- The place of a value that was mentioned stays the same. -/
theorem idxOf_eraseDups_append {before after : List α} {value : α} (hmem : value ∈ before) :
    (before ++ after).eraseDups.idxOf value = before.eraseDups.idxOf value := by
  rw [List.eraseDups_append, List.idxOf_append, if_pos (List.mem_eraseDups.mpr hmem)]

/-- A value is at the place it has. -/
theorem idxOf_eq_iff_getElem?_eq {values : List α} (hnodup : values.Nodup) {value : α}
    (hmem : value ∈ values) {index : Nat} :
    values.idxOf value = index ↔ values[index]? = some value := by
  constructor
  · rintro rfl
    rw [List.getElem?_eq_getElem (List.idxOf_lt_length_of_mem hmem), List.getElem_idxOf]
  · intro hget
    obtain ⟨hlt, rfl⟩ := List.getElem?_eq_some_iff.mp hget
    exact hnodup.idxOf_getElem index hlt

end TrackingPlan
