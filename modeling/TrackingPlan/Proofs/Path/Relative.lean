import TrackingPlan.Proofs.Path.Location

/-!
# Shortest ways

Every way from one location to another goes at least as far up as the names that
they share. The relative way goes no further, and only then down.
-/

namespace TrackingPlan

namespace Path

/-- How far up from a location the names are that it shares with another one. -/
def climb : List String → List String → Nat
  | first :: source, other :: target =>
    if first = other then climb source target else (first :: source).length
  | source, _ => source.length

@[simp] theorem climb_nil_left (target : List String) : climb [] target = 0 := by
  cases target <;> rfl

@[simp] theorem climb_nil_right (source : List String) : climb source [] = source.length := by
  cases source <;> rfl

@[simp] theorem climb_self (location : List String) : climb location location = 0 := by
  induction location with
  | nil => rfl
  | cons name rest ih => simp [climb, ih]

/-- With one name more, it is at most one step further up. -/
theorem climb_concat (source target : List String) (name : String) :
    climb source target ≤ climb (source ++ [name]) target ∧
      climb (source ++ [name]) target ≤ climb source target + 1 := by
  induction source generalizing target with
  | nil =>
      cases target with
      | nil => simp
      | cons other target => by_cases hname : name = other <;> simp [climb, hname]
  | cons first source ih =>
      cases target with
      | nil => simp
      | cons other target =>
          by_cases hfirst : first = other
          · simpa [climb, hfirst] using ih target
          · simp [climb, hfirst]

theorem climb_dropLast (source target : List String) :
    climb source target ≤ climb source.dropLast target + 1 := by
  rcases List.eq_nil_or_concat source with rfl | ⟨before, name, rfl⟩
  · simp
  · simpa using (climb_concat before target name).2

/-- A step leads no further than one name up. -/
theorem climb_step (source target : List String) (name : String) :
    climb source target ≤ climb (follow source [name]) target + [name].count ".." := by
  by_cases hname : name = ".."
  · subst hname
    rw [follow_upwards, List.count_singleton_self]
    exact climb_dropLast source target
  · rw [follow_singleton source hname]
    exact Nat.le_add_right_of_le (climb_concat source target name).1

/-- Whatever leads to a location climbs at least to what is shared with it. -/
theorem climb_follow (source names : List String) :
    climb source (follow source names) ≤ names.count ".." := by
  induction names generalizing source with
  | nil => simp [follow]
  | cons name rest ih =>
      have hrest : follow source (name :: rest) = follow (follow source [name]) rest :=
        follow_append source [name] rest
      calc climb source (follow source (name :: rest))
          ≤ climb (follow source [name]) (follow source (name :: rest)) + [name].count ".." :=
            climb_step source _ name
        _ ≤ rest.count ".." + [name].count ".." := by
            rw [hrest]
            exact Nat.add_le_add_right (ih _) _
        _ = (name :: rest).count ".." := by
            rw [Nat.add_comm, ← List.count_append, List.singleton_append]

theorem climb_le_length (source target : List String) : climb source target ≤ source.length := by
  fun_induction climb source target with
  | case1 first source target ih => exact Nat.le_succ_of_le ih
  | case2 => exact Nat.le_refl _
  | case3 => exact Nat.le_refl _

/-- The relative way climbs to what is shared, and takes the rest of the target from there. -/
theorem relative_eq (source target : List String) :
    relative source target =
      List.replicate (climb source target) ".." ++
        target.drop (source.length - climb source target) := by
  fun_induction relative source target with
  | case1 source first target ih =>
      have hclimb := climb_le_length source target
      have hshared : (first :: source).length - climb source target =
          source.length - climb source target + 1 := by
        rw [List.length_cons]
        omega
      rw [ih, climb, if_pos rfl, hshared, List.drop_succ_cons]
  | case2 first source other target hfirst =>
      simp [climb, hfirst, List.replicate_succ]
  | case3 source target hnone =>
      cases source with
      | nil => simp
      | cons first source =>
          cases target with
          | nil => simp [List.replicate_succ]
          | cons other target => exact absurd rfl (hnone first source other target rfl)

/-- A row of names that leads from one location to another: up first, no further than any
other row that leads there, and then down. -/
structure IsShortestWay (source target names : List String) : Prop where
  leads : follow source names = target
  up_first : ∃ up down, names = List.replicate up ".." ++ down ∧ ∀ name ∈ down, IsStepDown name
  climbs_least : ∀ others, follow source others = target →
    names.count ".." ≤ others.count ".."

theorem isShortestWay_relative (source : List String) {target : List String}
    (htarget : ∀ name ∈ target, IsStepDown name) :
    IsShortestWay source target (relative source target) := by
  have habove : ".." ∉ target := fun hmem => (htarget _ hmem).ne_above rfl
  have hdown : ".." ∉ target.drop (source.length - climb source target) :=
    fun hmem => habove (List.mem_of_mem_drop hmem)
  refine ⟨follow_relative source habove, ⟨_, _, relative_eq source target, ?_⟩, ?_⟩
  · intro name hname
    exact htarget name (List.mem_of_mem_drop hname)
  · rintro others rfl
    rw [relative_eq, List.count_append, List.count_replicate_self, List.count_eq_zero.mpr hdown]
    exact climb_follow source others

end Path

end TrackingPlan
