import TrackingPlan.Layout
import TrackingPlan.Proofs.FirstOccurrence

/-!
# Merging groups

Groups of items are merged by their paths: each path is one module, in the order
in which the paths came first, and has the items of all its groups in order.
-/

namespace TrackingPlan

open TypeScript

/-- The items of all groups for a path, in their order. -/
def itemsAt (groups : List ModuleGroup) (path : List String) : List Item :=
  (groups.filter (·.path == path)).flatMap (·.items)

/-- The module at a path has the item. -/
def HasItem (modules : List ModuleGroup) (path : List String) (item : Item) : Prop :=
  ∃ group ∈ modules, group.path = path ∧ item ∈ group.items

theorem addGroup_of_not_mem {group : ModuleGroup} {merged : List ModuleGroup}
    (hnew : group.path ∉ merged.map (·.path)) : addGroup group merged = merged ++ [group] := by
  induction merged with
  | nil => rfl
  | cons first rest ih =>
      rw [List.map_cons, List.mem_cons, not_or] at hnew
      rw [addGroup, if_neg (Ne.symm hnew.1), ih hnew.2, List.cons_append]

/-- A group for a path that came before adds its items to those there. -/
theorem addGroup_of_mem {group : ModuleGroup} {paths : List (List String)} (hnodup : paths.Nodup)
    (hmem : group.path ∈ paths) (contents : List String → List Item) :
    addGroup group (paths.map fun path => ⟨path, contents path⟩) =
      paths.map fun path =>
        ⟨path, contents path ++ if group.path = path then group.items else []⟩ := by
  induction paths with
  | nil => cases hmem
  | cons first rest ih =>
      obtain ⟨hfirst, hrest⟩ := List.nodup_cons.mp hnodup
      rw [List.map_cons, List.map_cons, addGroup]
      by_cases heq : first = group.path
      · rw [if_pos heq, if_pos heq.symm]
        congr 1
        apply List.map_congr_left
        intro path hpath
        have hne : group.path ≠ path := fun h => hfirst (heq.trans h ▸ hpath)
        rw [if_neg hne, List.append_nil]
      · rw [if_neg heq, if_neg (Ne.symm heq), List.append_nil,
          ih hrest ((List.mem_cons.mp hmem).resolve_left (Ne.symm heq))]

theorem mergeGroups_concat (groups : List ModuleGroup) (group : ModuleGroup) :
    mergeGroups (groups ++ [group]) = addGroup group (mergeGroups groups) := by
  unfold mergeGroups
  rw [List.foldl_append]
  rfl

theorem itemsAt_append (first second : List ModuleGroup) (path : List String) :
    itemsAt (first ++ second) path = itemsAt first path ++ itemsAt second path := by
  simp [itemsAt]

theorem itemsAt_singleton (group : ModuleGroup) (path : List String) :
    itemsAt [group] path = if group.path = path then group.items else [] := by
  by_cases heq : group.path = path <;> simp [itemsAt, heq]

theorem itemsAt_of_not_mem {groups : List ModuleGroup} {path : List String}
    (hnew : path ∉ groups.map (·.path)) : itemsAt groups path = [] := by
  have hnone : groups.filter (·.path == path) = [] := by
    rw [List.filter_eq_nil_iff]
    exact fun group hgroup heq => hnew (List.mem_map.mpr ⟨group, hgroup, eq_of_beq heq⟩)
  rw [itemsAt, hnone, List.flatMap_nil]

/-- One module for each path, with the items of all groups for it. -/
theorem mergeGroups_eq (groups : List ModuleGroup) :
    mergeGroups groups =
      (groups.map (·.path)).eraseDups.map fun path => ⟨path, itemsAt groups path⟩ := by
  induction groups using List.reverseRecOn with
  | nil => rfl
  | append_singleton groups group ih =>
      rw [mergeGroups_concat, ih, List.map_append, List.map_singleton]
      simp only [itemsAt_append, itemsAt_singleton]
      -- Either the module of the group is there and grows, or it is the last one and new.
      by_cases hmem : group.path ∈ groups.map (·.path)
      · rw [eraseDups_concat_of_mem hmem,
          addGroup_of_mem (nodup_eraseDups _) (List.mem_eraseDups.mpr hmem)]
      · have hnew : group.path ∉ ((groups.map (·.path)).eraseDups.map fun path =>
            ModuleGroup.mk path (itemsAt groups path)).map (·.path) := by
          rw [List.map_map]
          simpa [Function.comp_def] using hmem
        rw [eraseDups_concat_of_not_mem hmem, addGroup_of_not_mem hnew, List.map_append,
          List.map_singleton, if_pos rfl, itemsAt_of_not_mem hmem, List.nil_append]
        congr 1
        apply List.map_congr_left
        intro path hpath
        have hne : group.path ≠ path := fun heq => hmem (heq ▸ List.mem_eraseDups.mp hpath)
        rw [if_neg hne, List.append_nil]

/-- Modules stay as they are when they are merged again. -/
theorem mergeGroups_of_nodup {groups : List ModuleGroup}
    (hnodup : (groups.map (·.path)).Nodup) : mergeGroups groups = groups := by
  induction groups using List.reverseRecOn with
  | nil => rfl
  | append_singleton groups group ih =>
      rw [List.map_append, List.map_singleton] at hnodup
      obtain ⟨hgroups, -, hnew⟩ := List.nodup_append.mp hnodup
      rw [mergeGroups_concat, ih hgroups,
        addGroup_of_not_mem fun hmem => hnew group.path hmem group.path (by simp) rfl]

theorem nodup_paths_mergeGroups (groups : List ModuleGroup) :
    ((mergeGroups groups).map (·.path)).Nodup := by
  rw [mergeGroups_eq, List.map_map]
  simpa [Function.comp_def] using nodup_eraseDups (groups.map (·.path))

theorem hasItem_mergeGroups_iff {groups : List ModuleGroup} {path : List String} {item : Item} :
    HasItem (mergeGroups groups) path item ↔ item ∈ itemsAt groups path := by
  rw [mergeGroups_eq]
  constructor
  · rintro ⟨group, hgroup, rfl, hitem⟩
    obtain ⟨path, -, rfl⟩ := List.mem_map.mp hgroup
    exact hitem
  · intro hitem
    have hpath : path ∈ groups.map (·.path) := by
      refine not_not.mp fun hnew => ?_
      rw [itemsAt_of_not_mem hnew] at hitem
      cases hitem
    exact ⟨_, List.mem_map.mpr ⟨path, List.mem_eraseDups.mpr hpath, rfl⟩, rfl, hitem⟩

theorem itemsAt_map {γ : Type} (entries : List γ) (pathOf : γ → List String)
    (items : γ → List Item) (path : List String) :
    itemsAt (entries.map fun entry => ⟨pathOf entry, items entry⟩) path =
      (entries.filter fun entry => pathOf entry == path).flatMap items := by
  simp [itemsAt, List.filter_map, Function.comp_def, List.flatMap_map]

end TrackingPlan
