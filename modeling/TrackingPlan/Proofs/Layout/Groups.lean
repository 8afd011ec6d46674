import TrackingPlan.Layout
import TrackingPlan.Proofs.FirstFault

/-!
# Groups of items

Every group of a plan belongs to one of three modules in the output directory
or to a module of a screen, and all its imports are those of a module that far
below the output directory. Merging groups does not change this.
-/

namespace TrackingPlan

open TypeScript

/-- The modules that are in the output directory itself. -/
def rootModules : List String := [sharedDefinitions, "tracks", "shared-traits"]

namespace ModuleGroup

/-- The group is in its place, and imports what can be imported from there. -/
structure LaidOut (options : LayoutOptions) (group : ModuleGroup) : Prop where
  path_eq : (∃ name ∈ rootModules, group.path = [name]) ∨ ∃ name, group.path = ["screens", name]
  imports_mem : ∀ entry, Item.imported entry ∈ group.items →
    Item.imported entry ∈ moduleImports options (group.path.length - 1)
  /-- Every module of a screen reaches the shared definitions. -/
  shared_mem : ∀ name, group.path = ["screens", name] → sharedImport 1 ∈ group.items

end ModuleGroup

variable {options : LayoutOptions}

theorem laidOut_of_root {name : String} (hname : name ∈ rootModules) {items : List Item}
    (himports : ∀ entry, .imported entry ∈ items → .imported entry ∈ moduleImports options 0) :
    (ModuleGroup.mk [name] items).LaidOut options :=
  ⟨.inl ⟨name, hname, rfl⟩, himports, fun other hpath => by cases hpath⟩

theorem laidOut_of_no_imports {name : String} (hname : name ∈ rootModules) {items : List Item}
    (hitems : ∀ entry, .imported entry ∉ items) : (ModuleGroup.mk [name] items).LaidOut options :=
  laidOut_of_root hname fun entry hentry => absurd hentry (hitems entry)

theorem laidOut_of_screen (name : String) {items : List Item}
    (hitems : ∀ entry, .imported entry ∉ items) :
    (ModuleGroup.mk ["screens", name] (moduleImports options 1 ++ items)).LaidOut options := by
  refine ⟨.inr ⟨name, rfl⟩, fun entry hentry => ?_, fun _ _ => List.mem_cons_self⟩
  rcases List.mem_append.mp hentry with hentry | hentry
  · exact hentry
  · exact absurd hentry (hitems entry)

theorem imported_not_mem_commentItems (entry : Import) (description : Option String) :
    Item.imported entry ∉ commentItems description := by
  cases description <;> simp [commentItems]

theorem imported_not_mem_namedType (entry : Import) (mappings : ImportMappings)
    (type : NamedType) : Item.imported entry ∉ type.toItems mappings := by
  obtain ⟨name, shape, description⟩ := type
  cases description <;> simp [NamedType.toItems]

theorem imported_not_mem_namesItems {name comment : String} {names : List String}
    {items : List Item} (hitems : namesItems name comment names = .ok items) (entry : Import) :
    Item.imported entry ∉ items := by
  obtain ⟨type, -, hitems⟩ := bind_eq_ok_iff.mp hitems
  obtain rfl := Except.ok.inj hitems
  simp

theorem imported_not_mem_track {functions : FunctionOptions} {plan : Plan} {track : Track}
    {items : List Item} (hitems : track.toItems functions plan = .ok items) (entry : Import) :
    Item.imported entry ∉ items := by
  obtain ⟨function, -, hitems⟩ := bind_eq_ok_iff.mp hitems
  obtain rfl := Except.ok.inj hitems
  simp [imported_not_mem_commentItems]

theorem imported_not_mem_screen {functions : FunctionOptions} {plan : Plan} {screen : Screen}
    {items : List Item} (hitems : screen.toItems functions plan = .ok items) (entry : Import) :
    Item.imported entry ∉ items := by
  obtain ⟨function, -, hitems⟩ := bind_eq_ok_iff.mp hitems
  obtain ⟨tracks, htracks, hitems⟩ := bind_eq_ok_iff.mp hitems
  obtain rfl := Except.ok.inj hitems
  have htrack : Item.imported entry ∉ tracks.flatten := by
    rw [List.mem_flatten]
    rintro ⟨items, hmem, hentry⟩
    obtain ⟨track, -, htrack⟩ := exists_of_mem_mapM htracks hmem
    exact imported_not_mem_track (inContext_eq_ok_iff.mp htrack) entry hentry
  simp [imported_not_mem_commentItems, htrack]

theorem laidOut_of_mem_toGroups {plan : Plan} {groups : List ModuleGroup}
    (hgroups : plan.toGroups options = .ok groups) {group : ModuleGroup}
    (hgroup : group ∈ groups) : group.LaidOut options := by
  obtain ⟨features, hfeatures, hgroups⟩ := bind_eq_ok_iff.mp hgroups
  obtain ⟨screenNames, hscreenNames, hgroups⟩ := bind_eq_ok_iff.mp hgroups
  obtain ⟨screens, hscreens, hgroups⟩ := bind_eq_ok_iff.mp hgroups
  obtain ⟨tracks, htracks, hgroups⟩ := bind_eq_ok_iff.mp hgroups
  obtain rfl := Except.ok.inj hgroups
  simp only [List.mem_append, List.mem_cons, List.not_mem_nil, or_false, List.mem_map] at hgroup
  rcases hgroup with
    (((((rfl | hscreen) | rfl | rfl) | htrack) | ⟨type, -, rfl⟩) | ⟨type, -, rfl⟩)
  · refine laidOut_of_no_imports (by decide) fun entry => ?_
    rw [List.mem_append, not_or]
    exact ⟨imported_not_mem_namesItems hfeatures entry,
      imported_not_mem_namesItems hscreenNames entry⟩
  · obtain ⟨screen, -, hscreen⟩ := exists_of_mem_mapM hscreens hscreen
    obtain ⟨items, hitems, hgroup⟩ := bind_eq_ok_iff.mp hscreen
    obtain rfl := Except.ok.inj hgroup
    exact laidOut_of_screen _ (imported_not_mem_screen hitems)
  · exact laidOut_of_root (by decide) fun entry hentry => hentry
  · refine laidOut_of_root (by decide) fun entry hentry => ?_
    exact List.mem_cons.mpr (.inl (List.mem_singleton.mp hentry))
  · obtain ⟨track, -, htrack⟩ := exists_of_mem_mapM htracks htrack
    obtain ⟨items, hitems, hgroup⟩ := bind_eq_ok_iff.mp htrack
    obtain rfl := Except.ok.inj hgroup
    exact laidOut_of_no_imports (by decide) (imported_not_mem_track hitems)
  · exact laidOut_of_no_imports (by decide) fun entry => imported_not_mem_namedType entry _ type
  · exact laidOut_of_no_imports (by decide) fun entry => imported_not_mem_namedType entry _ type

/-- Merging one group more keeps all groups in place. -/
theorem laidOut_addGroup {group : ModuleGroup} (hgroup : group.LaidOut options)
    {merged : List ModuleGroup} (hmerged : ∀ other ∈ merged, other.LaidOut options) :
    ∀ other ∈ addGroup group merged, other.LaidOut options := by
  induction merged with
  | nil => simpa [addGroup] using hgroup
  | cons first rest ih =>
      rw [List.forall_mem_cons] at hmerged
      obtain ⟨hfirst, hrest⟩ := hmerged
      unfold addGroup
      split
      next hpath =>
        rw [List.forall_mem_cons]
        refine ⟨⟨hfirst.path_eq, fun entry hentry => ?_, fun name hname =>
          List.mem_append_left _ (hfirst.shared_mem name hname)⟩, hrest⟩
        rcases List.mem_append.mp hentry with hentry | hentry
        · exact hfirst.imports_mem entry hentry
        · rw [hpath]
          exact hgroup.imports_mem entry hentry
      next => exact List.forall_mem_cons.mpr ⟨hfirst, ih hrest⟩

theorem laidOut_mergeGroups {groups : List ModuleGroup}
    (hgroups : ∀ group ∈ groups, group.LaidOut options) :
    ∀ group ∈ mergeGroups groups, group.LaidOut options := by
  have hmerged : ∀ merged : List ModuleGroup, (∀ group ∈ merged, group.LaidOut options) →
      ∀ group ∈ groups.foldl (fun merged group => addGroup group merged) merged,
        group.LaidOut options := by
    induction groups with
    | nil => exact fun merged hmerged => hmerged
    | cons first rest ih =>
        rw [List.forall_mem_cons] at hgroups
        exact fun merged hmerged => ih hgroups.2 _ (laidOut_addGroup hgroups.1 hmerged)
  exact hmerged [] (by simp)

end TrackingPlan
