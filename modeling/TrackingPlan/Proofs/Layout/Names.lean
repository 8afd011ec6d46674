import TrackingPlan.Proofs.Layout.Closed
import TrackingPlan.TypeScript.Quoted

/-!
# Names in generated modules

A module binds the exported names of tracks and the names of definitions and traits
as they stand in the document. Only spaces and `&` are taken out of the keys of tracks,
so all names are identifiers exactly when all else in the document is fit for one.
-/

namespace TrackingPlan

open TypeScript

/-- The names that an item binds in its module. -/
def TypeScript.Item.binds : Item → List String
  | .imported (.allAs qualifier _) => [qualifier]
  | .imported (.defaultAs name _) => [name]
  | .typeAlias name _ => [name]
  | .const name _ => [name]
  | .comment _ => []
  | .defaultExport _ => []

/-- A type in the item refers to another one by the name, of the same module or of an
imported one. -/
def TypeScript.Item.RefersBy (item : Item) (name : String) : Prop :=
  ∃ type, .type type ∈ item.uses ∧ ∃ path, type.at? path = some (.name name) ∨
    ∃ scope, type.at? path = some (.qualified scope name)

/-- Whatever modules bind is an identifier, and so is whatever they refer to a definition of
the document by. -/
structure BindsIdentifiers (definition : PlanDefinition) (modules : List ModuleGroup) : Prop where
  bound : ∀ path item, HasItem modules path item →
    ∀ name ∈ item.binds, isIdentifier name = true
  referred : ∀ path item, HasItem modules path item →
    ∀ name ∈ definition.definitions.keys, item.RefersBy name → isIdentifier name = true

section Keys

/-- Without its spaces, the key of a track is an identifier, where `&` counts as a letter. -/
def IsExportable (key : String) : Prop :=
  ∃ first rest, key.toList.filter (· != ' ') = first :: rest ∧
    (isIdentifierStart first = true ∨ first = '&') ∧
    ∀ c ∈ rest, isIdentifierPart c = true ∨ c = '&'

/-- What the exported name has for a character of the key. -/
theorem apply_exported_iff {p : Char → Bool} (hn : p 'n' = true) (c : Char) :
    p (if c = '&' then 'n' else c) = true ↔ p c = true ∨ c = '&' := by
  by_cases hc : c = '&'
  · simp [hc, hn]
  · simp [hc]

theorem isIdentifier_exportName_iff {key : String} :
    isIdentifier (exportName key) = true ↔ IsExportable key := by
  unfold isIdentifier exportName IsExportable
  rw [String.toList_ofList]
  cases key.toList.filter (· != ' ') with
  | nil => simp
  | cons first rest =>
      simp only [List.map_cons, Bool.and_eq_true, List.all_map, List.all_eq_true,
        Function.comp_apply, apply_exported_iff (p := isIdentifierStart) rfl,
        apply_exported_iff (p := isIdentifierPart) rfl, List.cons.injEq]
      constructor
      · rintro ⟨hfirst, hrest⟩
        exact ⟨first, rest, ⟨rfl, rfl⟩, hfirst, hrest⟩
      · rintro ⟨_, _, ⟨rfl, rfl⟩, hfirst, hrest⟩
        exact ⟨hfirst, hrest⟩

/-- The document has no key that a name of the code is made of and cannot be. -/
structure PlanDefinition.HasIdentifiers (definition : PlanDefinition) : Prop where
  tracks : ∀ key ∈ definition.tracks.keys, IsExportable key
  definitions : ∀ name ∈ definition.definitions.keys, isIdentifier name = true
  traits : ∀ name ∈ definition.traits.keys, isIdentifier name = true

end Keys

section Items

variable {options : LayoutOptions} {depth : Nat}

/-- The names of the imports of a module. -/
def LayoutOptions.importNames (options : LayoutOptions) : List String :=
  if options.implementation.isSome then [sharedAlias, "implementation"] else [sharedAlias]

theorem shared_mem_importNames (options : LayoutOptions) : sharedAlias ∈ options.importNames := by
  unfold LayoutOptions.importNames
  split <;> exact List.mem_cons_self

theorem isIdentifier_importNames (options : LayoutOptions) :
    ∀ name ∈ options.importNames, isIdentifier name = true := by
  unfold LayoutOptions.importNames
  split <;> decide

theorem flatMap_binds_moduleImports :
    (moduleImports options depth).flatMap Item.binds = options.importNames := by
  unfold moduleImports LayoutOptions.importNames
  cases options.implementation <;> rfl

theorem flatMap_binds_commentItems (description : Option String) :
    (commentItems description).flatMap Item.binds = [] := by
  cases description <;> rfl

theorem flatMap_binds_trackItems (functions : FunctionOptions) (event : Event)
    (names : SourceNames) :
    (event.trackItems functions names).flatMap Item.binds = [event.exportName] := by
  rw [Event.trackItems, List.flatMap_append, flatMap_binds_commentItems]
  rfl

theorem flatMap_binds_namedType (mappings : ImportMappings) (type : NamedType) :
    (type.toItems mappings).flatMap Item.binds = [type.name] := by
  have hcomment := flatMap_binds_commentItems type.description
  rw [commentItems] at hcomment
  rw [NamedType.toItems, List.flatMap_append, hcomment]
  rfl

end Items

namespace Plan

variable {formats : FormatRegistry} {definition : PlanDefinition} {plan : Plan}
  {options : LayoutOptions}

/-- All names that are bound by the groups of a plan. -/
theorem flatMap_binds_groups :
    ((plan.groups options).flatMap (·.items)).flatMap Item.binds =
      ["FeatureNames", "ScreenNames"] ++
      plan.screens.flatMap (fun screen =>
        options.importNames ++ screen.tracks.map (·.event.exportName)) ++
      (options.importNames ++ [sharedAlias]) ++ plan.tracks.map (·.event.exportName) ++
      plan.definitions.map (·.name) ++ plan.traits.map (·.name) := by
  have hscreen : ∀ screen : Screen,
      (screen.items (functionOptions options) plan).flatMap Item.binds =
        screen.tracks.map (·.event.exportName) := by
    intro screen
    rw [Screen.items, List.flatMap_append, flatMap_binds_commentItems, List.nil_append,
      List.flatMap_cons, List.flatMap_assoc]
    simp only [flatMap_binds_trackItems, ← List.map_eq_flatMap]
    rfl
  simp only [groups, List.flatMap_append, List.flatMap_map, List.flatMap_cons, List.flatMap_nil,
    List.flatMap_assoc, flatMap_binds_moduleImports, hscreen, flatMap_binds_trackItems,
    flatMap_binds_namedType, ← List.map_eq_flatMap, List.append_nil]
  rfl

/-- A name is bound in some module when it is bound by some group. -/
theorem exists_binds_iff {name : String} :
    (∃ path item, HasItem (mergeGroups (plan.groups options)) path item ∧ name ∈ item.binds) ↔
      name ∈ ((plan.groups options).flatMap (·.items)).flatMap Item.binds := by
  simp only [hasItem_mergeGroups_iff, itemsAt, List.mem_flatMap, List.mem_filter, beq_iff_eq]
  constructor
  · rintro ⟨path, item, ⟨group, ⟨hgroup, rfl⟩, hitem⟩, hname⟩
    exact ⟨item, ⟨group, hgroup, hitem⟩, hname⟩
  · rintro ⟨item, ⟨group, hgroup, hitem⟩, hname⟩
    exact ⟨group.path, item, ⟨group, ⟨hgroup, rfl⟩, hitem⟩, hname⟩

/-- All names that the modules of a plan bind, from the keys of the document. -/
theorem exists_binds_iff_of_ofDefinition (hplan : ofDefinition formats definition = .ok plan)
    {name : String} :
    (∃ path item, HasItem (mergeGroups (plan.groups options)) path item ∧ name ∈ item.binds) ↔
      name ∈ ["FeatureNames", "ScreenNames"] ∨ name ∈ options.importNames ∨
      (∃ key ∈ definition.tracks.keys, exportName key = name) ∨
      name ∈ definition.definitions.keys ∨ name ∈ definition.traits.keys := by
  obtain ⟨htracks, -, hdefinitions, htraits⟩ := keys_of_ofDefinition hplan
  have hcopies : ∀ screen ∈ plan.screens, ∀ copy ∈ screen.tracks,
      copy.event.key ∈ definition.tracks.keys := by
    intro screen hscreen copy hcopy
    obtain ⟨event, hevent, -⟩ := payload_of_copy hplan hscreen hcopy
    obtain ⟨before, after, hentries, -⟩ := List.lookup_eq_some_iff.mp hevent
    rw [Dict.keys, hentries]
    simp
  have htrack : name ∈ plan.tracks.map (·.event.exportName) ↔
      ∃ key ∈ definition.tracks.keys, exportName key = name := by
    rw [← htracks, ← List.mem_map, List.map_map]
    rfl
  rw [exists_binds_iff, flatMap_binds_groups, hdefinitions, htraits]
  simp only [List.mem_append, htrack, List.mem_flatMap]
  constructor
  · rintro (((((hname | ⟨screen, hscreen, hname | hname⟩) | hname | hname) | hname) | hname) | hname)
    · exact .inl hname
    · exact .inr (.inl hname)
    · obtain ⟨copy, hcopy, rfl⟩ := List.mem_map.mp hname
      exact .inr (.inr (.inl ⟨_, hcopies screen hscreen copy hcopy, rfl⟩))
    · exact .inr (.inl hname)
    · exact .inr (.inl (List.mem_singleton.mp hname ▸ shared_mem_importNames options))
    · exact .inr (.inr (.inl hname))
    · exact .inr (.inr (.inr (.inl hname)))
    · exact .inr (.inr (.inr (.inr hname)))
  · rintro (hname | hname | hname | hname | hname)
    · exact .inl (.inl (.inl (.inl (.inl hname))))
    · exact .inl (.inl (.inl (.inr (.inl hname))))
    · exact .inl (.inl (.inr hname))
    · exact .inl (.inr hname)
    · exact .inr hname

/-- The modules of every plan bind identifiers exactly when the keys of its document are fit for
them: nothing but spaces and `&` is escaped, and in the keys of tracks only. -/
theorem ofDefinition_bindsIdentifiers_iff (hplan : ofDefinition formats definition = .ok plan)
    (options : LayoutOptions) : ∃ groups, plan.toGroups options = .ok groups ∧
      (BindsIdentifiers definition (mergeGroups groups) ↔ definition.HasIdentifiers) := by
  refine ⟨_, plan.toGroups_eq options, ?_⟩
  have hbinds := fun name => @exists_binds_iff_of_ofDefinition _ _ _ options hplan name
  constructor
  · intro hidentifiers
    have hbound : ∀ name, (∃ path item, HasItem (mergeGroups (plan.groups options)) path item ∧
        name ∈ item.binds) → isIdentifier name = true := by
      rintro name ⟨path, item, hitem, hname⟩
      exact hidentifiers.bound path item hitem name hname
    exact {
      tracks := fun key hkey => isIdentifier_exportName_iff.mp
        (hbound _ ((hbinds _).mpr (.inr (.inr (.inl ⟨key, hkey, rfl⟩)))))
      definitions := fun name hname =>
        hbound name ((hbinds name).mpr (.inr (.inr (.inr (.inl hname)))))
      traits := fun name hname =>
        hbound name ((hbinds name).mpr (.inr (.inr (.inr (.inr hname))))) }
  · intro hidentifiers
    refine ⟨fun path item hitem name hname => ?_, fun _ _ _ name hname _ =>
      hidentifiers.definitions name hname⟩
    rcases (hbinds name).mp ⟨path, item, hitem, hname⟩ with hname | hname | ⟨key, hkey, rfl⟩ |
      hname | hname
    · exact (by decide : ∀ name ∈ ["FeatureNames", "ScreenNames"], isIdentifier name = true) name
        hname
    · exact isIdentifier_importNames options name hname
    · exact isIdentifier_exportName_iff.mpr (hidentifiers.tracks key hkey)
    · exact hidentifiers.definitions name hname
    · exact hidentifiers.traits name hname

/-- A document with a track, a definition and a trait of the definition. -/
def userOfCart (track definition trait : String) : PlanDefinition where
  tracks := ⟨[(track, none)], List.nodup_singleton _⟩
  screens := .empty
  definitions := ⟨[(definition, { Fragment.empty with
    keywords := { Keywords.none with type := some "string" } })], List.nodup_singleton _⟩
  traits := ⟨[(trait, { Fragment.empty with
    keywords := { Keywords.none with reference := some ("#/$defs/" ++ definition) } })],
    List.nodup_singleton _⟩

def userOfCartPlan (track definition trait : String) : Plan where
  features := []
  screens := []
  tracks := [⟨⟨.track, track, track, none, false, none, ⟨[], false⟩, []⟩, []⟩]
  definitions := [⟨definition, .string none, none⟩]
  traits := [⟨trait, .reference ⟨"#/$defs/" ++ definition⟩, none⟩]

/-- Keys of letters, spaces and `&` are fit for names. -/
theorem cart_bindsIdentifiers : ∃ plan groups,
    ofDefinition .standard (userOfCart "Search & Find" "UserId" "owner") = .ok plan ∧
    plan.toGroups ⟨none, true⟩ = .ok groups ∧
    BindsIdentifiers (userOfCart "Search & Find" "UserId" "owner") (mergeGroups groups) ∧
    ∃ item, HasItem (mergeGroups groups) ["tracks"] item ∧ item.binds = ["SearchnFind"] := by
  have hplan : ofDefinition .standard (userOfCart "Search & Find" "UserId" "owner") =
      .ok (userOfCartPlan "Search & Find" "UserId" "owner") := by cbv
  obtain ⟨groups, hgroups, hbinds⟩ := ofDefinition_bindsIdentifiers_iff hplan ⟨none, true⟩
  refine ⟨_, groups, hplan, hgroups, hbinds.mpr ⟨fun key hkey => ?_, by decide, by decide⟩, ?_⟩
  · obtain rfl := List.mem_singleton.mp hkey
    exact isIdentifier_exportName_iff.mp (by decide)
  · obtain rfl := Except.ok.inj ((toGroups_eq _ _).symm.trans hgroups)
    exact ⟨_, hasItem_track List.mem_cons_self (List.mem_append_right _ List.mem_cons_self), rfl⟩

/-- Keys with a hyphen are bound and referred to as they are. -/
theorem cart_bindsHyphens : ∃ plan groups,
    ofDefinition .standard (userOfCart "add-to-cart" "user-id" "owner-id") = .ok plan ∧
    plan.toGroups ⟨none, true⟩ = .ok groups ∧
    (∃ item, HasItem (mergeGroups groups) ["tracks"] item ∧ item.binds = ["add-to-cart"]) ∧
    (∃ type, HasItem (mergeGroups groups) ["shared-definitions"] (.typeAlias "user-id" type)) ∧
    HasItem (mergeGroups groups) ["shared-traits"]
      (.typeAlias "owner-id" (.qualified "shared" "user-id")) ∧
    ¬ BindsIdentifiers (userOfCart "add-to-cart" "user-id" "owner-id") (mergeGroups groups) := by
  have hplan : ofDefinition .standard (userOfCart "add-to-cart" "user-id" "owner-id") =
      .ok (userOfCartPlan "add-to-cart" "user-id" "owner-id") := by cbv
  refine ⟨_, _, hplan, toGroups_eq _ _, ?_⟩
  have htrack : ∃ item, HasItem (mergeGroups (groups ⟨none, true⟩
      (userOfCartPlan "add-to-cart" "user-id" "owner-id"))) ["tracks"] item ∧
      item.binds = ["add-to-cart"] :=
    ⟨_, hasItem_track List.mem_cons_self (List.mem_append_right _ List.mem_cons_self), rfl⟩
  refine ⟨htrack, ⟨.primitive .string, hasItem_shared_iff.mpr ?_⟩, hasItem_traits_iff.mpr ?_, ?_⟩
  · exact List.mem_append_right _ List.mem_cons_self
  · exact List.mem_cons_of_mem _ List.mem_cons_self
  · obtain ⟨item, hitem, hname⟩ := htrack
    intro hbinds
    have hidentifier := hbinds.bound _ item hitem "add-to-cart" (hname ▸ List.mem_cons_self)
    revert hidentifier
    decide

end Plan

end TrackingPlan
