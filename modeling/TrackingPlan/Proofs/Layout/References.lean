import TrackingPlan.Proofs.Layout.Modules

/-!
# References in generated code

What a document refers to as `#/$defs/<name>` is `shared.<name>` in the code of
events and traits, and `<name>` in the module that declares it. So are the types
of all the names, which the source of an event refers to where the plan knows no
name for it.
-/

namespace TrackingPlan

open TypeScript

/-- The part of the type of a parameter at a position. -/
def TypeScript.Arrow.typeAt? (function : Arrow) (parameter : String) (path : List Step) :
    Option Ty :=
  (function.parameters.find? (·.name == parameter)).bind fun parameter =>
    parameter.type.bind fun type => type.at? path

/-- A function reaches definitions through their module, wherever the payload refers to
one in the document, and all names of a plan, wherever the source does. -/
structure TypeScript.Arrow.RefersToShared (payload : Fragment) (names : SourceNames)
    (function : Arrow) : Prop where
  props : ∀ name path, '/' ∉ name.toList → payload.RefersAt (definitionPath name) path →
    function.typeAt? "props" path = some (.qualified sharedAlias name)
  source : ∀ record path reference, names.toObject = .ok record →
    (Shape.object record).at? path = some (.reference reference) →
    ∃ name ∈ ["FeatureNames", "ScreenNames"], reference.path = definitionPath name ∧
      function.typeAt? "source" path = some (.qualified sharedAlias name)

/-- A type has a reference by its rendering at every position where the fragment refers to it. -/
theorem Shape.at?_toType_of_refersAt {formats : FormatRegistry} {fragment : Fragment}
    {shape : Shape} (hshape : ofFragment formats fragment = .ok shape) (mappings : ImportMappings)
    {target : String} {path : List Step} (hrefers : fragment.RefersAt target path) :
    (shape.toType mappings).at? path = some (Reference.toType mappings ⟨target⟩) := by
  rw [at?_toType, at?_of_refersAt hrefers hshape, Option.map_some, toType]

theorem SourceNames.at?_object_reference {names : SourceNames} {path : List Step}
    {reference : Reference}
    (hat : (Shape.object names.object).at? path = some (.reference reference)) :
    ∃ name ∈ ["FeatureNames", "ScreenNames"], reference = ⟨definitionPath name⟩ := by
  have hnarrowed : ∀ {all : Reference} {names : List String} {rest : List Step},
      (narrowedShape all names).at? rest = some (.reference reference) → reference = all := by
    intro all names rest hat
    rcases at?_narrowedShape hat with ⟨-, hpart⟩ | ⟨name, -, hpart⟩
    · rcases names with _ | ⟨first, _ | ⟨second, others⟩⟩
      · exact Shape.reference.inj hpart
      · cases hpart
      · cases hpart
    · cases hpart
  rcases at?_object hat with ⟨-, hpart⟩ | ⟨rest, -, hfeature⟩ | ⟨rest, -, hscreen⟩ | hpart
  · cases hpart
  · exact ⟨"FeatureNames", by decide, hnarrowed hfeature⟩
  · exact ⟨"ScreenNames", by decide, hnarrowed hscreen⟩
  · cases hpart

theorem Event.typeAt?_source (options : FunctionOptions) (event : Event) (names : SourceNames)
    (path : List Step) : (event.function options names).typeAt? "source" path =
      ((Shape.object names.object).at? path).map (Shape.toType options.mappings) := by
  have hsource : (event.function options names).parameters.find? (·.name == "source") =
      some ⟨"source", some (names.object.toType options.mappings), true⟩ := by
    unfold function payloadParameter
    split <;> rfl
  rw [Arrow.typeAt?, hsource, ← Shape.at?_toType, Shape.toType_object]
  rfl

/-- The declared type of the source of an event. -/
theorem Event.typeAt?_source_nil (options : FunctionOptions) (event : Event) (names : SourceNames) :
    (event.function options names).typeAt? "source" [] =
      some (names.object.toType options.mappings) := by
  rw [event.typeAt?_source, Shape.at?, Option.map_some, Shape.toType_object]

/-- An event without properties has nothing at the positions of properties. -/
theorem Event.typeAt?_props (options : FunctionOptions) (event : Event) (names : SourceNames)
    {path : List Step} {reference : Reference}
    (hat : (Shape.object event.payload).at? path = some (.reference reference)) :
    (event.function options names).typeAt? "props" path =
      some (reference.toType options.mappings) := by
  have hproperties : event.payload.properties.isEmpty = false := by
    rw [List.isEmpty_eq_false_iff]
    intro hnone
    rcases path with _ | ⟨_ | _ | index, path⟩ <;> simp [Shape.at?, hnone] at hat
  have hprops : (event.function options names).parameters.find? (·.name == "props") =
      some ⟨"props", some (event.payload.toType options.mappings), false⟩ := by
    unfold function payloadParameter
    rw [hproperties]
    rfl
  have htype := Shape.at?_toType options.mappings (.object event.payload) path
  rw [hat, Option.map_some, Shape.toType_object, Shape.toType] at htype
  rw [Arrow.typeAt?, hprops]
  exact htype

theorem Event.function_refersToShared {formats : FormatRegistry} {definition : EventDefinition}
    {event : Event} (hpayload : Record.ofFragment formats definition.payload = .ok event.payload)
    {options : FunctionOptions} (hmappings : options.mappings = .shared) (names : SourceNames) :
    (event.function options names).RefersToShared definition.payload names where
  props := by
    intro name path hname hrefers
    have hshape : Shape.ofFragment formats definition.payload = .ok (.object event.payload) :=
      Shape.ofFragment_of_record rfl rfl hpayload
    rw [event.typeAt?_props options names (Shape.at?_of_refersAt hrefers hshape), hmappings,
      Reference.toType_shared hname]
  source := by
    intro record path reference hrecord hat
    obtain rfl := Except.ok.inj (names.toObject_eq.symm.trans hrecord)
    rw [event.typeAt?_source, hat, Option.map_some, Shape.toType, hmappings]
    obtain ⟨name, hmem, rfl⟩ := SourceNames.at?_object_reference hat
    have hname : ∀ name ∈ ["FeatureNames", "ScreenNames"], '/' ∉ name.toList := by decide
    exact ⟨name, hmem, rfl, congrArg some (Reference.toType_shared (hname name hmem))⟩

namespace Plan

section Modules

variable {options : LayoutOptions} {plan : Plan} {item : Item}

theorem hasItem_shared_iff : HasItem (mergeGroups (plan.groups options)) [sharedDefinitions] item ↔
    item ∈ plan.namesItems ++ plan.definitions.flatMap (·.toItems .empty) := by
  rw [hasItem_mergeGroups_iff, itemsAt_groups_shared]

theorem hasItem_traits_iff : HasItem (mergeGroups (plan.groups options)) ["shared-traits"] item ↔
    item ∈ sharedImport 0 :: plan.traits.flatMap (·.toItems .shared) := by
  rw [hasItem_mergeGroups_iff, itemsAt_groups_traits]

theorem hasItem_track {track : Track} (htrack : track ∈ plan.tracks)
    (hitem : item ∈ track.event.trackItems (functionOptions options) (.ofTrack plan track)) :
    HasItem (mergeGroups (plan.groups options)) ["tracks"] item := by
  rw [hasItem_mergeGroups_iff, itemsAt_groups_tracks]
  exact List.mem_append_right _ (List.mem_flatMap.mpr ⟨track, htrack, hitem⟩)

theorem hasItem_screen {screen : Screen} (hscreen : screen ∈ plan.screens)
    (hitem : item ∈ screen.items (functionOptions options) plan) :
    HasItem (mergeGroups (plan.groups options)) ["screens", screen.event.exportName] item := by
  rw [hasItem_mergeGroups_iff, itemsAt_groups_screen]
  refine List.mem_flatMap.mpr ⟨screen, List.mem_filter.mpr ⟨hscreen, by simp⟩, ?_⟩
  exact List.mem_append_right _ hitem

end Modules

section Document

variable {formats : FormatRegistry} {definition : PlanDefinition} {plan : Plan}

/-- The payload of a track is the one that the document has at its key. -/
theorem payload_of_track (hplan : ofDefinition formats definition = .ok plan) {key : String}
    {event : Option EventDefinition} (hentry : definition.tracks.get? key = some event) :
    ∃ track, plan.findTrack? key = some track ∧
      Record.ofFragment formats (event.getD .empty).payload = .ok track.event.payload := by
  obtain ⟨tracks, screens, definitions, traits, htracks, -, -, -, rfl⟩ :=
    ofDefinition_eq_ok_iff.mp hplan
  obtain ⟨draft, hfind, hdraft⟩ := exists_find?_trackDrafts htracks hentry
  obtain ⟨payload, hpayload, rfl⟩ := Draft.ofEntry_eq_ok_iff.mp hdraft
  have htrack := @findTrack?_assembled tracks screens key
  rw [hfind, Option.map_some] at htrack
  exact ⟨_, htrack, hpayload⟩

theorem payload_of_screen (hplan : ofDefinition formats definition = .ok plan) {key : String}
    {event : Option EventDefinition} (hentry : definition.screens.get? key = some event) :
    ∃ screen, plan.findScreen? key = some screen ∧
      Record.ofFragment formats (event.getD .empty).payload = .ok screen.event.payload := by
  obtain ⟨tracks, screens, definitions, traits, -, hscreens, -, -, rfl⟩ :=
    ofDefinition_eq_ok_iff.mp hplan
  obtain ⟨draft, hfind, hdraft⟩ := exists_find?_screenDrafts hscreens hentry
  obtain ⟨payload, hpayload, rfl⟩ := Draft.ofEntry_eq_ok_iff.mp hdraft
  obtain ⟨index, -, hscreen⟩ := @findScreen?_assembled tracks screens key _ hfind
  exact ⟨_, hscreen, hpayload⟩

/-- A copy has the payload of the track that it is a copy of. -/
theorem payload_of_copy (hplan : ofDefinition formats definition = .ok plan) {screen : Screen}
    (hscreen : screen ∈ plan.screens) {copy : Track} (hcopy : copy ∈ screen.tracks) :
    ∃ event, definition.tracks.get? copy.event.key = some event ∧
      Record.ofFragment formats (event.getD .empty).payload = .ok copy.event.payload := by
  obtain ⟨tracks, screens, definitions, traits, htracks, -, -, -, rfl⟩ :=
    ofDefinition_eq_ok_iff.mp hplan
  obtain ⟨index, hindex, rfl⟩ := List.mem_mapIdx.mp hscreen
  simp only [Screen.assembled, List.mem_filterMap, Option.map_eq_some_iff] at hcopy
  obtain ⟨key, -, draft, hfind, rfl⟩ := hcopy
  rw [find?_trackDrafts htracks] at hfind
  obtain ⟨event, hevent, hdraft⟩ := Option.bind_eq_some_iff.mp hfind
  cases hread : Draft.ofEntry formats .track (key, event) with
  | error fault =>
      rw [hread] at hdraft
      cases hdraft
  | ok track =>
      rw [hread] at hdraft
      obtain rfl := Option.some.inj hdraft
      obtain ⟨payload, hpayload, rfl⟩ := Draft.ofEntry_eq_ok_iff.mp hread
      exact ⟨event, hevent, hpayload⟩

theorem track_refersToShared (hplan : ofDefinition formats definition = .ok plan)
    (options : LayoutOptions) {key : String} {event : Option EventDefinition}
    (hentry : definition.tracks.get? key = some event) :
    ∃ track function, plan.findTrack? key = some track ∧
      track.toFunction (functionOptions options) plan = .ok function ∧
      HasItem (mergeGroups (plan.groups options)) ["tracks"]
        (.const (exportName key) function.toExpr) ∧
      function.RefersToShared (event.getD .empty).payload (.ofTrack plan track) := by
  obtain ⟨track, htrack, hpayload⟩ := payload_of_track hplan hentry
  have hkey : track.event.key = key := by simpa using List.find?_some htrack
  refine ⟨track, _, htrack, trackingFunction_eq _ _ _, ?_,
    Event.function_refersToShared hpayload rfl _⟩
  rw [← hkey]
  exact hasItem_track (List.mem_of_find?_eq_some htrack)
    (List.mem_append_right _ List.mem_cons_self)

theorem screen_refersToShared (hplan : ofDefinition formats definition = .ok plan)
    (options : LayoutOptions) {key : String} {event : Option EventDefinition}
    (hentry : definition.screens.get? key = some event) :
    ∃ screen function, plan.findScreen? key = some screen ∧
      screen.toFunction (functionOptions options) plan = .ok function ∧
      HasItem (mergeGroups (plan.groups options)) ["screens", exportName key]
        (.defaultExport function.toExpr) ∧
      function.RefersToShared (event.getD .empty).payload (.ofScreen plan screen) := by
  obtain ⟨screen, hscreen, hpayload⟩ := payload_of_screen hplan hentry
  have hkey : screen.event.key = key := by simpa using List.find?_some hscreen
  refine ⟨screen, _, hscreen, trackingFunction_eq _ _ _, ?_,
    Event.function_refersToShared hpayload rfl _⟩
  rw [← hkey]
  exact hasItem_screen (List.mem_of_find?_eq_some hscreen)
    (List.mem_append_right _ List.mem_cons_self)

theorem copy_refersToShared (hplan : ofDefinition formats definition = .ok plan)
    (options : LayoutOptions) {screen : Screen} (hscreen : screen ∈ plan.screens) {copy : Track}
    (hcopy : copy ∈ screen.tracks) :
    ∃ event function, definition.tracks.get? copy.event.key = some event ∧
      copy.toFunction (functionOptions options) plan = .ok function ∧
      HasItem (mergeGroups (plan.groups options)) ["screens", screen.event.exportName]
        (.const copy.event.exportName function.toExpr) ∧
      function.RefersToShared (event.getD .empty).payload (.ofTrack plan copy) := by
  obtain ⟨event, hevent, hpayload⟩ := payload_of_copy hplan hscreen hcopy
  refine ⟨event, _, hevent, trackingFunction_eq _ _ _, hasItem_screen hscreen ?_,
    Event.function_refersToShared hpayload rfl _⟩
  exact List.mem_append_right _ (List.mem_cons_of_mem _ (List.mem_flatMap.mpr
    ⟨copy, hcopy, List.mem_append_right _ List.mem_cons_self⟩))

/-- A named type has at each reference what references are rendered as. -/
theorem namedType_refers {section_ : String} {entries : Dict Fragment} {types : List NamedType}
    (htypes : namedTypes formats section_ entries = .ok types) {mappings : ImportMappings}
    {rendered : String → Ty} (hrendered : ∀ name, '/' ∉ name.toList →
      Reference.toType mappings ⟨definitionPath name⟩ = rendered name) :
    ∀ entry ∈ entries.entries, ∃ type,
      .typeAlias entry.1 type ∈ types.flatMap (·.toItems mappings) ∧
      ∀ name path, '/' ∉ name.toList → entry.2.RefersAt (definitionPath name) path →
        type.at? path = some (rendered name) := by
  intro entry hentry
  obtain ⟨named, hnamed, hname, hshape⟩ := (namedTypes_eq_ok htypes).2 entry hentry
  refine ⟨named.type.toType mappings, List.mem_flatMap.mpr ⟨named, hnamed, ?_⟩, ?_⟩
  · rw [← hname]
    exact List.mem_append_right _ List.mem_cons_self
  · intro name path hname hrefers
    rw [Shape.at?_toType_of_refersAt hshape mappings hrefers, hrendered name hname]

end Document

end Plan

end TrackingPlan
