import TrackingPlan.Proofs.Layout.Groups
import TrackingPlan.Proofs.Layout.References
import TrackingPlan.Proofs.TypeScript.Uses

/-!
# Closed modules

Whatever the code of a module uses is bound in the code around it or imported by
the module, and whatever a document refers to is declared among the shared
definitions.
-/

namespace TrackingPlan

open TypeScript

/-- A use can be made in a module with the items. Namespaces and the implementation are
imported; all other identifiers but the console are bound around them. -/
def TypeScript.Use.IsClosed (options : LayoutOptions) (items : List Item) : Use → Prop
  | .name identifier bound =>
    if identifier = "implementation" then
      options.implementation.isSome ∧ ∃ source, Item.imported (.defaultAs identifier source) ∈ items
    else identifier ∈ bound ∨ identifier = "console"
  | .await isAsync => isAsync = true
  | .type annotation => ∀ path scope name, annotation.at? path = some (.qualified scope name) →
    ∃ source, Item.imported (.allAs scope source) ∈ items

section Items

variable {options : LayoutOptions} {depth : Nat} {items : List Item}

theorem isClosed_of_bound {name : String} {bound : List String} (hname : name ≠ "implementation")
    (hbound : name ∈ bound) : (Use.name name bound).IsClosed options items := by
  rw [Use.IsClosed, if_neg hname]
  exact .inl hbound

/-- Types without imports are closed anywhere. -/
theorem isClosed_of_not_qualified {type : Ty}
    (htype : ∀ path scope name, type.at? path ≠ some (.qualified scope name)) :
    (Use.type type).IsClosed options items :=
  fun path scope name hat => absurd hat (htype path scope name)

theorem isClosed_toType_shared (hshared : sharedImport depth ∈ items) (shape : Shape) :
    (Use.type (shape.toType .shared)).IsClosed options items := by
  intro path scope name hat
  obtain rfl := Shape.at?_toType_shared_qualified hat
  exact ⟨_, hshared⟩

theorem isClosed_payloadParameter (hshared : sharedImport depth ∈ items) (payload : ObjectShape) :
    ∀ use ∈ parameterUses [payloadParameter .shared payload], use.IsClosed options items := by
  unfold payloadParameter
  split
  · rintro use (_ | ⟨_, ⟨⟩⟩)
    refine isClosed_of_not_qualified fun path scope name hat => ?_
    cases path <;> simp [Ty.at?] at hat
  · rintro use (_ | ⟨_, ⟨⟩⟩)
    rw [← Shape.toType_object]
    exact isClosed_toType_shared hshared _

theorem membersUses_knownMembers (bound : List String) (isAsync : Bool) (property : String)
    (names : List String) : membersUses bound isAsync (knownMembers property names) = [] := by
  rcases names with _ | ⟨first, _ | ⟨second, others⟩⟩ <;> rfl

theorem isClosed_names {bound : List String} {isAsync : Bool} {names : List String}
    (hnames : ∀ name ∈ names, name ≠ "implementation") (hbound : ∀ name ∈ names, name ∈ bound) :
    ∀ use ∈ expressionsUses bound isAsync (names.map Expr.name), use.IsClosed options items := by
  induction names with
  | nil => exact List.forall_mem_nil _
  | cons name rest ih =>
      rw [List.forall_mem_cons] at hnames hbound
      rw [List.map_cons, expressionsUses, Expr.uses, List.singleton_append, List.forall_mem_cons]
      exact ⟨isClosed_of_bound hnames.1 hbound.1, ih hnames.2 hbound.2⟩

/-- An event is handed to what is imported, or to the console. -/
theorem isClosed_handOver (himports : moduleImports options depth ⊆ items) {bound : List String}
    (hbound : ∀ name ∈ ["type", "name", "props", "overwrittenSource"], name ∈ bound) :
    ∀ use ∈ (handOver (Plan.functionOptions options)).uses bound options.isAsync,
      use.IsClosed options items := by
  have harguments : ∀ use ∈ expressionsUses bound options.isAsync
      (["type", "name", "props", "overwrittenSource"].map Expr.name),
      use.IsClosed options items := isClosed_names (by decide) hbound
  unfold handOver Plan.functionOptions
  dsimp only
  cases himplementation : options.implementation with
  | none =>
      rw [Option.isSome_none, if_neg Bool.false_ne_true, Expr.uses, Expr.uses, Expr.uses,
        List.singleton_append, List.forall_mem_cons]
      exact ⟨.inr rfl, harguments⟩
  | some path =>
      have hcall : ∀ use ∈ (Expr.call (.name "implementation")
          (["type", "name", "props", "overwrittenSource"].map Expr.name)).uses bound options.isAsync,
          use.IsClosed options items := by
        rw [Expr.uses, Expr.uses, List.singleton_append, List.forall_mem_cons]
        refine ⟨?_, harguments⟩
        rw [Use.IsClosed, if_pos rfl, himplementation]
        refine ⟨rfl, relativeTo depth path, himports ?_⟩
        simp [moduleImports, himplementation]
      rw [Option.isSome_some, if_pos rfl]
      split
      next hasync =>
        rw [Expr.uses, List.forall_mem_cons]
        exact ⟨hasync, hcall⟩
      next => exact hcall

theorem isClosed_function (himports : moduleImports options depth ⊆ items) (event : Event)
    (names : SourceNames) :
    ∀ use ∈ (event.function (Plan.functionOptions options) names).toExpr.uses [] false,
      use.IsClosed options items := by
  have hshared : sharedImport depth ∈ items := himports List.mem_cons_self
  have hparameters : ∀ use ∈ parameterUses
      (event.function (Plan.functionOptions options) names).parameters,
      use.IsClosed options items := by
    change ∀ use ∈ parameterUses ([payloadParameter .shared event.payload] ++
      [⟨"source", some (names.object.toType .shared), true⟩]), use.IsClosed options items
    rw [parameterUses, List.filterMap_append, List.forall_mem_append, ← Shape.toType_object]
    exact ⟨isClosed_payloadParameter hshared event.payload,
      List.forall_mem_singleton.mpr (isClosed_toType_shared hshared _)⟩
  have hnames : (event.function (Plan.functionOptions options) names).parameters.map (·.name) =
      ["props", "source"] := by
    unfold Event.function payloadParameter
    split <;> rfl
  rw [Arrow.toExpr, Expr.uses, hnames, List.forall_mem_append]
  refine ⟨hparameters, ?_⟩
  -- Only the spread source and the hand-over use anything in the body.
  simp only [Event.function, statementsUses, Statement.uses, Statement.binds, Expr.string, Expr.uses,
    membersUses_append, membersUses_knownMembers, membersUses, Member.uses, List.append_nil,
    List.nil_append, List.cons_append, List.forall_mem_cons]
  exact ⟨isClosed_of_bound (by decide) (by decide), isClosed_handOver himports (by decide)⟩

theorem uses_commentItems (description : Option String) :
    ∀ item ∈ commentItems description, item.uses = [] := by
  cases description with
  | none => exact List.forall_mem_nil _
  | some text => exact List.forall_mem_singleton.mpr rfl

theorem uses_moduleImports : ∀ item ∈ moduleImports options depth, item.uses = [] := by
  rw [moduleImports, List.forall_mem_cons]
  refine ⟨rfl, fun item hitem => ?_⟩
  obtain ⟨path, -, rfl⟩ := Option.map_eq_some_iff.mp (Option.mem_toList.mp hitem)
  rfl

/-- Comments and imports use nothing. -/
theorem isClosed_of_no_uses {part : List Item} (hpart : ∀ item ∈ part, item.uses = []) :
    ∀ item ∈ part, ∀ use ∈ item.uses, use.IsClosed options items := by
  intro item hitem
  rw [hpart item hitem]
  exact List.forall_mem_nil _

theorem isClosed_trackItems (himports : moduleImports options depth ⊆ items) (event : Event)
    (names : SourceNames) :
    ∀ item ∈ event.trackItems (Plan.functionOptions options) names,
      ∀ use ∈ item.uses, use.IsClosed options items := by
  rw [Event.trackItems, List.forall_mem_append, List.forall_mem_singleton]
  exact ⟨isClosed_of_no_uses (uses_commentItems _), isClosed_function himports event names⟩

theorem isClosed_screenItems (himports : moduleImports options depth ⊆ items) (plan : Plan)
    (screen : Screen) :
    ∀ item ∈ screen.items (Plan.functionOptions options) plan,
      ∀ use ∈ item.uses, use.IsClosed options items := by
  rw [Screen.items, List.forall_mem_append, List.forall_mem_cons]
  refine ⟨isClosed_of_no_uses (uses_commentItems _), isClosed_function himports _ _, ?_⟩
  intro item hitem
  obtain ⟨track, -, hitem⟩ := List.mem_flatMap.mp hitem
  exact isClosed_trackItems himports _ _ item hitem

/-- A named type uses its type only. -/
theorem uses_namedType (mappings : ImportMappings) (type : NamedType) :
    ∀ item ∈ type.toItems mappings,
      ∀ use ∈ item.uses, use = .type (type.type.toType mappings) := by
  rw [NamedType.toItems, List.forall_mem_append, List.forall_mem_singleton]
  refine ⟨fun item hitem => ?_, fun use huse => List.mem_singleton.mp huse⟩
  rw [uses_commentItems type.description item hitem]
  exact List.forall_mem_nil _

/-- Types of names are made of the names only. -/
theorem at?_namesUnion_ne_qualified (names : List String) (path : List Step)
    (scope name : String) : (namesUnion names).at? path ≠ some (.qualified scope name) := by
  by_cases hnames : names = []
  · subst hnames
    cases path <;> simp [namesUnion, Ty.at?]
  · rw [← toType_narrowedShape .empty featureNamesReference hnames]
    exact Shape.at?_toType_empty_ne_qualified _ _ _ _

end Items

namespace Plan

variable {options : LayoutOptions}

/-- Among the shared definitions there are only types, and none of them is qualified. -/
theorem exists_type_of_shared {plan : Plan} :
    ∀ item ∈ plan.namesItems ++ plan.definitions.flatMap (·.toItems .empty),
      ∀ use ∈ item.uses, ∃ type, use = .type type ∧
        ∀ path scope name, type.at? path ≠ some (.qualified scope name) := by
  rw [List.forall_mem_append]
  constructor
  · simp only [namesItems, List.forall_mem_cons, Item.uses]
    simp [at?_namesUnion_ne_qualified]
  · intro item hitem use huse
    obtain ⟨type, -, hitem⟩ := List.mem_flatMap.mp hitem
    exact ⟨_, uses_namedType _ type item hitem use huse, Shape.at?_toType_empty_ne_qualified _⟩

theorem imported_not_mem_shared (plan : Plan) (entry : Import) :
    .imported entry ∉ plan.namesItems ++ plan.definitions.flatMap (·.toItems .empty) := by
  rw [List.mem_append, List.mem_flatMap, not_or]
  refine ⟨by simp [namesItems], ?_⟩
  rintro ⟨type, -, hentry⟩
  exact imported_not_mem_namedType entry _ type hentry

theorem isClosed_modules (options : LayoutOptions) (plan : Plan) :
    ∀ group ∈ plan.modules options, ∀ item ∈ group.items,
      ∀ use ∈ item.uses, use.IsClosed options group.items := by
  unfold modules
  rw [List.forall_mem_append, List.forall_mem_append, List.forall_mem_singleton,
    List.forall_mem_map, List.forall_mem_cons, List.forall_mem_singleton]
  refine ⟨⟨?shared, ?screens⟩, ?tracks, ?traits⟩
  case shared =>
    intro item hitem use huse
    obtain ⟨type, rfl, htype⟩ := exists_type_of_shared item hitem use huse
    exact isClosed_of_not_qualified htype
  case screens =>
    intro name _ item hitem
    obtain ⟨screen, hscreen, hitem⟩ := List.mem_flatMap.mp hitem
    rcases List.mem_append.mp hitem with himport | hitem
    · exact isClosed_of_no_uses uses_moduleImports item himport
    · refine isClosed_screenItems (show moduleImports options 1 ⊆ _ from fun entry hentry => ?_)
        plan screen item hitem
      exact List.mem_flatMap.mpr ⟨screen, hscreen, List.mem_append_left _ hentry⟩
  case tracks =>
    rw [List.forall_mem_append]
    refine ⟨isClosed_of_no_uses uses_moduleImports, fun item hitem => ?_⟩
    obtain ⟨track, -, hitem⟩ := List.mem_flatMap.mp hitem
    exact isClosed_trackItems (List.subset_append_left _ _) _ _ item hitem
  case traits =>
    rw [List.forall_mem_cons]
    refine ⟨List.forall_mem_nil _, fun item hitem use huse => ?_⟩
    obtain ⟨type, -, hitem⟩ := List.mem_flatMap.mp hitem
    rw [uses_namedType _ type item hitem use huse]
    exact isClosed_toType_shared List.mem_cons_self _

/-- The modules of a plan need nothing that they do not import, and they have everything that
the document refers to. -/
structure ClosedModules (options : LayoutOptions) (definition : PlanDefinition) (plan : Plan)
    (modules : List ModuleGroup) : Prop where
  uses_closed : ∀ group ∈ modules, ∀ item ∈ group.items,
    ∀ use ∈ item.uses, use.IsClosed options group.items
  shared_imports : ∀ entry, ¬ HasItem modules [sharedDefinitions] (.imported entry)
  shared_types : ∀ item, HasItem modules [sharedDefinitions] item → ∀ type, .type type ∈ item.uses →
    ∀ path scope name, type.at? path ≠ some (.qualified scope name)
  declared : ∀ name ∈ "FeatureNames" :: "ScreenNames" :: definition.definitions.keys,
    ∃ type, HasItem modules [sharedDefinitions] (.typeAlias name type)
  /-- Definitions refer to each other by their bare names. -/
  definitions_refer : ∀ entry ∈ definition.definitions.entries,
    ∃ type, HasItem modules [sharedDefinitions] (.typeAlias entry.1 type) ∧
      ∀ name path, '/' ∉ name.toList → entry.2.RefersAt (definitionPath name) path →
        type.at? path = some (.name name)
  traits_refer : ∀ entry ∈ definition.traits.entries,
    ∃ type, HasItem modules ["shared-traits"] (.typeAlias entry.1 type) ∧
      ∀ name path, '/' ∉ name.toList → entry.2.RefersAt (definitionPath name) path →
        type.at? path = some (.qualified sharedAlias name)
  tracks_refer : ∀ key event, definition.tracks.get? key = some event →
    ∃ track function, plan.findTrack? key = some track ∧
      track.toFunction (functionOptions options) plan = .ok function ∧
      HasItem modules ["tracks"] (.const (exportName key) function.toExpr) ∧
      function.RefersToShared (event.getD .empty).payload (.ofTrack plan track)
  screens_refer : ∀ key event, definition.screens.get? key = some event →
    ∃ screen function, plan.findScreen? key = some screen ∧
      screen.toFunction (functionOptions options) plan = .ok function ∧
      HasItem modules ["screens", exportName key] (.defaultExport function.toExpr) ∧
      function.RefersToShared (event.getD .empty).payload (.ofScreen plan screen)
  copies_refer : ∀ screen ∈ plan.screens, ∀ copy ∈ screen.tracks,
    ∃ event function, definition.tracks.get? copy.event.key = some event ∧
      copy.toFunction (functionOptions options) plan = .ok function ∧
      HasItem modules ["screens", screen.event.exportName]
        (.const copy.event.exportName function.toExpr) ∧
      function.RefersToShared (event.getD .empty).payload (.ofTrack plan copy)

section Document

variable {formats : FormatRegistry} {definition : PlanDefinition} {plan : Plan}

theorem hasItem_declared (hplan : ofDefinition formats definition = .ok plan) :
    ∀ name ∈ "FeatureNames" :: "ScreenNames" :: definition.definitions.keys, ∃ type,
      HasItem (mergeGroups (plan.groups options)) [sharedDefinitions] (.typeAlias name type) := by
  simp only [hasItem_shared_iff, List.forall_mem_cons]
  refine ⟨⟨_, List.mem_append_left _ (.tail _ (.head _))⟩,
    ⟨_, List.mem_append_left _ (.tail _ (.tail _ (.tail _ (.head _))))⟩, fun name hname => ?_⟩
  rw [← (keys_of_ofDefinition hplan).2.2.1] at hname
  obtain ⟨type, htype, rfl⟩ := List.mem_map.mp hname
  refine ⟨type.type.toType .empty, List.mem_append_right _ (List.mem_flatMap.mpr ⟨type, htype, ?_⟩)⟩
  exact List.mem_append_right _ List.mem_cons_self

/-- The modules of every plan are closed. -/
theorem ofDefinition_closedModules (hplan : ofDefinition formats definition = .ok plan)
    (options : LayoutOptions) : ∃ groups, plan.toGroups options = .ok groups ∧
      ClosedModules options definition plan (mergeGroups groups) := by
  refine ⟨_, plan.toGroups_eq options, ?_⟩
  obtain ⟨tracks, screens, definitions, traits, -, -, hdefinitions, htraits, hparts⟩ :=
    ofDefinition_eq_ok_iff.mp hplan
  exact {
    uses_closed := mergeGroups_groups options plan ▸ isClosed_modules options plan
    shared_imports := fun entry hentry =>
      imported_not_mem_shared plan entry (hasItem_shared_iff.mp hentry)
    shared_types := by
      intro item hitem type htype
      obtain ⟨_, ⟨⟩, hqualified⟩ := exists_type_of_shared item (hasItem_shared_iff.mp hitem) _ htype
      exact hqualified
    declared := hasItem_declared hplan
    definitions_refer := by
      intro entry hentry
      obtain ⟨type, hitem, hrefers⟩ :=
        namedType_refers hdefinitions (fun _ => Reference.toType_empty) entry hentry
      exact ⟨type, hasItem_shared_iff.mpr (List.mem_append_right _ (hparts ▸ hitem)), hrefers⟩
    traits_refer := by
      intro entry hentry
      obtain ⟨type, hitem, hrefers⟩ :=
        namedType_refers htraits (fun _ => Reference.toType_shared) entry hentry
      exact ⟨type, hasItem_traits_iff.mpr (List.mem_cons_of_mem _ (hparts ▸ hitem)), hrefers⟩
    tracks_refer := fun _ _ => track_refersToShared hplan options
    screens_refer := fun _ _ => screen_refersToShared hplan options
    copies_refer := fun _ hscreen _ => copy_refersToShared hplan options hscreen }

/-- A definition behind an array and a union, in a track that a screen has a copy of. -/
def cart : PlanDefinition where
  tracks := ⟨[("add", some { EventDefinition.empty with
    properties := some ⟨[("items", { Fragment.empty with
      keywords := { Keywords.none with type := some "array" }
      items := some { Fragment.empty with
        oneOf := some [{ Fragment.empty with
            keywords := { Keywords.none with reference := some "#/$defs/Item" } },
          { Fragment.empty with
            keywords := { Keywords.none with type := some "string" } }] } })], by decide⟩ })],
    by decide⟩
  screens := ⟨[("cart", some { EventDefinition.empty with tracks := ["add"] })], by decide⟩
  definitions := ⟨[("Item", { Fragment.empty with
    keywords := { Keywords.none with type := some "integer" } })], by decide⟩
  traits := .empty

def cartPlan : Plan :=
  let add : Event := ⟨.track, "add", "add", none, false, none,
    ⟨[⟨"items", .array (.union (.reference ⟨"#/$defs/Item"⟩) (.string none) []), false⟩], false⟩, []⟩
  { features := []
    screens := [⟨⟨.screen, "cart", "cart", none, false, none, ⟨[], false⟩, []⟩, [⟨add, [⟨0⟩]⟩]⟩]
    tracks := [⟨add, [⟨0⟩]⟩]
    definitions := [⟨"Item", .number true none, none⟩]
    traits := [] }

theorem cart_closedModules : ∃ groups, ofDefinition .standard cart = .ok cartPlan ∧
    cartPlan.toGroups ⟨some "./analytics", true⟩ = .ok groups ∧
    ClosedModules ⟨some "./analytics", true⟩ cart cartPlan (mergeGroups groups) ∧
    ∃ track function, cartPlan.findTrack? "add" = some track ∧
      track.toFunction (functionOptions ⟨some "./analytics", true⟩) cartPlan = .ok function ∧
      function.typeAt? "props" [.field 0, .items, .option 0] =
        some (.qualified "shared" "Item") := by
  have hplan : ofDefinition .standard cart = .ok cartPlan := by cbv
  obtain ⟨groups, hgroups, hclosed⟩ := ofDefinition_closedModules hplan ⟨some "./analytics", true⟩
  obtain ⟨track, function, htrack, hfunction, -, hrefers⟩ := hclosed.tracks_refer "add" _ rfl
  refine ⟨groups, hplan, hgroups, hclosed, track, function, htrack, hfunction, ?_⟩
  refine hrefers.props "Item" _ (by decide) ?_
  exact .property rfl rfl rfl rfl
    (.items rfl rfl rfl (.option rfl rfl (by decide) rfl (.here rfl)))

end Document

end Plan

end TrackingPlan
