import TrackingPlan.Layout
import TrackingPlan.Proofs.Shape.Positions

/-!
# Items of a plan at once

Code is generated step by step, and every step could fail. None of them does,
so here the same items are written down at once, as functions of the event, the
names it can happen under and the plan.
-/

namespace TrackingPlan

open TypeScript

section Source

/-- The shape of the property for one kind of name. -/
def narrowedShape (all : Reference) : List String → Shape
  | [] => .reference all
  | [name] => .constantString name
  | first :: second :: others =>
    .union (.constantString first) (.constantString second) (others.map .constantString)

theorem narrowedProperty_eq (property : String) (all : Reference) (names : List String) :
    narrowedProperty property all names =
      .ok ⟨property, narrowedShape all names, names.length != 1⟩ := by
  rcases names with _ | ⟨first, _ | ⟨second, others⟩⟩
  · rfl
  · rfl
  · simp [narrowedProperty, Shape.unionOf, narrowedShape]

/-- A property that is an optional string. -/
def freeProperty (name : String) : Property Shape := ⟨name, .string none, false⟩

/-- The source of an event that can happen under the names. -/
def SourceNames.object (names : SourceNames) : ObjectShape where
  properties := [
    ⟨"feature", narrowedShape featureNamesReference names.features, names.features.length != 1⟩,
    ⟨"screen", narrowedShape screenNamesReference names.screens, names.screens.length != 1⟩,
    freeProperty "widget", freeProperty "element", freeProperty "action"]
  additional := false

theorem SourceNames.toObject_eq (names : SourceNames) : names.toObject = .ok names.object := by
  unfold toObject
  rw [narrowedProperty_eq, narrowedProperty_eq]
  rfl

/-- Below a narrowed property there are only the single names. -/
theorem at?_narrowedShape {all : Reference} {names : List String} {path : List Step} {part : Shape}
    (hat : (narrowedShape all names).at? path = some part) :
    path = [] ∧ part = narrowedShape all names ∨ ∃ name ∈ names, part = .constantString name := by
  cases path with
  | nil =>
      rw [Shape.at?] at hat
      exact .inl ⟨rfl, (Option.some.inj hat).symm⟩
  | cons step path =>
      rcases names with _ | ⟨first, _ | ⟨second, others⟩⟩
      · cases step <;> simp [narrowedShape, Shape.at?] at hat
      · cases step <;> simp [narrowedShape, Shape.constantString, Shape.at?] at hat
      · cases step with
        | option index =>
            rw [narrowedShape, Shape.at?, ← List.map_cons, ← List.map_cons, List.getElem?_map] at hat
            obtain ⟨option, hoption, hat⟩ := Option.bind_eq_some_iff.mp hat
            obtain ⟨name, hname, rfl⟩ := Option.map_eq_some_iff.mp hoption
            cases path with
            | nil =>
                rw [Shape.at?] at hat
                exact .inr ⟨name, List.mem_of_getElem? hname, (Option.some.inj hat).symm⟩
            | cons step path => simp [Shape.constantString, Shape.at?] at hat
        | items | field => simp [narrowedShape, Shape.at?] at hat

theorem SourceNames.at?_object {names : SourceNames} {path : List Step} {part : Shape}
    (hat : (Shape.object names.object).at? path = some part) :
    path = [] ∧ part = .object names.object ∨
      (∃ rest, path = .field 0 :: rest ∧
        (narrowedShape featureNamesReference names.features).at? rest = some part) ∨
      (∃ rest, path = .field 1 :: rest ∧
        (narrowedShape screenNamesReference names.screens).at? rest = some part) ∨
      part = .string none := by
  match path with
  | [] =>
      rw [Shape.at?] at hat
      exact .inl ⟨rfl, (Option.some.inj hat).symm⟩
  | .items :: _ | .option _ :: _ => simp [Shape.at?] at hat
  | .field 0 :: rest => exact .inr (.inl ⟨rest, rfl, hat⟩)
  | .field 1 :: rest => exact .inr (.inr (.inl ⟨rest, rfl, hat⟩))
  | .field (index + 2) :: rest =>
      rw [Shape.at?] at hat
      obtain ⟨property, hproperty, hat⟩ := Option.bind_eq_some_iff.mp hat
      have hfree : property ∈ [freeProperty "widget", freeProperty "element",
          freeProperty "action"] := List.mem_of_getElem? hproperty
      have htype : property.type = .string none := by
        simp only [List.mem_cons, List.not_mem_nil, or_false] at hfree
        rcases hfree with rfl | rfl | rfl <;> rfl
      rw [htype] at hat
      cases rest with
      | nil =>
          rw [Shape.at?] at hat
          exact .inr (.inr (.inr (Option.some.inj hat).symm))
      | cons step rest => simp [Shape.at?] at hat

/-- The member for a name, where only one is possible. -/
def knownMembers (property : String) : List String → List Member
  | [name] => [.property property (.string name)]
  | _ => []

/-- A narrowed property has a known value when its names are a single one. -/
theorem propertiesToMembers_narrowed (property : String) (all : Reference) (names : List String)
    (required : Bool) {rest : List (Property Shape)} {members : List Member}
    (hrest : propertiesToMembers rest = .ok members) :
    propertiesToMembers (⟨property, narrowedShape all names, required⟩ :: rest) =
      .ok (knownMembers property names ++ members) := by
  rw [propertiesToMembers, hrest]
  rcases names with _ | ⟨first, _ | ⟨second, others⟩⟩ <;> rfl

theorem SourceNames.literalMembers_object (names : SourceNames) :
    names.object.literalMembers =
      .ok (knownMembers "feature" names.features ++ knownMembers "screen" names.screens) := by
  have hfree : propertiesToMembers
      [freeProperty "widget", freeProperty "element", freeProperty "action"] = .ok [] := rfl
  have hscreen := propertiesToMembers_narrowed "screen" screenNamesReference names.screens
    (names.screens.length != 1) hfree
  rw [List.append_nil] at hscreen
  exact propertiesToMembers_narrowed "feature" featureNamesReference names.features _ hscreen

end Source

/-- The function for an event that can happen under the names. -/
def Event.function (options : FunctionOptions) (event : Event) (names : SourceNames) : Arrow where
  isAsync := options.isAsync
  parameters := [
    payloadParameter options.mappings event.payload,
    ⟨"source", some (names.object.toType options.mappings), true⟩]
  body := [
    .const "type" (.string event.kind.text),
    .const "name" (.string event.name),
    .const "overwrittenSource" (.object (knownMembers "feature" names.features ++
      knownMembers "screen" names.screens ++ [.spread (.name "source")])),
    .expression (handOver options)]

theorem trackingFunction_eq (options : FunctionOptions) (event : Event) (names : SourceNames) :
    trackingFunction options event names = .ok (event.function options names) := by
  unfold trackingFunction
  rw [names.toObject_eq]
  dsimp only [bind, Except.bind]
  rw [names.literalMembers_object]
  rfl

/-- The export of an event that is a track. -/
def Event.trackItems (options : FunctionOptions) (event : Event) (names : SourceNames) :
    List Item :=
  commentItems event.description ++ [.const event.exportName (event.function options names).toExpr]

theorem Track.toItems_eq (options : FunctionOptions) (plan : Plan) (track : Track) :
    track.toItems options plan = .ok (track.event.trackItems options (.ofTrack plan track)) := by
  unfold toItems toFunction
  rw [trackingFunction_eq]
  rfl

/-- The items of a screen with its tracks. -/
def Screen.items (options : FunctionOptions) (plan : Plan) (screen : Screen) : List Item :=
  commentItems screen.event.description ++
    .defaultExport (screen.event.function options (.ofScreen plan screen)).toExpr ::
      screen.tracks.flatMap fun track => track.event.trackItems options (.ofTrack plan track)

theorem Screen.toItems_eq (options : FunctionOptions) (plan : Plan) (screen : Screen) :
    screen.toItems options plan = .ok (screen.items options plan) := by
  unfold toItems toFunction
  dsimp only
  rw [trackingFunction_eq, mapM_eq_ok_map fun track _ => by rw [track.toItems_eq]; rfl]
  simp only [items, List.flatMap_def]
  rfl

/-- The type of all the names. -/
def namesUnion : List String → Ty
  | [] => .primitive .never
  | [name] => .literal (.string name)
  | first :: second :: others =>
    .union ((first :: second :: others).map fun name => .literal (.string name))

/-- A narrowed property has the type of its names, whatever is imported. -/
theorem toType_narrowedShape (mappings : ImportMappings) (all : Reference) {names : List String}
    (hnames : names ≠ []) : (narrowedShape all names).toType mappings = namesUnion names := by
  rcases names with _ | ⟨first, _ | ⟨second, others⟩⟩
  · exact absurd rfl hnames
  · rfl
  · rw [narrowedShape, Shape.toType_union, ← List.map_cons, ← List.map_cons, List.map_map]
    rfl

theorem namesType_eq (names : List String) : namesType names = .ok (namesUnion names) := by
  have hallowed : (names.map Literal.string).mapM (Shape.allowedValue (.string none)) =
      .ok (names.map .constantString) := by
    rw [List.mapM_map]
    exact mapM_eq_ok_map fun name _ => rfl
  cases names with
  | nil => rfl
  | cons name others =>
      unfold namesType Shape.enumeration
      rw [hallowed]
      cases others with
      | nil => rfl
      | cons second others =>
          refine congrArg Except.ok ((Shape.toType_union _ _ _ _).trans ?_)
          simp only [List.map_cons, List.map_map]
          rfl

namespace Plan

/-- The options of all functions of a plan. -/
def functionOptions (options : LayoutOptions) : FunctionOptions :=
  ⟨options.implementation.isSome, options.isAsync, .shared⟩

/-- The items for all the names of a plan. -/
def namesItems (plan : Plan) : List Item := [
  .comment "List of all the feature names",
  .typeAlias "FeatureNames" (namesUnion (plan.features.map (·.name))),
  .comment "List of all the screen names",
  .typeAlias "ScreenNames" (namesUnion (plan.screens.map (·.event.name)))]

/-- The groups of items of a plan. -/
def groups (options : LayoutOptions) (plan : Plan) : List ModuleGroup :=
  [⟨[sharedDefinitions], plan.namesItems⟩] ++
    plan.screens.map (fun screen => ⟨["screens", screen.event.exportName],
      moduleImports options 1 ++ screen.items (functionOptions options) plan⟩) ++
    [⟨["tracks"], moduleImports options 0⟩, ⟨["shared-traits"], [sharedImport 0]⟩] ++
    plan.tracks.map (fun track => ⟨["tracks"],
      track.event.trackItems (functionOptions options) (.ofTrack plan track)⟩) ++
    plan.definitions.map (fun type => ⟨[sharedDefinitions], type.toItems .empty⟩) ++
    plan.traits.map fun type => ⟨["shared-traits"], type.toItems .shared⟩

theorem toGroups_eq (options : LayoutOptions) (plan : Plan) :
    plan.toGroups options = .ok (plan.groups options) := by
  have hscreens : ∀ screen ∈ plan.screens, (do
      let items ← screen.toItems (functionOptions options) plan
      return ModuleGroup.mk ["screens", screen.event.exportName]
        (moduleImports options 1 ++ items)) =
      .ok ⟨["screens", screen.event.exportName],
        moduleImports options 1 ++ screen.items (functionOptions options) plan⟩ := by
    intro screen _
    rw [screen.toItems_eq]
    rfl
  have htracks : ∀ track ∈ plan.tracks, (do
      return ModuleGroup.mk ["tracks"] (← track.toItems (functionOptions options) plan)) =
      .ok ⟨["tracks"],
        track.event.trackItems (functionOptions options) (.ofTrack plan track)⟩ := by
    intro track _
    rw [track.toItems_eq]
    rfl
  unfold toGroups TrackingPlan.namesItems
  rw [namesType_eq, namesType_eq]
  dsimp only
  rw [← functionOptions, mapM_eq_ok_map hscreens, mapM_eq_ok_map htracks]
  rfl

end Plan

end TrackingPlan
