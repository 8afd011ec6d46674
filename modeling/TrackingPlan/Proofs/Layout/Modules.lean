import TrackingPlan.Proofs.Layout.Items
import TrackingPlan.Proofs.Layout.Merging
import TrackingPlan.Proofs.Plan.Links

/-!
# Modules of a plan

The modules of a plan in closed form: the names of all features and screens and
the definitions, one module for each name of screens, the tracks and the traits.
Nothing of the plan is left out, is there twice or changes its place.
-/

namespace TrackingPlan

open TypeScript

namespace Plan

/-- The modules of a plan. -/
def modules (options : LayoutOptions) (plan : Plan) : List ModuleGroup :=
  [⟨[sharedDefinitions], plan.namesItems ++ plan.definitions.flatMap (·.toItems .empty)⟩] ++
    (plan.screens.map (·.event.exportName)).eraseDups.map (fun name => ⟨["screens", name],
      (plan.screens.filter (·.event.exportName == name)).flatMap fun screen =>
        moduleImports options 1 ++ screen.items (functionOptions options) plan⟩) ++
    [⟨["tracks"], moduleImports options 0 ++ plan.tracks.flatMap fun track =>
        track.event.trackItems (functionOptions options) (.ofTrack plan track)⟩,
      ⟨["shared-traits"], sharedImport 0 :: plan.traits.flatMap (·.toItems .shared)⟩]

/-- No screen has the path of a module that is not one of a screen, and tracks,
definitions and traits only add to modules that are there. -/
theorem eraseDups_paths_groups (options : LayoutOptions) (plan : Plan) :
    ((plan.groups options).map (·.path)).eraseDups = [[sharedDefinitions]] ++
      (plan.screens.map (·.event.exportName)).eraseDups.map (fun name => ["screens", name]) ++
      [["tracks"], ["shared-traits"]] := by
  have hscreens : (plan.screens.map fun screen => ["screens", screen.event.exportName]).eraseDups =
      (plan.screens.map (·.event.exportName)).eraseDups.map fun name => ["screens", name] := by
    rw [← eraseDups_map (fun _ _ heq => by simpa using heq), List.map_map]
    rfl
  simp only [groups, List.map_append, List.map_map, Function.comp_def, List.map_cons, List.map_nil]
  rw [eraseDups_append_of_subset, eraseDups_append_of_subset, eraseDups_append_of_subset,
    eraseDups_append_of_disjoint, eraseDups_append_of_disjoint, hscreens]
  · rfl
  all_goals simp [sharedDefinitions]

theorem itemsAt_groups_shared (options : LayoutOptions) (plan : Plan) :
    itemsAt (plan.groups options) [sharedDefinitions] =
      plan.namesItems ++ plan.definitions.flatMap (·.toItems .empty) := by
  simp only [groups, itemsAt_append, itemsAt_map]
  simp [itemsAt, sharedDefinitions]

theorem itemsAt_groups_screen (options : LayoutOptions) (plan : Plan) (name : String) :
    itemsAt (plan.groups options) ["screens", name] =
      (plan.screens.filter (·.event.exportName == name)).flatMap fun screen =>
        moduleImports options 1 ++ screen.items (functionOptions options) plan := by
  simp only [groups, itemsAt_append, itemsAt_map]
  simp [itemsAt, sharedDefinitions]

theorem itemsAt_groups_tracks (options : LayoutOptions) (plan : Plan) :
    itemsAt (plan.groups options) ["tracks"] = moduleImports options 0 ++
      plan.tracks.flatMap fun track =>
        track.event.trackItems (functionOptions options) (.ofTrack plan track) := by
  simp only [groups, itemsAt_append, itemsAt_map]
  simp [itemsAt, sharedDefinitions]

theorem itemsAt_groups_traits (options : LayoutOptions) (plan : Plan) :
    itemsAt (plan.groups options) ["shared-traits"] =
      sharedImport 0 :: plan.traits.flatMap (·.toItems .shared) := by
  simp only [groups, itemsAt_append, itemsAt_map]
  simp [itemsAt, sharedDefinitions]

theorem mergeGroups_groups (options : LayoutOptions) (plan : Plan) :
    mergeGroups (plan.groups options) = plan.modules options := by
  rw [mergeGroups_eq, eraseDups_paths_groups]
  simp only [List.map_append, List.map_map, List.map_cons, List.map_nil, Function.comp_def,
    itemsAt_groups_shared, itemsAt_groups_screen, itemsAt_groups_tracks, itemsAt_groups_traits]
  rfl

section Document

variable {formats : FormatRegistry} {definition : PlanDefinition} {plan : Plan}

/-- Merging keeps every item of every group in order, and the modules of a plan
are those of its parts, in the order of the document. -/
theorem modules_ofDefinition (hplan : ofDefinition formats definition = .ok plan)
    (options : LayoutOptions) :
    (∀ groups : List ModuleGroup,
      mergeGroups groups = (groups.map (·.path)).eraseDups.map (fun path =>
        ⟨path, (groups.filter (·.path == path)).flatMap (·.items)⟩) ∧
      mergeGroups (mergeGroups groups) = mergeGroups groups) ∧
    plan.tracks.map (·.event.key) = definition.tracks.keys ∧
    plan.screens.map (·.event.key) = definition.screens.keys ∧
    plan.definitions.map (·.name) = definition.definitions.keys ∧
    plan.traits.map (·.name) = definition.traits.keys ∧
    ∃ (groups : List ModuleGroup) (featureNames screenNames : Ty)
        (screenItems : Screen → List Item) (trackItems : Track → List Item),
      plan.toGroups options = .ok groups ∧
      namesType (plan.features.map (·.name)) = .ok featureNames ∧
      namesType (plan.screens.map (·.event.name)) = .ok screenNames ∧
      (∀ screen : Screen, screen.toItems (functionOptions options) plan = .ok (screenItems screen)) ∧
      (∀ track : Track, track.toItems (functionOptions options) plan = .ok (trackItems track)) ∧
      mergeGroups groups =
        [⟨[sharedDefinitions], [
            .comment "List of all the feature names", .typeAlias "FeatureNames" featureNames,
            .comment "List of all the screen names", .typeAlias "ScreenNames" screenNames] ++
          plan.definitions.flatMap fun type =>
            (type.description.map Item.comment).toList ++
              [.typeAlias type.name (type.type.toType .empty)]⟩] ++
        (plan.screens.map (·.event.exportName)).eraseDups.map (fun name =>
          ⟨["screens", name], (plan.screens.filter (·.event.exportName == name)).flatMap
            fun screen => moduleImports options 1 ++ screenItems screen⟩) ++
        [⟨["tracks"], moduleImports options 0 ++ plan.tracks.flatMap trackItems⟩,
          ⟨["shared-traits"], sharedImport 0 :: plan.traits.flatMap fun type =>
            (type.description.map Item.comment).toList ++
              [.typeAlias type.name (type.type.toType .shared)]⟩] := by
  obtain ⟨htracks, hscreens, hdefinitions, htraits⟩ := keys_of_ofDefinition hplan
  refine ⟨fun groups => ⟨mergeGroups_eq groups,
    mergeGroups_of_nodup (nodup_paths_mergeGroups groups)⟩, htracks, hscreens, hdefinitions,
    htraits, plan.groups options, _, _, fun screen => screen.items (functionOptions options) plan,
    fun track => track.event.trackItems (functionOptions options) (.ofTrack plan track),
    plan.toGroups_eq options, namesType_eq _, namesType_eq _,
    fun screen => screen.toItems_eq _ plan, fun track => track.toItems_eq _ plan, ?_⟩
  exact plan.mergeGroups_groups options

/-- Two screens whose keys name one module, with a track, a definition and a trait. -/
def homesOfOneName : PlanDefinition where
  tracks := ⟨[("tap", none)], by decide⟩
  screens := ⟨[("my home", some { EventDefinition.empty with tracks := ["tap"] }),
    ("start", none), ("myhome", none)], by decide⟩
  definitions := ⟨[("Id", { Fragment.empty with
    keywords := { Keywords.none with type := some "string" } })], by decide⟩
  traits := ⟨[("id", { Fragment.empty with
    keywords := { Keywords.none with reference := some "#/$defs/Id" } })], by decide⟩

def homesOfOneNamePlan : Plan :=
  let event (kind : EventKind) (key : String) : Event :=
    ⟨kind, key, key, none, false, none, ⟨[], false⟩, []⟩
  { features := []
    screens := [⟨event .screen "my home", [⟨event .track "tap", [⟨0⟩]⟩]⟩,
      ⟨event .screen "start", []⟩, ⟨event .screen "myhome", []⟩]
    tracks := [⟨event .track "tap", [⟨0⟩]⟩]
    definitions := [⟨"Id", .string none, none⟩]
    traits := [⟨"id", .reference ⟨"#/$defs/Id"⟩, none⟩] }

/-- The same screens, with a described definition and a described trait. -/
def describedTypes : PlanDefinition :=
  { homesOfOneName with
    definitions := ⟨[("Id", { Fragment.empty with
      keywords := { Keywords.none with type := some "string", description := some "A key" } })],
      by decide⟩
    traits := ⟨[
      ("id", { Fragment.empty with
        keywords := { Keywords.none with
          reference := some "#/$defs/Id", description := some "The key of a user" } }),
      ("vip", { Fragment.empty with
        keywords := { Keywords.none with type := some "boolean" } })], by decide⟩ }

def describedTypesPlan : Plan :=
  { homesOfOneNamePlan with
    definitions := [⟨"Id", .string none, some "A key"⟩]
    traits := [⟨"id", .reference ⟨"#/$defs/Id"⟩, some "The key of a user"⟩,
      ⟨"vip", .boolean, none⟩] }

theorem describedTypes_modules : ∃ groups home tap start other,
    ofDefinition .standard describedTypes = .ok describedTypesPlan ∧
    describedTypesPlan.toGroups ⟨some "./analytics", true⟩ = .ok groups ∧
    mergeGroups groups = [
      ⟨["shared-definitions"], [
        .comment "List of all the feature names", .typeAlias "FeatureNames" (.primitive .never),
        .comment "List of all the screen names", .typeAlias "ScreenNames" (.union [
          .literal (.string "my home"), .literal (.string "start"), .literal (.string "myhome")]),
        .comment "A key", .typeAlias "Id" (.primitive .string)]⟩,
      ⟨["screens", "myhome"], [
        .imported (.allAs "shared" "../shared-definitions"),
        .imported (.defaultAs "implementation" "../analytics"),
        .defaultExport home, .const "tap" tap,
        .imported (.allAs "shared" "../shared-definitions"),
        .imported (.defaultAs "implementation" "../analytics"), .defaultExport other]⟩,
      ⟨["screens", "start"], [
        .imported (.allAs "shared" "../shared-definitions"),
        .imported (.defaultAs "implementation" "../analytics"), .defaultExport start]⟩,
      ⟨["tracks"], [
        .imported (.allAs "shared" "./shared-definitions"),
        .imported (.defaultAs "implementation" "./analytics"), .const "tap" tap]⟩,
      ⟨["shared-traits"], [
        .imported (.allAs "shared" "./shared-definitions"),
        .comment "The key of a user", .typeAlias "id" (.qualified "shared" "Id"),
        .typeAlias "vip" (.primitive .boolean)]⟩] := by
  have hplan : ofDefinition .standard describedTypes = .ok describedTypesPlan := by cbv
  obtain ⟨-, -, -, -, -, groups, featureNames, screenNames, screenItems, trackItems, hgroups,
    hfeatureNames, hscreenNames, hscreens, htracks, hmodules⟩ :=
    modules_ofDefinition hplan ⟨some "./analytics", true⟩
  obtain rfl := Except.ok.inj ((namesType_eq _).symm.trans hfeatureNames)
  obtain rfl := Except.ok.inj ((namesType_eq _).symm.trans hscreenNames)
  obtain rfl := funext fun screen =>
    Except.ok.inj ((hscreens screen).symm.trans (screen.toItems_eq _ _))
  obtain rfl := funext fun track =>
    Except.ok.inj ((htracks track).symm.trans (track.toItems_eq _ _))
  refine ⟨groups, ?_⟩
  rw [hmodules]
  exact ⟨_, _, _, _, hplan, hgroups, rfl⟩

end Document

end Plan

end TrackingPlan
