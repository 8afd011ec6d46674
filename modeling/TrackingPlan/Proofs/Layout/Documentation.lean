import TrackingPlan.Proofs.Layout.Items
import TrackingPlan.Proofs.Layout.Merging
import TrackingPlan.Proofs.Plan.Links
import TrackingPlan.Proofs.TypeScript.ModuleText

/-!
# Documentation of generated code

The description of a track, a screen, a definition or a trait becomes a comment on its
export. In every group of items each comment is followed by an export, so the two stay
together when groups with the same path are merged.
-/

namespace TrackingPlan

open TypeScript

section Merging

variable {groups : List ModuleGroup}

theorem attached_mergeGroups {describes : List String → String → Item → Prop}
    (hgroups : ∀ group ∈ groups, Attached (describes group.path) group.items) :
    ∀ group ∈ mergeGroups groups, Attached (describes group.path) group.items := by
  rw [mergeGroups_eq, List.forall_mem_map]
  intro path _
  refine Attached.flatMap fun group hgroup => ?_
  obtain ⟨hmem, hpath⟩ := List.mem_filter.mp hgroup
  obtain rfl : group.path = path := eq_of_beq hpath
  exact hgroups group hmem

/-- What is together in a group is together in its module. -/
theorem exists_infix_mergeGroups {group : ModuleGroup} (hgroup : group ∈ groups) {part : List Item}
    (hpart : part <:+: group.items) :
    ∃ merged ∈ mergeGroups groups, merged.path = group.path ∧ part <:+: merged.items := by
  have hpath : group.path ∈ (groups.map (·.path)).eraseDups :=
    List.mem_eraseDups.mpr (List.mem_map_of_mem hgroup)
  have hitems : group.items ∈ (groups.filter (·.path == group.path)).map (·.items) :=
    List.mem_map_of_mem (List.mem_filter.mpr ⟨hgroup, beq_self_eq_true _⟩)
  rw [mergeGroups_eq]
  exact ⟨_, List.mem_map_of_mem hpath, rfl, hpart.trans (List.infix_of_mem_flatten hitems)⟩

end Merging

section Items

variable {describes : String → Item → Prop}

theorem attached_commentItems {description : Option String} {item : Item}
    (hexport : item.isExport = true)
    (hdescribes : ∀ text, description = some text → describes text item) {rest : List Item}
    (hrest : Attached describes rest) :
    Attached describes (commentItems description ++ item :: rest) := by
  cases description with
  | none => exact .uncommented (Item.isComment_of_isExport hexport) hrest
  | some text => exact .commented (hdescribes text rfl) hexport hrest

theorem attached_moduleImports (options : LayoutOptions) (depth : Nat) :
    Attached describes (moduleImports options depth) := by
  refine .uncommented rfl (.of_no_comments fun item hitem => ?_)
  obtain ⟨path, -, rfl⟩ := Option.map_eq_some_iff.mp (Option.mem_toList.mp hitem)
  rfl

theorem infix_commentItems {description : Option String} {text : String}
    (htext : description = some text) (item : Item) (before rest : List Item) :
    [.comment text, item] <:+: before ++ (commentItems description ++ item :: rest) :=
  ⟨before, rest, by simp [commentItems, htext]⟩

end Items

namespace Plan

/-- In the module at the path, the item is the export of what the text is a description of. -/
inductive Describes (options : LayoutOptions) (plan : Plan) : List String → String → Item → Prop where
  | featureNames {type : Ty} (htype : namesType (plan.features.map (·.name)) = .ok type) :
      Describes options plan [sharedDefinitions] "List of all the feature names"
        (.typeAlias "FeatureNames" type)
  | screenNames {type : Ty} (htype : namesType (plan.screens.map (·.event.name)) = .ok type) :
      Describes options plan [sharedDefinitions] "List of all the screen names"
        (.typeAlias "ScreenNames" type)
  | screen {screen : Screen} {text : String} {function : Arrow} (hscreen : screen ∈ plan.screens)
      (htext : screen.event.description = some text)
      (hfunction : screen.toFunction (functionOptions options) plan = .ok function) :
      Describes options plan ["screens", screen.event.exportName] text
        (.defaultExport function.toExpr)
  | copy {screen : Screen} {copy : Track} {text : String} {function : Arrow}
      (hscreen : screen ∈ plan.screens) (hcopy : copy ∈ screen.tracks)
      (htext : copy.event.description = some text)
      (hfunction : copy.toFunction (functionOptions options) plan = .ok function) :
      Describes options plan ["screens", screen.event.exportName] text
        (.const copy.event.exportName function.toExpr)
  | track {track : Track} {text : String} {function : Arrow} (htrack : track ∈ plan.tracks)
      (htext : track.event.description = some text)
      (hfunction : track.toFunction (functionOptions options) plan = .ok function) :
      Describes options plan ["tracks"] text (.const track.event.exportName function.toExpr)
  | definition {type : NamedType} {text : String} (htype : type ∈ plan.definitions)
      (htext : type.description = some text) :
      Describes options plan [sharedDefinitions] text
        (.typeAlias type.name (type.type.toType .empty))
  | trait {type : NamedType} {text : String} (htype : type ∈ plan.traits)
      (htext : type.description = some text) :
      Describes options plan ["shared-traits"] text
        (.typeAlias type.name (type.type.toType .shared))

section Groups

variable (options : LayoutOptions) (plan : Plan)

theorem attached_screenItems {screen : Screen} (hscreen : screen ∈ plan.screens) :
    Attached (plan.Describes options ["screens", screen.event.exportName])
      (screen.items (functionOptions options) plan) := by
  refine attached_commentItems rfl (fun text htext => ?_) (Attached.flatMap fun copy hcopy => ?_)
  · exact .screen hscreen htext (trackingFunction_eq _ _ _)
  · refine attached_commentItems rfl (fun text htext => ?_) .nil
    exact .copy hscreen hcopy htext (trackingFunction_eq _ _ _)

theorem attached_groups : ∀ group ∈ plan.groups options,
    Attached (plan.Describes options group.path) group.items := by
  simp only [groups, List.forall_mem_append, List.forall_mem_map, List.forall_mem_cons,
    List.not_mem_nil, false_implies, implies_true, and_true]
  refine ⟨⟨⟨⟨⟨?names, ?screens⟩, ?imports⟩, ?tracks⟩, ?definitions⟩, ?traits⟩
  case names =>
    exact .commented (.featureNames (namesType_eq _)) rfl
      (.commented (.screenNames (namesType_eq _)) rfl .nil)
  case screens =>
    intro screen hscreen
    exact (attached_moduleImports options 1).append (attached_screenItems options plan hscreen)
  case imports => exact ⟨attached_moduleImports options 0, .uncommented rfl .nil⟩
  case tracks =>
    intro track htrack
    refine attached_commentItems rfl (fun text htext => ?_) .nil
    exact .track htrack htext (trackingFunction_eq _ _ _)
  case definitions =>
    intro type htype
    exact attached_commentItems rfl (fun text htext => .definition htype htext) .nil
  case traits =>
    intro type htype
    exact attached_commentItems rfl (fun text htext => .trait htype htext) .nil

/-- The export of a copy is among those of its screen. -/
theorem infix_screenItems {screen : Screen} {copy : Track} (hcopy : copy ∈ screen.tracks)
    {text : String} (htext : copy.event.description = some text) :
    [.comment text, .const copy.event.exportName
      (copy.event.function (functionOptions options) (.ofTrack plan copy)).toExpr] <:+:
        screen.items (functionOptions options) plan := by
  have hcopies : copy.event.trackItems (functionOptions options) (.ofTrack plan copy) <:+:
      screen.tracks.flatMap fun track =>
        track.event.trackItems (functionOptions options) (.ofTrack plan track) :=
    List.infix_of_mem_flatten (List.mem_map_of_mem hcopy)
  rw [Screen.items, List.append_cons]
  exact ((infix_commentItems htext _ [] []).trans hcopies).trans (List.suffix_append _ _).isInfix

theorem exists_infix_groups {path : List String} {text : String} {item : Item}
    (hdescribes : plan.Describes options path text item) :
    ∃ group ∈ plan.groups options, group.path = path ∧ [.comment text, item] <:+: group.items := by
  simp only [groups, List.mem_append, or_assoc]
  cases hdescribes with
  | featureNames htype =>
      obtain rfl := Except.ok.inj ((namesType_eq _).symm.trans htype)
      exact ⟨_, .inl (List.mem_singleton_self _), rfl, [], _, rfl⟩
  | screenNames htype =>
      obtain rfl := Except.ok.inj ((namesType_eq _).symm.trans htype)
      exact ⟨_, .inl (List.mem_singleton_self _), rfl, plan.namesItems.take 2, [], rfl⟩
  | screen hscreen htext hfunction =>
      obtain rfl := Except.ok.inj ((trackingFunction_eq _ _ _).symm.trans hfunction)
      refine ⟨_, .inr (.inl (List.mem_map_of_mem hscreen)), rfl, ?_⟩
      exact infix_commentItems htext _ (moduleImports options 1) _
  | copy hscreen hcopy htext hfunction =>
      obtain rfl := Except.ok.inj ((trackingFunction_eq _ _ _).symm.trans hfunction)
      refine ⟨_, .inr (.inl (List.mem_map_of_mem hscreen)), rfl, ?_⟩
      exact (infix_screenItems options plan hcopy htext).trans (List.suffix_append _ _).isInfix
  | track htrack htext hfunction =>
      obtain rfl := Except.ok.inj ((trackingFunction_eq _ _ _).symm.trans hfunction)
      refine ⟨_, .inr (.inr (.inr (.inl (List.mem_map_of_mem htrack)))), rfl, ?_⟩
      exact infix_commentItems htext _ [] []
  | definition htype htext =>
      refine ⟨_, .inr (.inr (.inr (.inr (.inl (List.mem_map_of_mem htype))))), rfl, ?_⟩
      exact infix_commentItems htext _ [] []
  | trait htype htext =>
      refine ⟨_, .inr (.inr (.inr (.inr (.inr (List.mem_map_of_mem htype))))), rfl, ?_⟩
      exact infix_commentItems htext _ [] []

end Groups

/-- The modules have the descriptions of a plan with the exports of what is described. -/
structure DocumentedModules (options : LayoutOptions) (plan : Plan) (modules : List ModuleGroup) :
    Prop where
  /-- Behind every comment is the export that it was made for, on the next line of the text. -/
  attached : ∀ group ∈ modules, ∀ before text after,
    group.items = before ++ .comment text :: after →
      ∃ item rest, after = item :: rest ∧ item.isExport = true ∧
        plan.Describes options group.path text item ∧ PrintedUnder before text item rest
  /-- No description is left out. -/
  described : ∀ path text item, plan.Describes options path text item →
    ∃ group ∈ modules, group.path = path ∧ [.comment text, item] <:+: group.items

theorem documentedModules_mergeGroups (options : LayoutOptions) (plan : Plan) :
    DocumentedModules options plan (mergeGroups (plan.groups options)) where
  attached := by
    intro group hgroup before text after heq
    have hattached := attached_mergeGroups (attached_groups options plan) group hgroup
    obtain ⟨item, rest, hafter, hdescribes, hexport⟩ := hattached.exists_of_comment heq
    exact ⟨item, rest, hafter, hexport, hdescribes,
      printedUnder_of_isExport before text hexport rest⟩
  described := by
    intro path text item hdescribes
    obtain ⟨group, hgroup, rfl, hpart⟩ := exists_infix_groups options plan hdescribes
    exact exists_infix_mergeGroups hgroup hpart

section Document

variable {formats : FormatRegistry} {definition : PlanDefinition} {plan : Plan}

/-- The plan has the descriptions of the document. -/
structure DescribedAs (definition : PlanDefinition) (plan : Plan) : Prop where
  tracks_eq : plan.tracks.map (fun track => (track.event.key, track.event.description)) =
    definition.tracks.entries.map fun entry => (entry.1, (entry.2.getD .empty).description)
  screens_eq : plan.screens.map (fun screen => (screen.event.key, screen.event.description)) =
    definition.screens.entries.map fun entry => (entry.1, (entry.2.getD .empty).description)
  definitions_eq : plan.definitions.map (fun type => (type.name, type.description)) =
    definition.definitions.entries.map fun entry => (entry.1, entry.2.keywords.description)
  traits_eq : plan.traits.map (fun type => (type.name, type.description)) =
    definition.traits.entries.map fun entry => (entry.1, entry.2.keywords.description)
  /-- A copy is described as its track is. -/
  copies : ∀ screen ∈ plan.screens, ∀ copy ∈ screen.tracks, ∃ track ∈ plan.tracks,
    copy.event.key = track.event.key ∧ copy.event.description = track.event.description

theorem ofDefinition_describedAs (hplan : ofDefinition formats definition = .ok plan) :
    plan.DescribedAs definition := by
  obtain ⟨tracks, screens, definitions, traits, htracks, hscreens, hdefinitions, htraits, rfl⟩ :=
    ofDefinition_eq_ok_iff.mp hplan
  exact {
    tracks_eq := by
      rw [← map_trackDrafts (fun draft => (draft.event.key, draft.event.description)) _ htracks
        fun _ _ => rfl]
      simp [assembled, Track.assembled, Draft.linked]
    screens_eq := by
      rw [← map_screenDrafts (fun draft => (draft.event.key, draft.event.description)) _ hscreens
        fun _ _ => rfl]
      refine List.ext_getElem (by simp [assembled]) fun index hlt hlt' => ?_
      simp [assembled, Screen.assembled, Draft.linked]
    definitions_eq := descriptions_of_namedTypes formats hdefinitions
    traits_eq := descriptions_of_namedTypes formats htraits
    copies := by
      intro screen hscreen copy hcopy
      obtain ⟨index, hindex, rfl⟩ := List.mem_mapIdx.mp hscreen
      simp only [Screen.assembled, List.mem_filterMap, Option.map_eq_some_iff] at hcopy
      obtain ⟨key, -, draft, hfind, rfl⟩ := hcopy
      exact ⟨_, List.mem_map_of_mem (List.mem_of_find?_eq_some hfind), rfl, rfl⟩ }

/-- The text of two lists of items is that of both, with an empty line in between unless they
belong together there. In the modules of a document every comment is right over its export. -/
theorem moduleText_keeps_documentation :
    (∀ (first second : List Item) (hfirst : first ≠ []) (hsecond : second ≠ []),
      moduleText (first ++ second) = moduleText first ++
        (if (first.getLast hfirst).isComment ∨
          (first.getLast hfirst).isImport ∧ (second.head hsecond).isImport then "" else "\n") ++
        moduleText second) ∧
    ∀ (formats : FormatRegistry) (definition : PlanDefinition) (plan : Plan),
      ofDefinition formats definition = .ok plan → plan.DescribedAs definition ∧
        ∀ options : LayoutOptions, ∃ groups, plan.toGroups options = .ok groups ∧
          DocumentedModules options plan (mergeGroups groups) := by
  refine ⟨fun first second hfirst hsecond => ?_, fun formats definition plan hplan => ?_⟩
  · rw [moduleText_append hfirst hsecond, separator_eq]
  · exact ⟨ofDefinition_describedAs hplan, fun options =>
      ⟨_, plan.toGroups_eq options, documentedModules_mergeGroups options plan⟩⟩

/-- Two described screens whose keys name one module. -/
def describedHomes : PlanDefinition where
  tracks := .empty
  screens := ⟨[("my home", some { EventDefinition.empty with description := some "Mine" }),
    ("myhome", some { EventDefinition.empty with description := some "Ours" })], by decide⟩
  definitions := .empty
  traits := .empty

def describedHomesPlan : Plan :=
  let home (key description : String) : Screen :=
    ⟨⟨.screen, key, key, some description, false, none, ⟨[], false⟩, []⟩, []⟩
  { Plan.empty with screens := [home "my home" "Mine", home "myhome" "Ours"] }

theorem describedHomes_documented : ∃ groups mine ours,
    ofDefinition .standard describedHomes = .ok describedHomesPlan ∧
    describedHomesPlan.DescribedAs describedHomes ∧
    describedHomesPlan.toGroups ⟨none, true⟩ = .ok groups ∧
    DocumentedModules ⟨none, true⟩ describedHomesPlan (mergeGroups groups) ∧
    ∃ group ∈ mergeGroups groups, group.path = ["screens", "myhome"] ∧
      moduleText group.items =
        moduleText [sharedImport 1, .comment "Mine", .defaultExport mine] ++ "\n" ++
          moduleText [sharedImport 1, .comment "Ours", .defaultExport ours] := by
  have hplan : ofDefinition .standard describedHomes = .ok describedHomesPlan := rfl
  obtain ⟨happend, hdocumented⟩ := moduleText_keeps_documentation
  obtain ⟨hdescribed, hmodules⟩ := hdocumented .standard describedHomes describedHomesPlan hplan
  obtain ⟨groups, hgroups, hdocumented⟩ := hmodules ⟨none, true⟩
  obtain rfl := Except.ok.inj ((toGroups_eq _ _).symm.trans hgroups)
  have hgroup : ∃ mine ours, ModuleGroup.mk ["screens", "myhome"]
      ([sharedImport 1, .comment "Mine", .defaultExport mine] ++
        [sharedImport 1, .comment "Ours", .defaultExport ours]) ∈
      mergeGroups (describedHomesPlan.groups ⟨none, true⟩) :=
    ⟨_, _, List.mem_cons_of_mem _ List.mem_cons_self⟩
  obtain ⟨mine, ours, hgroup⟩ := hgroup
  exact ⟨_, mine, ours, hplan, hdescribed, hgroups, hdocumented, _, hgroup, rfl,
    happend _ _ (List.cons_ne_nil _ _) (List.cons_ne_nil _ _)⟩

end Document

end Plan

end TrackingPlan
