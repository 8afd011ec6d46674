import TrackingPlan.Proofs.Layout.References
import TrackingPlan.Proofs.Plan.Sources

/-!
# Narrowed sources

The type of the source of an event allows for each kind of name those that the
event can happen under, and all of the plan where there are none. So every name
in it is one of those declared for the whole plan, and every declared name is
one that some event can happen under.
-/

namespace TrackingPlan

open TypeScript

/-- The type that is declared first under the name. -/
def declaredType? (items : List Item) (name : String) : Option Ty :=
  items.findSome? fun
    | .typeAlias other type => if other = name then some type else none
    | _ => none

namespace TypeScript

/-- A type allows a string, where qualified names are those of the shared definitions. -/
inductive Ty.Allows (shared : List Item) (text : String) : Ty → Prop where
  | string : Allows shared text (.primitive .string)
  | literal : Allows shared text (.literal (.string text))
  | union {options : List Ty} {option : Ty} (hoption : option ∈ options)
      (hallows : Allows shared text option) : Allows shared text (.union options)
  | qualified {name : String} {type : Ty} (hdeclared : declaredType? shared name = some type)
      (hallows : Allows shared text type) : Allows shared text (.qualified sharedAlias name)

/-- A string is one of the constants in a type. -/
def Ty.Mentions (type : Ty) (text : String) : Prop :=
  ∃ path, type.at? path = some (.literal (.string text))

/-- The items declare the type of all names, and it has these names and no others. -/
structure Ty.Enumerates (shared : List Item) (name : String) (known : List String) (type : Ty) :
    Prop where
  declared : declaredType? shared name = some type
  mentions_iff : ∀ text, type.Mentions text ↔ text ∈ known
  allows_iff : ∀ text, type.Allows shared text ↔ text ∈ known

/-- A property that leaves the choice between the names, or between all that are declared
when there are none. -/
structure TypeField.NarrowedTo (shared : List Item) (all : Ty) (known names : List String)
    (field : TypeField Ty) : Prop where
  names_known : ∀ name ∈ names, name ∈ known
  allows_iff : ∀ text, field.type.Allows shared text ↔
    if names = [] then all.Allows shared text else text ∈ names
  eq_nil_of_not_allows : (∀ text, ¬ field.type.Allows shared text) → known = []
  optional_iff : field.optional = true ↔ names.length = 1

section Allows

variable {shared : List Item} {text : String}

theorem Ty.allows_literal_iff {name : String} :
    Allows shared text (.literal (.string name)) ↔ text = name := by
  constructor
  · rintro ⟨⟩
    rfl
  · rintro rfl
    exact .literal

theorem Ty.allows_union_iff {options : List Ty} :
    Allows shared text (.union options) ↔ ∃ option ∈ options, option.Allows shared text := by
  constructor
  · rintro (_ | _ | ⟨hoption, hallows⟩)
    exact ⟨_, hoption, hallows⟩
  · rintro ⟨option, hoption, hallows⟩
    exact .union hoption hallows

theorem Ty.allows_qualified_iff {name : String} {type : Ty}
    (hdeclared : declaredType? shared name = some type) :
    Allows shared text (.qualified sharedAlias name) ↔ type.Allows shared text := by
  constructor
  · rintro (_ | _ | _ | ⟨hother, hallows⟩)
    rw [hdeclared] at hother
    obtain rfl := Option.some.inj hother
    exact hallows
  · exact fun hallows => .qualified hdeclared hallows

end Allows

end TypeScript

section Names

variable {shared : List Item} {text : String}

theorem allows_namesUnion_iff {names : List String} :
    (namesUnion names).Allows shared text ↔ text ∈ names := by
  rcases names with _ | ⟨first, _ | ⟨second, others⟩⟩
  · refine ⟨fun hallows => ?_, fun hmem => absurd hmem List.not_mem_nil⟩
    cases hallows
  · rw [namesUnion, Ty.allows_literal_iff, List.mem_singleton]
  · rw [namesUnion, Ty.allows_union_iff]
    simp only [List.mem_map, exists_exists_and_eq_and, Ty.allows_literal_iff, exists_eq_right']

/-- A constant of a narrowed property is one of the names. -/
theorem mem_of_at?_narrowedShape {mappings : ImportMappings} {all : Reference}
    {names : List String} {path : List Step} {part : Shape}
    (hat : (narrowedShape all names).at? path = some part)
    (htype : part.toType mappings = .literal (.string text)) : text ∈ names := by
  rcases at?_narrowedShape hat with ⟨-, rfl⟩ | ⟨name, hname, rfl⟩
  · rcases names with _ | ⟨first, _ | ⟨second, others⟩⟩
    · rw [narrowedShape, Shape.toType, Reference.toType] at htype
      split at htype <;> cases htype
    · obtain ⟨⟩ := htype
      exact List.mem_cons_self
    · rw [narrowedShape, Shape.toType_union] at htype
      cases htype
  · obtain ⟨⟩ := htype
    exact hname

theorem mentions_namesUnion_iff {names : List String} :
    (namesUnion names).Mentions text ↔ text ∈ names := by
  constructor
  · rintro ⟨path, hat⟩
    by_cases hnames : names = []
    · subst hnames
      cases path <;> simp [namesUnion, Ty.at?] at hat
    · rw [← toType_narrowedShape .empty featureNamesReference hnames, Shape.at?_toType,
        Option.map_eq_some_iff] at hat
      obtain ⟨part, hpart, htype⟩ := hat
      exact mem_of_at?_narrowedShape hpart htype
  · intro hmem
    rcases names with _ | ⟨first, _ | ⟨second, others⟩⟩
    · cases hmem
    · obtain rfl := List.mem_singleton.mp hmem
      exact ⟨[], by simp [namesUnion, Ty.at?]⟩
    · obtain ⟨index, hindex⟩ := List.mem_iff_getElem?.mp hmem
      refine ⟨[.option index], ?_⟩
      rw [namesUnion, Ty.at?, List.getElem?_map, hindex]
      simp [Ty.at?]

/-- A narrowed property allows its names, and without names it allows all of them. -/
theorem narrowedTo_toType {name : String} (hname : '/' ∉ name.toList) {all : Ty}
    {known names : List String} (hall : all.Enumerates shared name known)
    (hnames : ∀ name ∈ names, name ∈ known) (property : String) :
    (TypeField.mk property ((narrowedShape ⟨definitionPath name⟩ names).toType .shared)
      (!(names.length != 1))).NarrowedTo shared all known names := by
  have hallows : ∀ text,
      ((narrowedShape ⟨definitionPath name⟩ names).toType .shared).Allows shared text ↔
        if names = [] then all.Allows shared text else text ∈ names := by
    intro text
    by_cases hempty : names = []
    -- Without names of its own, the property refers to the declared type.
    · subst hempty
      rw [if_pos rfl, narrowedShape, Shape.toType, Reference.toType_shared hname,
        Ty.allows_qualified_iff hall.declared]
    · rw [if_neg hempty, toType_narrowedShape _ _ hempty, allows_namesUnion_iff]
  refine ⟨hnames, hallows, fun hnone => ?_, by simp⟩
  cases names with
  | nil =>
      refine List.eq_nil_iff_forall_not_mem.mpr fun text hknown => hnone text ?_
      exact (hallows text).mpr ((hall.allows_iff text).mpr hknown)
  | cons name rest =>
      refine absurd ((hallows name).mpr ?_) (hnone name)
      rw [if_neg (List.cons_ne_nil _ _)]
      exact List.mem_cons_self

/-- The type of the names is the first that is declared under its name. -/
theorem enumerates_namesUnion {name : String} {known : List String}
    (hdeclared : declaredType? shared name = some (namesUnion known)) :
    (namesUnion known).Enumerates shared name known :=
  ⟨hdeclared, fun _ => mentions_namesUnion_iff, fun _ => allows_namesUnion_iff⟩

end Names

namespace Plan

/-- The names of all features of a plan. -/
def featureNames (plan : Plan) : List String := plan.features.map (·.name)

/-- The names under which the screens of a plan are reported. -/
def screenNames (plan : Plan) : List String := plan.screens.map (·.event.name)

/-- The type of the source of a function is narrowed to the names that its event can happen
under. -/
structure SourceNarrowed (plan : Plan) (shared : List Item) (features screens : Ty)
    (names : SourceNames) (function : Arrow) : Prop where
  mentions : ∀ path text, function.typeAt? "source" path = some (.literal (.string text)) →
    path.head? = some (.field 0) ∧ features.Mentions text ∨
      path.head? = some (.field 1) ∧ screens.Mentions text
  narrowed : ∃ feature screen others,
    function.typeAt? "source" [] = some (.object (feature :: screen :: others)) ∧
      (feature :: screen :: others).map (·.name) =
        ["feature", "screen", "widget", "element", "action"] ∧
      feature.NarrowedTo shared features plan.featureNames names.features ∧
      screen.NarrowedTo shared screens plan.screenNames names.screens

variable {plan : Plan}

theorem mem_featureNames_of_ids {ids : List FeatureId} {name : String}
    (hname : name ∈ SourceNames.featureNames plan ids) : name ∈ plan.featureNames := by
  obtain ⟨id, -, hname⟩ := List.mem_filterMap.mp hname
  obtain ⟨feature, hfeature, rfl⟩ := Option.map_eq_some_iff.mp hname
  exact List.mem_map.mpr ⟨feature, List.mem_of_getElem? hfeature, rfl⟩

/-- A track happens under names of its plan only. -/
theorem ofTrack_known (plan : Plan) (track : Track) :
    (∀ name ∈ (SourceNames.ofTrack plan track).features, name ∈ plan.featureNames) ∧
      ∀ name ∈ (SourceNames.ofTrack plan track).screens, name ∈ plan.screenNames := by
  constructor
  · intro name hname
    rcases List.mem_append.mp (List.mem_eraseDups.mp hname) with hname | hname
    · obtain ⟨screen, -, hname⟩ := List.mem_flatMap.mp hname
      exact mem_featureNames_of_ids hname
    · exact mem_featureNames_of_ids hname
  · intro name hname
    obtain ⟨screen, hscreen, rfl⟩ := List.mem_map.mp (List.mem_eraseDups.mp hname)
    obtain ⟨id, -, hscreen⟩ := List.mem_filterMap.mp hscreen
    exact List.mem_map.mpr ⟨screen, List.mem_of_getElem? hscreen, rfl⟩

theorem ofScreen_known {screen : Screen} (hscreen : screen ∈ plan.screens) :
    (∀ name ∈ (SourceNames.ofScreen plan screen).features, name ∈ plan.featureNames) ∧
      ∀ name ∈ (SourceNames.ofScreen plan screen).screens, name ∈ plan.screenNames := by
  constructor
  · intro name hname
    exact mem_featureNames_of_ids (List.mem_eraseDups.mp hname)
  · intro name hname
    obtain rfl := List.mem_singleton.mp hname
    exact List.mem_map.mpr ⟨screen, hscreen, rfl⟩

theorem sourceNarrowed_function {shared : List Item} {features screens : Ty}
    (hfeatures : features.Enumerates shared "FeatureNames" plan.featureNames)
    (hscreens : screens.Enumerates shared "ScreenNames" plan.screenNames) (event : Event)
    {options : FunctionOptions} (hmappings : options.mappings = .shared) {names : SourceNames}
    (hnames : (∀ name ∈ names.features, name ∈ plan.featureNames) ∧
      ∀ name ∈ names.screens, name ∈ plan.screenNames) :
    plan.SourceNarrowed shared features screens names (event.function options names) where
  mentions := by
    intro path text hat
    rw [event.typeAt?_source, hmappings, Option.map_eq_some_iff] at hat
    obtain ⟨part, hpart, htype⟩ := hat
    rcases SourceNames.at?_object hpart with ⟨-, rfl⟩ | ⟨rest, rfl, hat⟩ | ⟨rest, rfl, hat⟩ | rfl
    · cases htype
    · have hmem := mem_of_at?_narrowedShape hat htype
      exact .inl ⟨rfl, (hfeatures.mentions_iff text).mpr (hnames.1 text hmem)⟩
    · have hmem := mem_of_at?_narrowedShape hat htype
      exact .inr ⟨rfl, (hscreens.mentions_iff text).mpr (hnames.2 text hmem)⟩
    · cases htype
  narrowed := by
    rw [event.typeAt?_source_nil, hmappings, Record.toType_eq]
    exact ⟨_, _, _, rfl, rfl, narrowedTo_toType (by decide) hfeatures hnames.1 "feature",
      narrowedTo_toType (by decide) hscreens hnames.2 "screen"⟩

section Document

variable {formats : FormatRegistry} {definition : PlanDefinition}

/-- Every feature of a plan is a name under which a screen or a track can happen. -/
theorem mem_source_of_feature (hplan : ofDefinition formats definition = .ok plan) {name : String}
    (hname : name ∈ plan.featureNames) :
    (∃ screen ∈ plan.screens, name ∈ (SourceNames.ofScreen plan screen).features) ∨
      ∃ track ∈ plan.tracks, name ∈ (SourceNames.ofTrack plan track).features := by
  obtain ⟨tracks, screens, definitions, traits, -, -, -, -, rfl⟩ := ofDefinition_eq_ok_iff.mp hplan
  have hmention : name ∈ (Draft.allMentions (tracks ++ screens)).eraseDups :=
    assembled_names tracks screens ▸ hname
  -- A name is a feature because an event mentions it, so it is a source of that event.
  obtain ⟨draft, hdraft, hname⟩ := List.mem_flatMap.mp (List.mem_eraseDups.mp hmention)
  rcases List.mem_append.mp hdraft with hdraft | hdraft
  · refine .inr ⟨_, List.mem_map_of_mem hdraft, ?_⟩
    have hsource := @ofTrack_assembled tracks screens draft hdraft
    refine (congrArg (name ∈ ·.features) hsource).mpr ?_
    exact List.mem_eraseDups.mpr (List.mem_append_right _ hname)
  · obtain ⟨index, hindex, rfl⟩ := List.mem_iff_getElem.mp hdraft
    refine .inl ⟨_, List.mem_mapIdx.mpr ⟨index, hindex, rfl⟩, ?_⟩
    have hsource := @ofScreen_assembled tracks screens _ hdraft index
    refine (congrArg (name ∈ ·.features) hsource).mpr ?_
    exact List.mem_eraseDups.mpr hname

/-- Sources are narrowed to names that are declared for the whole plan, and all of these can
occur in a source. -/
theorem sources_narrowed (hplan : ofDefinition formats definition = .ok plan)
    (options : LayoutOptions) : ∃ groups shared features screens,
    plan.toGroups options = .ok groups ∧
    ⟨[sharedDefinitions], shared⟩ ∈ mergeGroups groups ∧
    features.Enumerates shared "FeatureNames" plan.featureNames ∧
    screens.Enumerates shared "ScreenNames" plan.screenNames ∧
    (∀ track ∈ plan.tracks, ∃ function,
      track.toFunction (functionOptions options) plan = .ok function ∧
      plan.SourceNarrowed shared features screens (.ofTrack plan track) function) ∧
    (∀ screen ∈ plan.screens, ∃ function,
      screen.toFunction (functionOptions options) plan = .ok function ∧
      plan.SourceNarrowed shared features screens (.ofScreen plan screen) function) ∧
    (∀ screen ∈ plan.screens, ∀ copy ∈ screen.tracks, ∃ function,
      copy.toFunction (functionOptions options) plan = .ok function ∧
      plan.SourceNarrowed shared features screens (.ofTrack plan copy) function) ∧
    (∀ name, features.Mentions name →
      (∃ screen ∈ plan.screens, name ∈ (SourceNames.ofScreen plan screen).features) ∨
        ∃ track ∈ plan.tracks, name ∈ (SourceNames.ofTrack plan track).features) ∧
    ∀ name, screens.Mentions name →
      ∃ screen ∈ plan.screens, name ∈ (SourceNames.ofScreen plan screen).screens := by
  let shared := plan.namesItems ++ plan.definitions.flatMap (·.toItems .empty)
  have hfeatures : (namesUnion plan.featureNames).Enumerates shared "FeatureNames"
      plan.featureNames := enumerates_namesUnion rfl
  have hscreens : (namesUnion plan.screenNames).Enumerates shared "ScreenNames"
      plan.screenNames := enumerates_namesUnion rfl
  refine ⟨_, shared, _, _, plan.toGroups_eq options, ?_, hfeatures, hscreens, ?tracks, ?screens,
    ?copies, fun name hname => mem_source_of_feature hplan ((hfeatures.mentions_iff name).mp hname),
    ?_⟩
  · rw [mergeGroups_groups]
    exact List.mem_append_left _ (List.mem_append_left _ List.mem_cons_self)
  case tracks =>
    exact fun track _ => ⟨_, trackingFunction_eq _ _ _,
      sourceNarrowed_function hfeatures hscreens _ rfl (ofTrack_known plan track)⟩
  case screens =>
    exact fun screen hscreen => ⟨_, trackingFunction_eq _ _ _,
      sourceNarrowed_function hfeatures hscreens _ rfl (ofScreen_known hscreen)⟩
  case copies =>
    exact fun screen _ copy _ => ⟨_, trackingFunction_eq _ _ _,
      sourceNarrowed_function hfeatures hscreens _ rfl (ofTrack_known plan copy)⟩
  · intro name hname
    obtain ⟨screen, hscreen, rfl⟩ := List.mem_map.mp ((hscreens.mentions_iff name).mp hname)
    exact ⟨screen, hscreen, List.mem_cons_self⟩

/-- A track on a screen, a track on none, and a screen without features. -/
def shop : PlanDefinition where
  tracks := ⟨[("tap", some { EventDefinition.empty with features := ["own"] }), ("lone", none)],
    by decide⟩
  screens := ⟨[("home", some { EventDefinition.empty with
    name := some "Home", features := ["start"], tracks := ["tap"] }), ("help", none)], by decide⟩
  definitions := .empty
  traits := .empty

theorem shop_sources_narrowed : ∃ plan groups shared features screens,
    ofDefinition .standard shop = .ok plan ∧
    plan.toGroups ⟨none, false⟩ = .ok groups ∧
    ⟨[sharedDefinitions], shared⟩ ∈ mergeGroups groups ∧
    features.Enumerates shared "FeatureNames" ["own", "start"] ∧
    screens.Enumerates shared "ScreenNames" ["Home", "help"] ∧
    plan.tracks.map (SourceNames.ofTrack plan) = [⟨["start", "own"], ["Home"]⟩, ⟨[], []⟩] ∧
    ∀ track ∈ plan.tracks, ∃ function,
      track.toFunction (functionOptions ⟨none, false⟩) plan = .ok function ∧
      plan.SourceNarrowed shared features screens (.ofTrack plan track) function := by
  have hplan : ofDefinition .standard shop = .ok _ := rfl
  obtain ⟨groups, shared, features, screens, hgroups, hshared, hfeatures, hscreens, htracks, -⟩ :=
    sources_narrowed hplan ⟨none, false⟩
  exact ⟨_, groups, shared, features, screens, hplan, hgroups, hshared, hfeatures, hscreens,
    by decide, htracks⟩

end Document

end Plan

end TrackingPlan
