import TrackingPlan.Proofs.Layout.Conformance

/-!
# Copies and their tracks

A screen holds a copy of each track that is fired on it, which happens under the
features of the screen. What the copy allows in a source is compared with what
the track allows. All screens of the copy are screens of the track. Its features
are features of the track as well, unless the screen has none, in which case the
copy leaves the choice between all features of the plan. Each of the two asks
for the names that it has no default for, and the track has fewer defaults.
-/

namespace TrackingPlan

open TypeScript

/-- A function can be called with the source. -/
def TypeScript.Arrow.TakesSource (function : Arrow) (scope : Scope) (source : Value) : Prop :=
  ∃ type, function.typeAt? "source" [] = some type ∧ type.Accepts scope source

/-- The type of the source of a function allows the text under the key. -/
def TypeScript.Arrow.AllowsName (function : Arrow) (scope : Scope) (key text : String) : Prop :=
  ∃ fields, function.typeAt? "source" [] = some (.object fields) ∧
    ∃ field ∈ fields, field.name = key ∧ field.type.Accepts scope (.string text)

section Function

variable {plan : Plan} {scope : Scope} {options : FunctionOptions}

theorem Event.takesSource_iff (hreaches : scope.Reaches options.mappings plan.sharedItems)
    (event : Event) (names : SourceNames) (entries : List (String × Value)) :
    (event.function options names).TakesSource scope (.object entries) ↔
      plan.Locates names entries := by
  rw [← Plan.accepts_source_iff hreaches, Arrow.TakesSource, event.typeAt?_source_nil]
  simp only [Option.some.injEq, exists_eq_left']

/-- A function allows under a key what the property with the key does. -/
theorem Event.allowsName_iff (event : Event) (names : SourceNames) (key text : String) :
    (event.function options names).AllowsName scope key text ↔
      ∃ property ∈ names.object.properties, property.name = key ∧
        (property.type.toType options.mappings).Accepts scope (.string text) := by
  rw [Arrow.AllowsName, event.typeAt?_source_nil, Record.toType_eq]
  simp only [Option.some.injEq, Ty.object.injEq, exists_eq_left', List.mem_map,
    exists_exists_and_eq_and]

theorem exists_string_eq_iff {names : List String} {text : String} :
    (∃ name ∈ names, Value.string text = .string name) ↔ text ∈ names := by
  simp only [Value.string, Value.literal.injEq, Literal.string.injEq, exists_eq_right']

theorem Event.allowsName_feature_iff (hreaches : scope.Reaches options.mappings plan.sharedItems)
    (event : Event) (names : SourceNames) (text : String) :
    (event.function options names).AllowsName scope "feature" text ↔
      text ∈ possibleNames plan.featureNames names.features := by
  rw [event.allowsName_iff, ← exists_string_eq_iff, ← Plan.accepts_feature_iff hreaches]
  simp [SourceNames.object, freeProperty]

theorem Event.allowsName_screen_iff (hreaches : scope.Reaches options.mappings plan.sharedItems)
    (event : Event) (names : SourceNames) (text : String) :
    (event.function options names).AllowsName scope "screen" text ↔
      text ∈ possibleNames plan.screenNames names.screens := by
  rw [event.allowsName_iff, ← exists_string_eq_iff, ← Plan.accepts_screen_iff hreaches]
  simp [SourceNames.object, freeProperty]

end Function

namespace Plan

section Assembled

variable {tracks screens : List Draft}

/-- A copy is a copy of the track with its key, which happens wherever the copy does. -/
theorem exists_track_of_mem_screen {screen : Screen}
    (hscreen : screen ∈ (assembled tracks screens).screens) {copy : Track}
    (hcopy : copy ∈ screen.tracks) :
    ∃ track, (assembled tracks screens).findTrack? copy.event.key = some track ∧
      (SourceNames.ofScreen (assembled tracks screens) screen).features ⊆
        (SourceNames.ofTrack (assembled tracks screens) track).features ∧
      screen.event.name ∈ (SourceNames.ofTrack (assembled tracks screens) track).screens := by
  obtain ⟨index, hindex, rfl⟩ := List.mem_mapIdx.mp hscreen
  simp only [Screen.assembled, List.mem_filterMap, Option.map_eq_some_iff] at hcopy
  obtain ⟨key, hkey, draft, hfind, rfl⟩ := hcopy
  obtain rfl : draft.event.key = key := by simpa using List.find?_some hfind
  have htrack := @findTrack?_assembled tracks screens draft.event.key
  rw [hfind, Option.map_some] at htrack
  have hlisting : screens[index] ∈ screens.filter (·.listed.contains draft.event.key) :=
    List.mem_filter.mpr ⟨List.getElem_mem hindex, List.contains_iff_mem.mpr hkey⟩
  refine ⟨_, htrack, ?_⟩
  rw [ofTrack_assembled (List.mem_of_find?_eq_some hfind),
    ofScreen_assembled (List.getElem_mem hindex)]
  constructor
  · intro name hname
    refine List.mem_eraseDups.mpr (List.mem_append_left _ ?_)
    exact List.mem_flatMap.mpr ⟨_, hlisting, List.mem_eraseDups.mp hname⟩
  · exact List.mem_eraseDups.mpr (List.mem_map.mpr ⟨_, hlisting, rfl⟩)

end Assembled

/-- Fewer names allow more only when there are none of them. -/
theorem possibleNames_subset_iff {all few many : List String} (hsubset : few ⊆ many) :
    (∀ name ∈ possibleNames all few, name ∈ possibleNames all many) ↔
      few ≠ [] ∨ many = [] ∨ ∀ name ∈ all, name ∈ many := by
  unfold possibleNames
  by_cases hfew : few = []
  · by_cases hmany : many = []
    · simp [hfew, hmany]
    · simp [hfew, hmany]
  · have hmany : many ≠ [] := fun hnil => hfew (List.subset_nil.mp (hnil ▸ hsubset))
    rw [if_neg hfew, if_neg hmany]
    exact iff_of_true hsubset (.inl hfew)

/-- Whether a source that says where one event happened also says so for another one. -/
theorem Locates.iff_of_locates {plan : Plan} {names others : SourceNames}
    {entries : List (String × Value)} (hlocates : plan.Locates names entries)
    (hscreens : ∀ name ∈ possibleNames plan.screenNames names.screens,
      name ∈ possibleNames plan.screenNames others.screens) :
    plan.Locates others entries ↔
      (∀ name, readEntry entries "feature" = .string name →
        name ∈ possibleNames plan.featureNames others.features) ∧
      (readEntry entries "feature" = .undefined → others.features.length = 1) ∧
      (readEntry entries "screen" = .undefined → others.screens.length = 1) := by
  constructor
  · intro hothers
    refine ⟨fun name hname => ?_, hothers.feature_left, hothers.screen_left⟩
    have hfeature := hothers.feature (by rw [hname]; nofun)
    rw [hname] at hfeature
    exact exists_string_eq_iff.mp hfeature
  · rintro ⟨hfeature, hfeatureLeft, hscreenLeft⟩
    refine ⟨fun hdefined => ?_, hfeatureLeft, fun hdefined => ?_, hscreenLeft, hlocates.rest⟩
    · obtain ⟨name, -, hname⟩ := hlocates.feature hdefined
      exact ⟨name, hfeature name hname, hname⟩
    · obtain ⟨name, hmem, hname⟩ := hlocates.screen hdefined
      exact ⟨name, hscreens name hmem, hname⟩

/-- What a copy on a screen allows in a source, against what its track allows. -/
structure ComparesTo (plan : Plan) (here there : Scope) (screen : Screen) (track : Track)
    (copied original : Arrow) : Prop where
  screens : ∀ text, copied.AllowsName here "screen" text → original.AllowsName there "screen" text
  features :
    (∀ text, copied.AllowsName here "feature" text → original.AllowsName there "feature" text) ↔
      (SourceNames.ofScreen plan screen).features ≠ [] ∨
        (SourceNames.ofTrack plan track).features = [] ∨
          ∀ name ∈ plan.featureNames, name ∈ (SourceNames.ofTrack plan track).features
  taken : ∀ entries, copied.TakesSource here (.object entries) →
    (original.TakesSource there (.object entries) ↔
      (∀ name, readEntry entries "feature" = .string name →
        original.AllowsName there "feature" name) ∧
      (readEntry entries "feature" = .undefined →
        (SourceNames.ofTrack plan track).features.length = 1) ∧
      (readEntry entries "screen" = .undefined →
        (SourceNames.ofTrack plan track).screens.length = 1))

section Document

variable {formats : FormatRegistry} {definition : PlanDefinition} {plan : Plan}

theorem comparesTo_function {options : FunctionOptions} {here there : Scope}
    (hhere : here.Reaches options.mappings plan.sharedItems)
    (hthere : there.Reaches options.mappings plan.sharedItems)
    {screen : Screen} {copy track : Track}
    (hcopy : SourceNames.ofTrack plan copy = SourceNames.ofScreen plan screen)
    (hfeatures : (SourceNames.ofScreen plan screen).features ⊆
      (SourceNames.ofTrack plan track).features)
    (hscreen : screen.event.name ∈ (SourceNames.ofTrack plan track).screens) :
    plan.ComparesTo here there screen track
      (copy.event.function options (.ofTrack plan copy))
      (track.event.function options (.ofTrack plan track)) := by
  have hscreens :
      ∀ name ∈ possibleNames plan.screenNames (SourceNames.ofScreen plan screen).screens,
        name ∈ possibleNames plan.screenNames (SourceNames.ofTrack plan track).screens :=
    (possibleNames_subset_iff (List.cons_subset.mpr ⟨hscreen, List.nil_subset _⟩)).mpr
      (.inl (List.cons_ne_nil _ _))
  rw [hcopy]
  refine ⟨fun text => ?_, ?_, fun entries htaken => ?_⟩
  · rw [Event.allowsName_screen_iff hhere, Event.allowsName_screen_iff hthere]
    exact hscreens text
  · simp only [Event.allowsName_feature_iff hhere, Event.allowsName_feature_iff hthere]
    exact possibleNames_subset_iff hfeatures
  · rw [Event.takesSource_iff hhere] at htaken
    simp only [Event.takesSource_iff hthere, Event.allowsName_feature_iff hthere]
    exact htaken.iff_of_locates hscreens

/-- Every copy on a screen is exported next to its screen, and its track with all tracks. The
copy allows no more screens than the track, and no more features if the screen has some. What it
can be called with, the track can be, except for what only the copy has a default for. -/
theorem copy_comparesTo_track (hplan : ofDefinition formats definition = .ok plan)
    (options : LayoutOptions) {screen : Screen} (hscreen : screen ∈ plan.screens) {copy : Track}
    (hcopy : copy ∈ screen.tracks) : ∃ track groups copied original,
    plan.findTrack? copy.event.key = some track ∧
    plan.toGroups options = .ok groups ∧
    copy.toFunction (functionOptions options) plan = .ok copied ∧
    track.toFunction (functionOptions options) plan = .ok original ∧
    HasItem (mergeGroups groups) ["screens", screen.event.exportName]
      (.const copy.event.exportName copied.toExpr) ∧
    HasItem (mergeGroups groups) ["tracks"] (.const copy.event.exportName original.toExpr) ∧
    ∀ here there : Scope, here.Reaches .shared plan.sharedItems →
      there.Reaches .shared plan.sharedItems →
      plan.ComparesTo here there screen track copied original := by
  obtain ⟨tracks, screens, definitions, traits, -, -, -, -, rfl⟩ := ofDefinition_eq_ok_iff.mp hplan
  obtain ⟨track, hfind, hfeatures, hscreens⟩ := exists_track_of_mem_screen hscreen hcopy
  have hkey : track.event.key = copy.event.key := by simpa using List.find?_some hfind
  refine ⟨track, _, _, _, hfind, toGroups_eq options _, trackingFunction_eq _ _ _,
    trackingFunction_eq _ _ _, hasItem_screen hscreen ?_, ?_, fun here there hhere hthere =>
      comparesTo_function hhere hthere ?_ hfeatures hscreens⟩
  · exact List.mem_append_right _ (List.mem_cons_of_mem _ (List.mem_flatMap.mpr
      ⟨copy, hcopy, List.mem_append_right _ List.mem_cons_self⟩))
  · rw [Event.exportName, ← hkey]
    exact hasItem_track (List.mem_of_find?_eq_some hfind)
      (List.mem_append_right _ List.mem_cons_self)
  · exact ofTrack_of_mem_screen hscreen hcopy

/-- A track on a screen without features and on one with a feature, and a feature elsewhere. -/
def gallery : PlanDefinition where
  tracks := ⟨[("Tap", some { EventDefinition.empty with features := ["own"] })], by decide⟩
  screens := ⟨[("Home", some { EventDefinition.empty with tracks := ["Tap"] }),
    ("Help", some { EventDefinition.empty with features := ["help"], tracks := ["Tap"] }),
    ("Other", some { EventDefinition.empty with features := ["more"] })], by decide⟩
  definitions := .empty
  traits := .empty

def galleryPlan : Plan := (ofDefinition .standard gallery).toOption.getD default

/-- A module that has nothing but the shared definitions of the gallery in reach. -/
def galleryScope : Scope := ⟨[], fun _ => galleryPlan.sharedItems⟩

theorem gallery_copy_comparesTo_track : ∃ track copied original,
    ofDefinition .standard gallery = .ok galleryPlan ∧
    galleryPlan.findTrack? "Tap" = some track ∧
    galleryPlan.screens[1].tracks[0].toFunction (functionOptions ⟨none, true⟩) galleryPlan =
      .ok copied ∧
    track.toFunction (functionOptions ⟨none, true⟩) galleryPlan = .ok original ∧
    galleryPlan.ComparesTo galleryScope galleryScope galleryPlan.screens[1] track copied original ∧
    ∀ text, copied.AllowsName galleryScope "feature" text →
      original.AllowsName galleryScope "feature" text := by
  have hplan : ofDefinition .standard gallery = .ok galleryPlan := rfl
  have hscreen : galleryPlan.screens[1] ∈ galleryPlan.screens := List.getElem_mem _
  have hcopy : galleryPlan.screens[1].tracks[0] ∈ galleryPlan.screens[1].tracks :=
    List.getElem_mem _
  obtain ⟨track, groups, copied, original, hfind, -, hcopied, horiginal, -, -, hcompares⟩ :=
    copy_comparesTo_track hplan ⟨none, true⟩ hscreen hcopy
  have hcompares := hcompares galleryScope galleryScope rfl rfl
  exact ⟨track, copied, original, hplan, hfind, hcopied, horiginal, hcompares,
    hcompares.features.mpr (.inl (by decide))⟩

/-- The copy on the screen without features takes a feature that its track does not, and the copy
on the other screen does without names that the track asks for. -/
theorem gallery_copies_wider : ∃ home help copyHome copyHelp track,
    ofDefinition .standard gallery = .ok galleryPlan ∧
    galleryScope.Reaches .shared galleryPlan.sharedItems ∧
    home ∈ galleryPlan.screens ∧ copyHome ∈ home.tracks ∧
    galleryPlan.findTrack? copyHome.event.key = some track ∧
    help ∈ galleryPlan.screens ∧ copyHelp ∈ help.tracks ∧
    galleryPlan.findTrack? copyHelp.event.key = some track ∧
    ∃ functionHome functionHelp original,
      copyHome.toFunction (functionOptions ⟨none, true⟩) galleryPlan = .ok functionHome ∧
      copyHelp.toFunction (functionOptions ⟨none, true⟩) galleryPlan = .ok functionHelp ∧
      track.toFunction (functionOptions ⟨none, true⟩) galleryPlan = .ok original ∧
      functionHome.AllowsName galleryScope "feature" "more" ∧
      ¬ original.AllowsName galleryScope "feature" "more" ∧
      functionHelp.TakesSource galleryScope (.object []) ∧
      ¬ original.TakesSource galleryScope (.object []) := by
  have hreaches : galleryScope.Reaches .shared galleryPlan.sharedItems := rfl
  refine ⟨galleryPlan.screens[0], galleryPlan.screens[1], galleryPlan.screens[0].tracks[0],
    galleryPlan.screens[1].tracks[0], galleryPlan.tracks[0], rfl, hreaches, List.getElem_mem _,
    List.getElem_mem _, rfl, List.getElem_mem _, List.getElem_mem _, rfl, _, _, _,
    trackingFunction_eq _ _ _, trackingFunction_eq _ _ _, trackingFunction_eq _ _ _, ?_, ?_, ?_, ?_⟩
  · rw [Event.allowsName_feature_iff hreaches]
    decide
  · rw [Event.allowsName_feature_iff hreaches]
    decide
  · rw [Event.takesSource_iff hreaches]
    refine ⟨fun hdefined => absurd rfl hdefined, fun _ => by decide,
      fun hdefined => absurd rfl hdefined, fun _ => by decide, fun _ _ hdefined => ?_⟩
    exact absurd rfl hdefined
  · rw [Event.takesSource_iff hreaches]
    exact fun hlocates => absurd (hlocates.feature_left rfl) (by decide)

end Document

end Plan

end TrackingPlan
