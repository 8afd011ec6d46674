import TrackingPlan.Proofs.Layout.Conformance

/-!
# Reported sources

A function reports the source that it is called with, and fills in the feature
and the screen where only one is possible. The type of the source asks for
exactly those that cannot be filled in, so what is reported always says where
the event happened. What is given wins also where it is an undefined feature or
screen, which the type takes for one that is left out.
-/

namespace TrackingPlan

open TypeScript

/-- The name that is the only one. -/
def onlyName? : List String → Option String
  | [name] => some name
  | _ => none

/-- What is known under a key in advance. -/
def knownEntry (property : String) (names : List String) : List (String × Value) :=
  (onlyName? names).toList.map fun name => (property, .string name)

theorem lookup_knownEntry (property : String) (names : List String) (key : String) :
    (knownEntry property names).lookup key =
      if key = property then (onlyName? names).map .string else none := by
  unfold knownEntry
  cases onlyName? names with
  | none => simp
  | some name =>
      rw [Option.toList_some, List.map_singleton, List.lookup_cons]
      by_cases hkey : key = property
      · simp [hkey]
      · rw [beq_false_of_ne hkey, if_neg hkey, List.lookup_nil]

/-- The member for a name that is the only one is its entry. -/
theorem entries?_knownMembers (bound entries : List (String × Value)) (property : String)
    (names : List String) (rest : List Member) :
    entries? bound entries (knownMembers property names ++ rest) =
      entries? bound (assignAll (knownEntry property names) entries) rest := by
  rcases names with _ | ⟨first, _ | ⟨second, others⟩⟩ <;> rfl

namespace SourceNames

/-- The only name that an event can happen under, for a key of its source. -/
def only? (names : SourceNames) (key : String) : Option String :=
  if key = "feature" then onlyName? names.features
  else if key = "screen" then onlyName? names.screens
  else none

/-- What is known of the source of an event in advance. -/
def knownEntries (names : SourceNames) : List (String × Value) :=
  knownEntry "feature" names.features ++ knownEntry "screen" names.screens

theorem lookup_knownEntries (names : SourceNames) (key : String) :
    names.knownEntries.lookup key = (names.only? key).map .string := by
  rw [knownEntries, List.lookup_append, lookup_knownEntry, lookup_knownEntry, only?]
  by_cases hfeature : key = "feature"
  · have hscreen : ¬ key = "screen" := by
      rw [hfeature]
      decide
    rw [if_pos hfeature, if_pos hfeature, if_neg hscreen, Option.or_none]
  · rw [if_neg hfeature, if_neg hfeature, Option.none_or]
    split <;> rfl

theorem assignAll_knownEntries (names : SourceNames) :
    assignAll (knownEntry "screen" names.screens)
      (assignAll (knownEntry "feature" names.features) []) = names.knownEntries := by
  unfold knownEntries knownEntry
  cases onlyName? names.features <;> cases onlyName? names.screens <;> rfl

end SourceNames

/-- The values of the names that the last statement of a function hands on. -/
theorem arguments?_handOver (options : FunctionOptions) : (handOver options).arguments? =
    some (["type", "name", "props", "overwrittenSource"].map Expr.name) := by
  unfold handOver
  cases options.hasImplementation <;> cases options.isAsync <;> rfl

theorem payloadParameter_name (mappings : ImportMappings) (payload : ObjectShape) :
    (payloadParameter mappings payload).name = "props" := by
  unfold payloadParameter
  split <;> rfl

/-- The known members and a spread are what is known, under what is spread. -/
theorem SourceNames.entries?_overwritten (names : SourceNames) {bound : List (String × Value)}
    {source : Value} {copied : List (String × Value)}
    (hsource : bound.lookup "source" = some source) (hcopied : source.copied? = some copied) :
    entries? bound [] (knownMembers "feature" names.features ++
      knownMembers "screen" names.screens ++ [.spread (.name "source")]) =
      some (assignAll copied names.knownEntries) := by
  rw [List.append_assoc, entries?_knownMembers, entries?_knownMembers,
    names.assignAll_knownEntries, entries?, Expr.value?, hsource]
  simp only [Option.bind_eq_bind, Option.bind_some, hcopied, entries?]

/-- A function hands on the kind and the name of its event, the payload, and the source with what
is known of it in advance. -/
theorem Event.handsOn?_function (options : FunctionOptions) (event : Event) (names : SourceNames)
    {arguments : List Value} {copied : List (String × Value)}
    (hcopied : (arguments[1]?.getD Value.undefined).copied? = some copied) :
    (event.function options names).handsOn? arguments =
      some [.string event.kind.text, .string event.name, arguments[0]?.getD .undefined,
        .object (assignAll copied names.knownEntries)] := by
  unfold Arrow.handsOn? function
  simp only [List.mapIdx_cons, List.mapIdx_nil, payloadParameter_name, handedOn?, Expr.value?,
    Expr.string, Option.bind_eq_bind, Option.bind_some]
  rw [names.entries?_overwritten rfl hcopied, Option.map_some, Option.bind_some,
    arguments?_handOver]
  rfl

namespace Plan

/-- The name that is reported for what is given: one that is possible, unless it is given to be
undefined. That is for the only name, and stays. -/
structure ReportsName (all names : List String) (given reported : Option Value) : Prop where
  named : given ≠ some .undefined →
    ∃ name ∈ possibleNames all names, reported = some (.string name)
  undefined : given = some .undefined → names.length = 1 ∧ reported = some .undefined

/-- What a function of an event reports as its source, in a module with the scope. -/
structure ReportsSource (plan : Plan) (scope : Scope) (event : Event) (names : SourceNames)
    (function : Arrow) : Prop where
  /-- Whatever the source is called with stays, and what is known is filled in. A source of the
  declared type becomes one that names a feature and a screen, but for undefined ones. -/
  given : ∃ type, function.typeAt? "source" [] = some type ∧
    ∀ (props : Value) (source : Dict Value), ∃ reported,
      function.handsOn? [props, .object source.entries] =
        some [.string event.kind.text, .string event.name, props, .object reported] ∧
      (∀ key, reported.lookup key = (source.get? key).or ((names.only? key).map .string)) ∧
      (type.Accepts scope (.object source.entries) →
        type.Accepts scope (.object reported) ∧
        ReportsName plan.featureNames names.features (source.get? "feature")
          (reported.lookup "feature") ∧
        ReportsName plan.screenNames names.screens (source.get? "screen")
          (reported.lookup "screen"))
  /-- Without a source, only what is known is reported. -/
  missing : ∀ (props : Value), ∀ source ∈ [[], [Value.undefined]],
    function.handsOn? (props :: source) =
      some [.string event.kind.text, .string event.name, props, .object names.knownEntries]

section Filled

variable {all names : List String} {given reported : Option Value}

/-- A name is given, or it is the only one. -/
theorem reportsName_or
    (hgiven : given.getD .undefined ≠ .undefined →
      ∃ name ∈ possibleNames all names, given.getD .undefined = .string name)
    (hleft : given.getD .undefined = .undefined → names.length = 1) :
    ReportsName all names given (given.or ((onlyName? names).map .string)) where
  named := fun hdefined => by
    cases given with
    | some value =>
        obtain ⟨name, hmem, hvalue⟩ := hgiven fun hvalue => hdefined (congrArg some hvalue)
        exact ⟨name, hmem, congrArg some hvalue⟩
    | none =>
        obtain ⟨name, rfl⟩ := List.length_eq_one_iff.mp (hleft rfl)
        exact ⟨name, List.mem_cons_self, rfl⟩
  undefined := by
    rintro rfl
    exact ⟨hleft rfl, rfl⟩

theorem ReportsName.exists_name (hreports : ReportsName all names given reported)
    (hdefined : reported.getD .undefined ≠ .undefined) :
    ∃ name ∈ possibleNames all names, reported.getD .undefined = .string name := by
  by_cases hgiven : given = some .undefined
  · rw [(hreports.undefined hgiven).2] at hdefined
    exact absurd rfl hdefined
  · obtain ⟨name, hmem, hname⟩ := hreports.named hgiven
    exact ⟨name, hmem, by rw [hname, Option.getD_some]⟩

theorem ReportsName.length_eq_one (hreports : ReportsName all names given reported)
    (hundefined : reported.getD .undefined = .undefined) : names.length = 1 := by
  by_cases hgiven : given = some .undefined
  · exact (hreports.undefined hgiven).1
  · obtain ⟨name, -, hname⟩ := hreports.named hgiven
    rw [hname, Option.getD_some] at hundefined
    cases hundefined

end Filled

section Locates

variable {plan : Plan} {names : SourceNames} {source : Dict Value}
  {reported : List (String × Value)}

/-- What is missing in a source that says where an event happened is what is known of it. -/
theorem Locates.reportsName (hlocates : plan.Locates names source.entries)
    (hreported : ∀ key,
      reported.lookup key = (source.get? key).or ((names.only? key).map .string)) :
    ReportsName plan.featureNames names.features (source.get? "feature")
        (reported.lookup "feature") ∧
      ReportsName plan.screenNames names.screens (source.get? "screen")
        (reported.lookup "screen") := by
  rw [hreported, hreported]
  exact ⟨reportsName_or hlocates.feature hlocates.feature_left,
    reportsName_or hlocates.screen hlocates.screen_left⟩

/-- With what is known of it, a source still says where the event happened. -/
theorem Locates.filled (hlocates : plan.Locates names source.entries)
    (hreported : ∀ key,
      reported.lookup key = (source.get? key).or ((names.only? key).map .string)) :
    plan.Locates names reported := by
  obtain ⟨hfeature, hscreen⟩ := hlocates.reportsName hreported
  refine ⟨hfeature.exists_name, hfeature.length_eq_one, hscreen.exists_name,
    hscreen.length_eq_one, fun key hkey hdefined => ?_⟩
  have hunknown : names.only? key = none := by
    simp only [List.mem_cons, List.not_mem_nil, or_false] at hkey
    rcases hkey with rfl | rfl | rfl <;> rfl
  have hsame : readEntry reported key = readEntry source.entries key := by
    rw [readEntry, hreported, hunknown, Option.map_none, Option.or_none]
    rfl
  rw [hsame] at hdefined ⊢
  exact hlocates.rest key hkey hdefined

end Locates

theorem reportsSource_function {plan : Plan} {scope : Scope} {options : FunctionOptions}
    (hreaches : scope.Reaches options.mappings plan.sharedItems) (event : Event)
    (names : SourceNames) :
    plan.ReportsSource scope event names (event.function options names) where
  given := by
    refine ⟨_, event.typeAt?_source_nil options names, fun props source => ?_⟩
    have hreported : ∀ key, (assignAll source.entries names.knownEntries).lookup key =
        (source.get? key).or ((names.only? key).map .string) := by
      intro key
      rw [lookup_assignAll source.nodup, names.lookup_knownEntries]
      rfl
    refine ⟨_, event.handsOn?_function options names rfl, hreported, fun haccepts => ?_⟩
    have hlocates := (accepts_source_iff hreaches names _).mp haccepts
    exact ⟨(accepts_source_iff hreaches names _).mpr (hlocates.filled hreported),
      hlocates.reportsName hreported⟩
  missing := by
    intro props source hsource
    simp only [List.mem_cons, List.not_mem_nil, or_false] at hsource
    rcases hsource with rfl | rfl
    · exact @Event.handsOn?_function options event names [props] [] rfl
    · exact @Event.handsOn?_function options event names [props, .undefined] [] rfl

/-- Every function of a plan reports the source that it is called with, with what is known of it
in advance, wherever its type refers to the shared definitions of the plan. -/
theorem reports_source (plan : Plan) :
    (∀ options : LayoutOptions, ∃ groups, plan.toGroups options = .ok groups ∧
      ⟨[sharedDefinitions], plan.sharedItems⟩ ∈ mergeGroups groups) ∧
    ∀ (options : FunctionOptions) (scope : Scope),
      scope.Reaches options.mappings plan.sharedItems →
      (∀ track ∈ plan.tracks, ∃ function, track.toFunction options plan = .ok function ∧
        plan.ReportsSource scope track.event (.ofTrack plan track) function) ∧
      (∀ screen ∈ plan.screens, ∃ function, screen.toFunction options plan = .ok function ∧
        plan.ReportsSource scope screen.event (.ofScreen plan screen) function) ∧
      ∀ screen ∈ plan.screens, ∀ copy ∈ screen.tracks, ∃ function,
        copy.toFunction options plan = .ok function ∧
        plan.ReportsSource scope copy.event (.ofTrack plan copy) function := by
  refine ⟨fun options => ⟨_, plan.toGroups_eq options, plan.mem_mergeGroups_shared options⟩,
    fun options scope hreaches => ⟨?tracks, ?screens, ?copies⟩⟩
  case tracks =>
    exact fun track _ => ⟨_, trackingFunction_eq _ _ _, reportsSource_function hreaches _ _⟩
  case screens =>
    exact fun screen _ => ⟨_, trackingFunction_eq _ _ _, reportsSource_function hreaches _ _⟩
  case copies =>
    exact fun screen _ copy _ => ⟨_, trackingFunction_eq _ _ _, reportsSource_function hreaches _ _⟩

def shopPlan : Plan := (ofDefinition .standard shop).toOption.getD default

/-- A module that has nothing but the shared definitions of the shop in reach. -/
def shopScope : Scope := ⟨[], fun _ => shopPlan.sharedItems⟩

/-- The names of the track of the shop that is fired on its only named screen. -/
def tapNames : SourceNames := .ofTrack shopPlan shopPlan.tracks[0]

/-- A source that leaves out the only screen. -/
def ownSource : Dict Value := ⟨[("feature", .string "own"), ("widget", .string "cart")], by decide⟩

theorem locates_ownSource : shopPlan.Locates tapNames ownSource.entries where
  feature := fun _ => ⟨"own", by decide, rfl⟩
  feature_left := nofun
  screen := fun hdefined => absurd rfl hdefined
  screen_left := fun _ => rfl
  rest := fun key hkey hdefined => by
    simp only [List.mem_cons, List.not_mem_nil, or_false] at hkey
    rcases hkey with rfl | rfl | rfl
    · exact ⟨"cart", rfl⟩
    · exact absurd rfl hdefined
    · exact absurd rfl hdefined

theorem shop_reports_source : ∃ function type reported,
    ofDefinition .standard shop = .ok shopPlan ∧
    shopPlan.tracks[0].toFunction ⟨true, true, .shared⟩ shopPlan = .ok function ∧
    function.typeAt? "source" [] = some type ∧
    type.Accepts shopScope (.object ownSource.entries) ∧
    function.handsOn? [.null, .object ownSource.entries] =
      some [.string "track", .string "tap", .null, .object reported] ∧
    ["feature", "screen", "widget", "action"].map (fun key => reported.lookup key) =
      [some (.string "own"), some (.string "Home"), some (.string "cart"), none] ∧
    type.Accepts shopScope (.object reported) := by
  have hreaches : shopScope.Reaches .shared shopPlan.sharedItems := rfl
  obtain ⟨-, hfunctions⟩ := reports_source shopPlan
  obtain ⟨htracks, -⟩ := hfunctions ⟨true, true, .shared⟩ shopScope hreaches
  obtain ⟨function, hfunction, ⟨type, htype, hgiven⟩, -⟩ :=
    htracks shopPlan.tracks[0] List.mem_cons_self
  obtain ⟨reported, hhandsOn, hreported, hlegal⟩ := hgiven .null ownSource
  obtain rfl := Except.ok.inj ((trackingFunction_eq _ _ _).symm.trans hfunction)
  obtain rfl := Option.some.inj ((Event.typeAt?_source_nil _ _ tapNames).symm.trans htype)
  have haccepts := (accepts_source_iff hreaches _ _).mpr locates_ownSource
  refine ⟨_, _, reported, rfl, hfunction, htype, haccepts, hhandsOn, ?_, (hlegal haccepts).1⟩
  simp only [List.map_cons, List.map_nil, hreported]
  rfl

/-- A source in which the only screen is undefined. -/
def undefinedSource : Dict Value := ⟨[("feature", .string "own"), ("screen", .undefined)], by decide⟩

theorem locates_undefinedSource : shopPlan.Locates tapNames undefinedSource.entries where
  feature := fun _ => ⟨"own", by decide, rfl⟩
  feature_left := nofun
  screen := fun hdefined => absurd rfl hdefined
  screen_left := fun _ => rfl
  rest := fun key hkey hdefined => by
    simp only [List.mem_cons, List.not_mem_nil, or_false] at hkey
    rcases hkey with rfl | rfl | rfl <;> exact absurd rfl hdefined

/-- No screen is reported for a source of the declared type, although there is only one. -/
theorem shop_reports_undefined : ∃ function type reported,
    ofDefinition .standard shop = .ok shopPlan ∧
    shopPlan.tracks[0].toFunction ⟨true, true, .shared⟩ shopPlan = .ok function ∧
    shopScope.Reaches .shared shopPlan.sharedItems ∧
    tapNames.screens = ["Home"] ∧
    function.typeAt? "source" [] = some type ∧
    type.Accepts shopScope (.object undefinedSource.entries) ∧
    function.handsOn? [.null, .object undefinedSource.entries] =
      some [.string "track", .string "tap", .null, .object reported] ∧
    reported.lookup "screen" = some .undefined ∧
    ¬ ∃ name, reported.lookup "screen" = some (.string name) := by
  have hreaches : shopScope.Reaches .shared shopPlan.sharedItems := rfl
  have hreports := @reportsSource_function shopPlan shopScope ⟨true, true, .shared⟩ hreaches
    shopPlan.tracks[0].event tapNames
  obtain ⟨type, htype, hgiven⟩ := hreports.given
  obtain ⟨reported, hhandsOn, hreported, -⟩ := hgiven .null undefinedSource
  have hscreen : reported.lookup "screen" = some .undefined := hreported "screen"
  obtain rfl := Option.some.inj ((Event.typeAt?_source_nil _ _ tapNames).symm.trans htype)
  refine ⟨_, _, reported, rfl, trackingFunction_eq _ _ _, hreaches, rfl, htype,
    (accepts_source_iff hreaches _ _).mpr locates_undefinedSource, hhandsOn, hscreen, ?_⟩
  rintro ⟨name, hname⟩
  cases hscreen.symm.trans hname

end Plan

end TrackingPlan
