import TrackingPlan.Proofs.Layout.Items
import TrackingPlan.Proofs.Plan.Links

/-!
# Listed tracks in the modules of screens

A screen has a copy of a track for each time that it lists the track, and its module
an export for each copy. A track is declared once exactly when it is listed once.
-/

namespace TrackingPlan

open TypeScript

/-- The names that items declare constants under. -/
def TypeScript.constNames (items : List Item) : List String :=
  items.filterMap fun item => match item with
    | .const name _ => some name
    | _ => none

theorem TypeScript.constNames_append (first second : List Item) :
    constNames (first ++ second) = constNames first ++ constNames second :=
  List.filterMap_append

/-- The screen declares every track that is listed, and each of them once: in the order of first
mention, without repetitions, and under one name each in its module. -/
structure Screen.DeclaresOnce (plan : Plan) (listed : List String) (screen : Screen) : Prop where
  keys_nodup : (screen.tracks.map (·.event.key)).Nodup
  keys_eq : screen.tracks.map (·.event.key) = listed.eraseDups
  exports_eq : ∀ options, ∃ items, screen.toItems options plan = .ok items ∧
    constNames items = listed.eraseDups.map exportName
  exports_nodup : (∀ first ∈ listed, ∀ second ∈ listed,
      exportName first = exportName second → first = second) →
    ∀ options items, screen.toItems options plan = .ok items → (constNames items).Nodup

theorem constNames_commentItems (description : Option String) :
    constNames (commentItems description) = [] := by
  cases description <;> rfl

theorem Event.constNames_trackItems (options : FunctionOptions) (event : Event)
    (names : SourceNames) : constNames (event.trackItems options names) = [event.exportName] := by
  rw [trackItems, constNames_append, constNames_commentItems]
  rfl

/-- The module of a screen declares a constant for each copy that the screen has. -/
theorem Screen.constNames_items (options : FunctionOptions) (plan : Plan) (screen : Screen) :
    constNames (screen.items options plan) =
      (screen.tracks.map (·.event.key)).map TrackingPlan.exportName := by
  have htracks : ∀ tracks : List Track,
      constNames (tracks.flatMap fun track =>
        track.event.trackItems options (.ofTrack plan track)) =
        (tracks.map (·.event.key)).map TrackingPlan.exportName := by
    intro tracks
    induction tracks with
    | nil => rfl
    | cons track rest ih =>
        rw [List.flatMap_cons, constNames_append, ih, Event.constNames_trackItems]
        rfl
  rw [items, constNames_append, constNames_commentItems]
  exact htracks screen.tracks

namespace Plan

variable {formats : FormatRegistry} {definition : PlanDefinition} {plan : Plan} {s : ScreenId}
  {screen : Screen} {entry : String × Option EventDefinition}

theorem keys_of_copies (hplan : ofDefinition formats definition = .ok plan)
    (hscreen : plan.screen? s = some screen)
    (hentry : definition.screens.entries[s.index]? = some entry) :
    screen.tracks.map (·.event.key) = listedTracks entry := by
  have hcopies := (ofDefinition_linkedAs hplan).copies_eq s screen entry hscreen hentry
  refine List.ext_getElem? fun index => ?_
  have hindex := congrArg (·[index]?) hcopies
  simp only [List.getElem?_map] at hindex ⊢
  cases hkey : (listedTracks entry)[index]? with
  | none =>
      rw [hkey, Option.map_none, Option.map_eq_none_iff] at hindex
      rw [hindex, Option.map_none]
  | some key =>
      rw [hkey, Option.map_some, Option.map_eq_some_iff] at hindex
      obtain ⟨copy, hcopy, hsame⟩ := hindex
      obtain ⟨track, htrack, rfl⟩ := Option.map_eq_some_iff.mp hsame.symm
      have hname : track.event.key = key := by simpa using List.find?_some htrack
      rw [hcopy, Option.map_some, hname]

/-- The copies of a screen are those of the tracks that it lists, one by one, and so are the
exports of its module. Each track is declared once exactly when none is listed twice. -/
theorem declaresOnce_iff (hplan : ofDefinition formats definition = .ok plan)
    (hscreen : plan.screen? s = some screen)
    (hentry : definition.screens.entries[s.index]? = some entry) :
    screen.tracks.map (·.event.key) = listedTracks entry ∧
    (∀ options, ∃ items, screen.toItems options plan = .ok items ∧
      constNames items = (listedTracks entry).map exportName) ∧
    (screen.DeclaresOnce plan (listedTracks entry) ↔ (listedTracks entry).Nodup) := by
  have hkeys := keys_of_copies hplan hscreen hentry
  have hexports : ∀ options, constNames (screen.items options plan) =
      (listedTracks entry).map exportName := by
    intro options
    rw [screen.constNames_items, hkeys]
  refine ⟨hkeys, fun options => ⟨_, screen.toItems_eq options plan, hexports options⟩,
    fun honce => hkeys ▸ honce.keys_nodup, fun hnodup => ?_⟩
  have hsame := eraseDups_of_nodup hnodup
  exact {
    keys_nodup := hkeys ▸ hnodup
    keys_eq := hkeys.trans hsame.symm
    exports_eq := fun options => ⟨_, screen.toItems_eq options plan, by rw [hexports, hsame]⟩
    exports_nodup := by
      intro hnames options items hitems
      obtain rfl := Except.ok.inj ((screen.toItems_eq options plan).symm.trans hitems)
      rw [hexports]
      exact hnodup.map_on hnames }

/-- A screen with the tracks that it lists. -/
def homeScreen (listed : List String) : PlanDefinition where
  tracks := ⟨[("Tap", some .empty), ("Open", some .empty)], by decide⟩
  screens := ⟨[("Home", some { EventDefinition.empty with tracks := listed })], List.nodup_singleton _⟩
  definitions := .empty
  traits := .empty

theorem homeScreen_declaresOnce : ∃ plan screen,
    ofDefinition .standard (homeScreen ["Open", "Tap"]) = .ok plan ∧
    plan.screen? ⟨0⟩ = some screen ∧ screen.DeclaresOnce plan ["Open", "Tap"] := by
  have hplan : ofDefinition .standard (homeScreen ["Open", "Tap"]) = .ok _ := rfl
  obtain ⟨-, -, honce⟩ := declaresOnce_iff (s := ⟨0⟩) hplan rfl rfl
  exact ⟨_, _, hplan, rfl, honce.mpr (by decide)⟩

/-- A track that is listed twice has two copies, and two constants of one name in the module. -/
theorem homeScreen_declaresTwice : ∃ plan screen,
    ofDefinition .standard (homeScreen ["Tap", "Tap"]) = .ok plan ∧
    plan.screen? ⟨0⟩ = some screen ∧ screen.tracks.map (·.event.key) = ["Tap", "Tap"] ∧
    (∀ options, ∃ items, screen.toItems options plan = .ok items ∧
      constNames items = ["Tap", "Tap"]) ∧
    ¬ screen.DeclaresOnce plan ["Tap", "Tap"] := by
  have hplan : ofDefinition .standard (homeScreen ["Tap", "Tap"]) = .ok _ := rfl
  refine ⟨_, _, hplan, rfl, rfl, fun options => ⟨_, Screen.toItems_eq _ _ _, ?_⟩, fun honce => ?_⟩
  · rw [Screen.constNames_items]
    decide
  · exact absurd honce.keys_nodup (by decide)

end Plan

end TrackingPlan
