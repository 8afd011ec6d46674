import TrackingPlan.Proofs.Layout.Items
import TrackingPlan.Proofs.Plan.Sources

/-!
# Locality of generated code

Places in a plan depend on the whole document, but code has only the names that
they stand for. So the code of a screen depends on its own entry and on those of
the tracks that it lists, and the code of a track on its own entry and on what
the screens that list it say of themselves.
-/

namespace TrackingPlan

open TypeScript

namespace Draft

/-- The code of a screen by its draft and those of the tracks that it lists. -/
def screenItems (options : FunctionOptions) (track? : String → Option Draft) (draft : Draft) :
    List Item :=
  commentItems draft.event.description ++
    .defaultExport (draft.event.function options draft.screenSource).toExpr ::
      (draft.listed.filterMap track?).flatMap fun track =>
        track.event.trackItems options draft.screenSource

end Draft

namespace Plan

section Assembled

variable {tracks screens : List Draft}

/-- Whatever places a screen and its copies hold, they stand for the names of its draft. -/
theorem items_assembled (options : FunctionOptions) {index : Nat} {draft : Draft}
    (hdraft : screens[index]? = some draft) :
    (Screen.assembled (Draft.allMentions (tracks ++ screens)).eraseDups tracks index draft).items
        options (assembled tracks screens) =
      draft.screenItems options fun key => tracks.find? (·.event.key == key) := by
  have hscreen : Screen.assembled (Draft.allMentions (tracks ++ screens)).eraseDups tracks index
      draft ∈ (assembled tracks screens).screens := by
    have hfound := @screen?_assembled tracks screens ⟨index⟩
    rw [hdraft] at hfound
    exact List.mem_of_getElem? hfound
  have hsource := @ofScreen_assembled tracks screens _ (List.mem_of_getElem? hdraft) index
  have hcopies : (Screen.assembled (Draft.allMentions (tracks ++ screens)).eraseDups tracks index
      draft).tracks.flatMap (fun track => track.event.trackItems options
        (.ofTrack (assembled tracks screens) track)) =
      (draft.listed.filterMap fun key => tracks.find? (·.event.key == key)).flatMap
        fun track => track.event.trackItems options draft.screenSource := by
    rw [List.flatMap_congr fun copy hcopy => by rw [ofTrack_of_mem_screen hscreen hcopy, hsource]]
    simp only [Screen.assembled, ← List.map_filterMap, List.flatMap_map]
    rfl
  unfold Screen.items Draft.screenItems
  rw [hsource, hcopies]
  rfl

end Assembled

section Document

variable {formats : FormatRegistry} {definition : PlanDefinition} {plan : Plan}

/-- The code of a screen is that of its entry and of the tracks that it lists. -/
theorem screenItems_ofDefinition (options : FunctionOptions)
    (hplan : ofDefinition formats definition = .ok plan) {key : String}
    {event : Option EventDefinition} (hentry : definition.screens.get? key = some event) :
    ∃ screen draft, plan.findScreen? key = some screen ∧
      Draft.ofEntry formats .screen (key, event) = .ok draft ∧
      screen.toItems options plan =
        .ok (draft.screenItems options (Draft.ofTracks? formats definition.tracks)) := by
  obtain ⟨tracks, screens, definitions, traits, htracks, hscreens, -, -, rfl⟩ :=
    ofDefinition_eq_ok_iff.mp hplan
  obtain ⟨draft, hfind, hdraft⟩ := exists_find?_screenDrafts hscreens hentry
  obtain ⟨index, hget, hscreen⟩ := @findScreen?_assembled tracks screens key _ hfind
  refine ⟨_, draft, hscreen, hdraft, ?_⟩
  rw [Screen.toItems_eq]
  refine congrArg Except.ok ((items_assembled options hget).trans ?_)
  rw [funext (find?_trackDrafts htracks)]

/-- The code of a track is that of its entry and of what its screens say of themselves. -/
theorem trackItems_ofDefinition (options : FunctionOptions)
    (hplan : ofDefinition formats definition = .ok plan) {key : String}
    {event : Option EventDefinition} (hentry : definition.tracks.get? key = some event) :
    ∃ track draft, plan.findTrack? key = some track ∧
      Draft.ofEntry formats .track (key, event) = .ok draft ∧
      track.toItems options plan =
        .ok (draft.event.trackItems options (.ofTrackEntry definition (key, event))) := by
  obtain ⟨tracks, screens, definitions, traits, htracks, hscreens, -, -, rfl⟩ :=
    ofDefinition_eq_ok_iff.mp hplan
  obtain ⟨draft, hfind, hdraft⟩ := exists_find?_trackDrafts htracks hentry
  have htrack := @findTrack?_assembled tracks screens key
  rw [hfind, Option.map_some] at htrack
  refine ⟨_, draft, htrack, hdraft, ?_⟩
  have hsource := @ofTrack_assembled tracks screens _ (List.mem_of_find?_eq_some hfind)
  obtain ⟨payload, -, rfl⟩ := Draft.ofEntry_eq_ok_iff.mp hdraft
  rw [trackSource_ofPayload hscreens] at hsource
  rw [Track.toItems_eq, ← hsource]
  rfl

/-- What a document says of a track depends on the screens that list it only. -/
theorem ofTrackEntry_congr {first second : PlanDefinition} {key : String}
    {event : Option EventDefinition}
    (hlisting : (SourceNames.listing first key).map (fun screen =>
        (displayName screen, mentionedFeatures screen)) =
      (SourceNames.listing second key).map fun screen =>
        (displayName screen, mentionedFeatures screen)) :
    SourceNames.ofTrackEntry first (key, event) = SourceNames.ofTrackEntry second (key, event) := by
  have hnames := congrArg (List.map Prod.fst) hlisting
  have hfeatures := congrArg (List.flatMap Prod.snd) hlisting
  simp only [List.map_map, List.flatMap_map, Function.comp_def] at hnames hfeatures
  simp only [SourceNames.ofTrackEntry, hnames, hfeatures]

/-- Two plans have the same code for a screen that has the same entry in both documents,
as all tracks do that it lists, and the same code for a track that has the same entry in
both and is listed by screens with the same names and features in the same order. -/
theorem code_local {first second : PlanDefinition} {firstPlan secondPlan : Plan}
    (hfirst : ofDefinition formats first = .ok firstPlan)
    (hsecond : ofDefinition formats second = .ok secondPlan) (options : FunctionOptions) :
    (∀ key event, first.screens.get? key = some event → second.screens.get? key = some event →
      (∀ track ∈ listedTracks (key, event), first.tracks.get? track = second.tracks.get? track) →
      ∃ screen other items, firstPlan.findScreen? key = some screen ∧
        secondPlan.findScreen? key = some other ∧
        screen.toItems options firstPlan = .ok items ∧
        other.toItems options secondPlan = .ok items) ∧
    ∀ key event, first.tracks.get? key = some event → second.tracks.get? key = some event →
      (SourceNames.listing first key).map (fun screen =>
          (displayName screen, mentionedFeatures screen)) =
        (SourceNames.listing second key).map (fun screen =>
          (displayName screen, mentionedFeatures screen)) →
      ∃ track other items, firstPlan.findTrack? key = some track ∧
        secondPlan.findTrack? key = some other ∧
        track.toItems options firstPlan = .ok items ∧
        other.toItems options secondPlan = .ok items := by
  constructor
  · intro key event hentry hother hlisted
    obtain ⟨screen, draft, hscreen, hdraft, hitems⟩ :=
      screenItems_ofDefinition options hfirst hentry
    obtain ⟨other, otherDraft, hotherScreen, hotherDraft, hotherItems⟩ :=
      screenItems_ofDefinition options hsecond hother
    obtain rfl := Except.ok.inj (hdraft.symm.trans hotherDraft)
    obtain ⟨payload, -, rfl⟩ := Draft.ofEntry_eq_ok_iff.mp hdraft
    have hknown : ∀ track ∈ (Draft.ofPayload .screen (key, event) payload).listed,
        Draft.ofTracks? formats second.tracks track =
          Draft.ofTracks? formats first.tracks track := by
      intro track htrack
      rw [Draft.ofTracks?, Draft.ofTracks?, hlisted track htrack]
    refine ⟨screen, other, _, hscreen, hotherScreen, hitems, hotherItems.trans ?_⟩
    unfold Draft.screenItems
    rw [List.filterMap_congr hknown]
  · intro key event hentry hother hlisting
    obtain ⟨track, draft, htrack, hdraft, hitems⟩ := trackItems_ofDefinition options hfirst hentry
    obtain ⟨other, otherDraft, hotherTrack, hotherDraft, hotherItems⟩ :=
      trackItems_ofDefinition options hsecond hother
    obtain rfl := Except.ok.inj (hdraft.symm.trans hotherDraft)
    rw [← ofTrackEntry_congr hlisting] at hotherItems
    exact ⟨track, other, _, htrack, hotherTrack, hitems, hotherItems⟩

/-- A screen with its track. -/
def homeAlone : PlanDefinition where
  tracks := ⟨[("tap", some { EventDefinition.empty with features := ["start"] })], by decide⟩
  screens := ⟨[("home", some { EventDefinition.empty with
    features := ["start", "search"], tracks := ["tap"] })], by decide⟩
  definitions := .empty
  traits := .empty

/-- The same screen and track, behind others. -/
def homeBehindHelp : PlanDefinition where
  tracks := ⟨[("close", some { EventDefinition.empty with features := ["help", "search"] }),
    ("tap", some { EventDefinition.empty with features := ["start"] })], by decide⟩
  screens := ⟨[("help", some { EventDefinition.empty with
      features := ["help"], tracks := ["close"] }),
    ("home", some { EventDefinition.empty with
      features := ["start", "search"], tracks := ["tap"] })], by decide⟩
  definitions := .empty
  traits := .empty

theorem home_code_local : ∃ firstPlan secondPlan,
    ofDefinition .standard homeAlone = .ok firstPlan ∧
    ofDefinition .standard homeBehindHelp = .ok secondPlan ∧
    (firstPlan.findScreen? "home").map (·.event.features) = some [⟨0⟩, ⟨1⟩] ∧
    (secondPlan.findScreen? "home").map (·.event.features) = some [⟨2⟩, ⟨1⟩] ∧
    (∃ screen other items, firstPlan.findScreen? "home" = some screen ∧
      secondPlan.findScreen? "home" = some other ∧
      screen.toItems ⟨true, true, .shared⟩ firstPlan = .ok items ∧
      other.toItems ⟨true, true, .shared⟩ secondPlan = .ok items) ∧
    ∃ track other items, firstPlan.findTrack? "tap" = some track ∧
      secondPlan.findTrack? "tap" = some other ∧
      track.toItems ⟨true, true, .shared⟩ firstPlan = .ok items ∧
      other.toItems ⟨true, true, .shared⟩ secondPlan = .ok items := by
  have hfirst : ofDefinition .standard homeAlone = .ok _ := rfl
  have hsecond : ofDefinition .standard homeBehindHelp = .ok _ := rfl
  obtain ⟨hscreens, htracks⟩ := code_local hfirst hsecond ⟨true, true, .shared⟩
  have htap : ∀ track ∈ ["tap"], homeAlone.tracks.get? track = homeBehindHelp.tracks.get? track := by
    intro track htrack
    obtain rfl := List.mem_singleton.mp htrack
    rfl
  exact ⟨_, _, hfirst, hsecond, rfl, rfl, hscreens "home" _ rfl rfl htap,
    htracks "tap" _ rfl rfl rfl⟩

end Document

end Plan

end TrackingPlan
