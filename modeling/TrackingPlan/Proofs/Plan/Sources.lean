import TrackingPlan.Source
import TrackingPlan.Proofs.Plan.Links

/-!
# Sources of events

The names under which an event can happen are found through the places that it
holds. In the plan of a document they are what the document says: for a track,
the names of the screens that list it and the features of these screens and
then its own; for a screen, and for every copy of a track that it holds, its own
name and features.
-/

namespace TrackingPlan

namespace SourceNames

/-- The entries of the screens that list the key of a track. -/
def listing (definition : PlanDefinition) (key : String) :
    List (String × Option EventDefinition) :=
  definition.screens.entries.filter fun screen => (listedTracks screen).contains key

/-- What the document says of a track: on which screens it happens, and under
whose features besides its own. -/
def ofTrackEntry (definition : PlanDefinition) (entry : String × Option EventDefinition) :
    SourceNames where
  features := ((listing definition entry.1).flatMap mentionedFeatures ++
    mentionedFeatures entry).eraseDups
  screens := ((listing definition entry.1).map displayName).eraseDups

/-- What the document says of a screen. -/
def ofScreenEntry (entry : String × Option EventDefinition) : SourceNames where
  features := (mentionedFeatures entry).eraseDups
  screens := [displayName entry]

/-- A track knows its screens only by their events. -/
theorem ofTrack_eq_of_events {plan : Plan} {track : Track} {events : List Event}
    (hevents : (track.screens.filterMap plan.screen?).map (·.event) = events) :
    ofTrack plan track = {
      features := (events.flatMap (fun event => featureNames plan event.features) ++
        featureNames plan track.event.features).eraseDups
      screens := (events.map (·.name)).eraseDups } := by
  subst hevents
  simp only [ofTrack, List.flatMap_map, List.map_map, Function.comp_def]

/-- A copy happens where its screen does. -/
theorem ofTrack_copy {plan : Plan} {id : ScreenId} {screen : Screen} {copy : Track}
    (hscreen : plan.screen? id = some screen) (hscreens : copy.screens = [id])
    (hfeatures : copy.event.features = screen.event.features) :
    ofTrack plan copy = ofScreen plan screen := by
  have hevents : (copy.screens.filterMap plan.screen?).map (·.event) = [screen.event] := by
    simp [hscreens, hscreen]
  -- The features of the screen are counted twice, as those of the copy as well.
  have htwice : ∀ names : List String, (names ++ names).eraseDups = names.eraseDups := by
    intro names
    have hnone : names.removeAll names = [] := by simp [List.removeAll, List.filter_eq_nil_iff]
    rw [List.eraseDups_append, hnone]
    exact List.append_nil _
  rw [ofTrack_eq_of_events hevents, hfeatures, List.flatMap_singleton, htwice]
  rfl

end SourceNames

/-- The items at the places where the predicate holds are those of which it holds. -/
theorem filterMap_getElem?_findIdxs {α : Type} (p : α → Bool) (items : List α) :
    (items.findIdxs p).filterMap (items[·]?) = items.filter p := by
  induction items using List.reverseRecOn with
  | nil => rfl
  | append_singleton items item ih =>
      have hearlier : (items.findIdxs p).filterMap ((items ++ [item])[·]?) =
          (items.findIdxs p).filterMap (items[·]?) := by
        apply List.filterMap_congr
        intro index hindex
        have hlt := List.lt_add_of_mem_findIdxs _ hindex
        exact List.getElem?_append_left (by omega)
      rw [List.findIdxs_append, List.filterMap_append, hearlier, ih, List.filter_append]
      congr 1
      by_cases hitem : p item = true
      · simp [hitem]
      · simp [hitem]

namespace Draft

/-- The names at the places of what is mentioned are what is mentioned, each once. -/
theorem map_getElem?_places {names mentions : List String} (hnodup : names.Nodup)
    (hmem : ∀ name ∈ mentions, name ∈ names) :
    (places names mentions).filterMap (fun id => names[id.index]?) = mentions.eraseDups := by
  induction mentions using List.reverseRecOn with
  | nil => rfl
  | append_singleton mentions name ih =>
      rw [List.forall_mem_append, List.forall_mem_singleton] at hmem
      obtain ⟨hmentions, hname⟩ := hmem
      have hget : names[names.idxOf name]? = some name :=
        (idxOf_eq_iff_getElem?_eq hnodup hname).mp rfl
      rw [places_concat]
      by_cases hmention : name ∈ mentions
      · have hplace : (places names mentions).contains ⟨names.idxOf name⟩ = true :=
          List.contains_iff_mem.mpr ((mem_places_iff hnodup hmentions hget).mpr hmention)
        rw [if_pos hplace, eraseDups_concat_of_mem hmention, ih hmentions]
      · have hplace : ¬ (places names mentions).contains ⟨names.idxOf name⟩ = true :=
          fun h => hmention ((mem_places_iff hnodup hmentions hget).mp (List.contains_iff_mem.mp h))
        rw [if_neg hplace, eraseDups_concat_of_not_mem hmention, List.filterMap_append,
          ih hmentions]
        simp [hget]

/-- The names for a track by the drafts of the screens that list it. -/
def trackSource (screens : List Draft) (draft : Draft) : SourceNames :=
  let listing := screens.filter (·.listed.contains draft.event.key)
  { features := (listing.flatMap (·.mentions) ++ draft.mentions).eraseDups
    screens := (listing.map (·.event.name)).eraseDups }

def screenSource (draft : Draft) : SourceNames :=
  ⟨draft.mentions.eraseDups, [draft.event.name]⟩

end Draft

namespace Plan

section Assembled

variable {tracks screens : List Draft}

/-- The features of a linked event are those that its draft mentions. -/
theorem featureNames_linked {draft : Draft} (hdraft : draft ∈ tracks ++ screens) :
    SourceNames.featureNames (assembled tracks screens)
        (draft.linked (Draft.allMentions (tracks ++ screens)).eraseDups).features =
      draft.mentions.eraseDups := by
  have hfeature : ∀ id : FeatureId, ((assembled tracks screens).feature? id).map (·.name) =
      (Draft.allMentions (tracks ++ screens)).eraseDups[id.index]? := by
    intro id
    rw [← assembled_names, List.getElem?_map]
    rfl
  unfold SourceNames.featureNames
  simp only [hfeature]
  exact Draft.map_getElem?_places (nodup_eraseDups _)
    fun _ => Draft.mem_eraseDups_allMentions hdraft

theorem event_screen?_assembled (id : ScreenId) :
    ((assembled tracks screens).screen? id).map (·.event) =
      screens[id.index]?.map (·.linked (Draft.allMentions (tracks ++ screens)).eraseDups) := by
  rw [screen?_assembled, Option.map_map]
  rfl

/-- The screens of a track are those whose drafts list its key, in their order. -/
theorem events_of_track (names : List String) (draft : Draft) :
    ((Track.assembled names screens draft).screens.filterMap
        (assembled tracks screens).screen?).map (·.event) =
      (screens.filter (·.listed.contains draft.event.key)).map
        (·.linked (Draft.allMentions (tracks ++ screens)).eraseDups) := by
  rw [← filterMap_getElem?_findIdxs, List.map_filterMap, List.map_filterMap, Track.assembled,
    List.filterMap_map]
  simp only [Function.comp_def, event_screen?_assembled]

theorem ofTrack_assembled {draft : Draft} (hdraft : draft ∈ tracks) :
    SourceNames.ofTrack (assembled tracks screens)
        (Track.assembled (Draft.allMentions (tracks ++ screens)).eraseDups screens draft) =
      draft.trackSource screens := by
  let listing := screens.filter (·.listed.contains draft.event.key)
  have hown := featureNames_linked (List.mem_append_left screens hdraft)
  have hlisting : (listing.map
        (·.linked (Draft.allMentions (tracks ++ screens)).eraseDups)).flatMap
          (fun event => SourceNames.featureNames (assembled tracks screens) event.features) =
      listing.flatMap fun screen => screen.mentions.eraseDups := by
    rw [List.flatMap_map]
    apply List.flatMap_congr
    intro screen hscreen
    exact featureNames_linked (List.mem_append_right tracks (List.mem_filter.mp hscreen).1)
  rw [SourceNames.ofTrack_eq_of_events (events_of_track _ draft), hlisting]
  simp only [Track.assembled, hown, eraseDups_append_eraseDups, List.map_map]
  -- Each event has its features once, which makes no difference to all of them together.
  rw [eraseDups_append_congr (eraseDups_flatMap (fun screen => screen.mentions) listing)]
  rfl

theorem ofScreen_assembled {draft : Draft} (hdraft : draft ∈ screens) (index : Nat) :
    SourceNames.ofScreen (assembled tracks screens)
        (Screen.assembled (Draft.allMentions (tracks ++ screens)).eraseDups tracks index draft) =
      draft.screenSource := by
  have hfeatures := featureNames_linked (List.mem_append_right tracks hdraft)
  simp only [SourceNames.ofScreen, Screen.assembled, hfeatures, eraseDups_eraseDups]
  rfl

theorem ofTrack_of_mem_screen {screen : Screen}
    (hscreen : screen ∈ (assembled tracks screens).screens) {copy : Track}
    (hcopy : copy ∈ screen.tracks) :
    SourceNames.ofTrack (assembled tracks screens) copy =
      SourceNames.ofScreen (assembled tracks screens) screen := by
  obtain ⟨index, hget⟩ := List.mem_iff_getElem?.mp hscreen
  have hfound : (assembled tracks screens).screen? ⟨index⟩ = some screen := hget
  have hdraft := hfound
  rw [screen?_assembled, Option.map_eq_some_iff] at hdraft
  obtain ⟨draft, -, rfl⟩ := hdraft
  simp only [Screen.assembled, List.mem_filterMap, Option.map_eq_some_iff] at hcopy
  obtain ⟨key, -, track, -, rfl⟩ := hcopy
  exact SourceNames.ofTrack_copy hfound rfl rfl

end Assembled

section Document

variable {formats : FormatRegistry} {definition : PlanDefinition} {tracks screens : List Draft}

/-- The drafts that list a key are those of the entries that list it. -/
theorem map_listing {γ : Type} (told : Draft → γ) (known : String × Option EventDefinition → γ)
    (hscreens : screenDrafts formats definition = .ok screens)
    (htold : ∀ entry payload, told (Draft.ofPayload .screen entry payload) = known entry)
    (key : String) :
    (screens.filter (·.listed.contains key)).map told =
      (SourceNames.listing definition key).map known := by
  have hpairs := map_screenDrafts (fun draft => (draft.listed, told draft))
    (fun entry => (listedTracks entry, known entry)) hscreens
    fun entry payload => Prod.ext rfl (htold entry payload)
  have hfiltered := congrArg
    (fun pairs => (pairs.filter fun pair => pair.1.contains key).map (·.2)) hpairs
  simp only [List.filter_map, List.map_map] at hfiltered
  exact hfiltered

theorem trackSource_ofPayload (hscreens : screenDrafts formats definition = .ok screens)
    (entry : String × Option EventDefinition) (payload : ObjectShape) :
    (Draft.ofPayload .track entry payload).trackSource screens =
      SourceNames.ofTrackEntry definition entry := by
  have hmentions := congrArg List.flatten
    (map_listing (·.mentions) mentionedFeatures hscreens (fun _ _ => rfl) entry.1)
  have hnames := map_listing (·.event.name) displayName hscreens (fun _ _ => rfl) entry.1
  rw [← List.flatMap_def, ← List.flatMap_def] at hmentions
  simp only [Draft.trackSource, Draft.ofPayload, hmentions, hnames]
  rfl

/-- The names under which events happen are those that the document gives, for
tracks, for screens, and for the copies of tracks on their screens. -/
theorem sourceNames_ofDefinition {plan : Plan}
    (hplan : ofDefinition formats definition = .ok plan) :
    plan.tracks.map (fun track => (track.event.key, SourceNames.ofTrack plan track)) =
      definition.tracks.entries.map
        (fun entry => (entry.1, SourceNames.ofTrackEntry definition entry)) ∧
    plan.screens.map (fun screen => (screen.event.key, SourceNames.ofScreen plan screen)) =
      definition.screens.entries.map
        (fun entry => (entry.1, SourceNames.ofScreenEntry entry)) ∧
    ∀ screen ∈ plan.screens, ∀ copy ∈ screen.tracks,
      SourceNames.ofTrack plan copy = SourceNames.ofScreen plan screen := by
  obtain ⟨tracks, screens, definitions, traits, htracks, hscreens, -, -, rfl⟩ :=
    ofDefinition_eq_ok_iff.mp hplan
  refine ⟨?_, ?_, fun screen hscreen copy hcopy => ofTrack_of_mem_screen hscreen hcopy⟩
  · rw [← map_trackDrafts (fun draft => (draft.event.key, draft.trackSource screens)) _ htracks
      fun entry payload => Prod.ext rfl (trackSource_ofPayload hscreens entry payload)]
    refine List.map_map.trans (List.map_congr_left fun draft hdraft => ?_)
    exact Prod.ext rfl (ofTrack_assembled hdraft)
  · rw [← map_screenDrafts (fun draft => (draft.event.key, draft.screenSource)) _ hscreens
      fun _ _ => rfl]
    apply List.ext_getElem
    · simp
    · intro index hindex hindex'
      simp only [List.getElem_map, assembled, List.getElem_mapIdx]
      exact Prod.ext rfl (ofScreen_assembled (List.getElem_mem _) index)

/-- A track that is fired on two screens with one name, and listed twice by one of them. -/
def twoHomes : PlanDefinition where
  tracks := ⟨[("tap", some { EventDefinition.empty with features := ["own", "start"] })],
    by decide⟩
  screens := ⟨[
    ("home", some { EventDefinition.empty with
      name := some "Home", features := ["start", "search", "start"], tracks := ["tap", "tap"] }),
    ("index", some { EventDefinition.empty with
      name := some "Home", features := ["search", "help"], tracks := ["tap"] })], by decide⟩
  definitions := .empty
  traits := .empty

theorem twoHomes_sourceNames : ∃ plan, ofDefinition .standard twoHomes = .ok plan ∧
    plan.tracks.map (fun track => (track.event.key, SourceNames.ofTrack plan track)) =
      [("tap", ⟨["start", "search", "help", "own"], ["Home"]⟩)] ∧
    plan.screens.map (fun screen => (screen.event.key, SourceNames.ofScreen plan screen)) =
      [("home", ⟨["start", "search"], ["Home"]⟩), ("index", ⟨["search", "help"], ["Home"]⟩)] ∧
    ∀ screen ∈ plan.screens, ∀ copy ∈ screen.tracks,
      SourceNames.ofTrack plan copy = SourceNames.ofScreen plan screen := by
  have hplan : ofDefinition .standard twoHomes = .ok _ := rfl
  obtain ⟨htracks, hscreens, hcopies⟩ := sourceNames_ofDefinition hplan
  exact ⟨_, hplan, htracks.trans (by decide), hscreens.trans (by decide), hcopies⟩

end Document

end Plan

end TrackingPlan
