import TrackingPlan.Proofs.Plan.Pass

/-!
# Links of a plan

In the plan of a document, entities stand in the order of the document, every
id leads to an entity, and both sides of a relation agree with what the
document says. The copies that a screen holds are those of the finished plan,
although they are taken while it is being built.
-/

namespace TrackingPlan

namespace Plan

/-- All events of a plan, copies included. -/
def events (plan : Plan) : List Event :=
  plan.tracks.map (·.event) ++
    plan.screens.flatMap fun screen => screen.event :: screen.tracks.map (·.event)

/-- All ids of screens that a plan holds. -/
def heldScreenIds (plan : Plan) : List ScreenId :=
  plan.features.flatMap (·.screens) ++ plan.tracks.flatMap (·.screens) ++
    plan.screens.flatMap fun screen => screen.tracks.flatMap (·.screens)

/-- The plan has the entities of the document, linked as the document says. -/
structure LinkedAs (definition : PlanDefinition) (plan : Plan) : Prop where
  tracks_eq : plan.tracks.map (fun track => (track.event.key, track.event.name)) =
    definition.tracks.entries.map fun entry => (entry.1, displayName entry)
  screens_eq : plan.screens.map (fun screen => (screen.event.key, screen.event.name)) =
    definition.screens.entries.map fun entry => (entry.1, displayName entry)
  /-- Features stand in the order of their first mention, tracks before screens. -/
  features_eq : plan.features.map (·.name) =
    ((definition.tracks.entries ++ definition.screens.entries).flatMap mentionedFeatures).eraseDups
  feature_lt : ∀ event ∈ plan.events, ∀ id ∈ event.features, id.index < plan.features.length
  screen_lt : ∀ id ∈ plan.heldScreenIds, id.index < plan.screens.length
  track_lt : ∀ feature ∈ plan.features, ∀ id ∈ feature.tracks, id.index < plan.tracks.length
  feature_track : ∀ (f : FeatureId) (t : TrackId) feature track entry,
    plan.feature? f = some feature → plan.track? t = some track →
    definition.tracks.entries[t.index]? = some entry →
      (t ∈ feature.tracks ↔ feature.name ∈ mentionedFeatures entry) ∧
      (f ∈ track.event.features ↔ feature.name ∈ mentionedFeatures entry)
  feature_screen : ∀ (f : FeatureId) (s : ScreenId) feature screen entry,
    plan.feature? f = some feature → plan.screen? s = some screen →
    definition.screens.entries[s.index]? = some entry →
      (s ∈ feature.screens ↔ feature.name ∈ mentionedFeatures entry) ∧
      (f ∈ screen.event.features ↔ feature.name ∈ mentionedFeatures entry)
  track_screen : ∀ (t : TrackId) (s : ScreenId) track entry,
    plan.track? t = some track → definition.screens.entries[s.index]? = some entry →
      (s ∈ track.screens ↔ track.event.key ∈ listedTracks entry)
  feature_tracks_increasing : ∀ feature ∈ plan.features,
    (feature.tracks.map (·.index)).Pairwise (· < ·)
  feature_screens_increasing : ∀ feature ∈ plan.features,
    (feature.screens.map (·.index)).Pairwise (· < ·)
  track_screens_increasing : ∀ track ∈ plan.tracks,
    (track.screens.map (·.index)).Pairwise (· < ·)
  event_features_nodup : ∀ event ∈ plan.events, event.features.Nodup
  /-- A screen has one copy for each key that it lists, of the track with that key. -/
  copies_eq : ∀ (s : ScreenId) screen entry, plan.screen? s = some screen →
    definition.screens.entries[s.index]? = some entry →
      screen.tracks.map some = (listedTracks entry).map fun key =>
        (plan.findTrack? key).map fun track =>
          ⟨{ track.event with features := screen.event.features }, [s]⟩

end Plan

theorem mem_findIdxs_iff {α : Type} {p : α → Bool} {items : List α} {index : Nat} :
    index ∈ items.findIdxs p ↔ ∃ item, items[index]? = some item ∧ p item = true := by
  rw [List.mem_findIdxs_iff_exists_getElem_pos]
  constructor
  · rintro ⟨hlt, hp⟩
    exact ⟨items[index], List.getElem?_eq_getElem hlt, hp⟩
  · rintro ⟨item, hget, hp⟩
    obtain ⟨hlt, rfl⟩ := List.getElem?_eq_some_iff.mp hget
    exact ⟨hlt, hp⟩

namespace Feature

theorem mem_assembled_tracks_iff {tracks screens : List Draft} {name : String} {t : TrackId} :
    t ∈ (assembled tracks screens name).tracks ↔
      ∃ draft, tracks[t.index]? = some draft ∧ name ∈ draft.mentions := by
  obtain ⟨index⟩ := t
  simp only [assembled, List.mem_map, TrackId.mk.injEq, exists_eq_right, mem_findIdxs_iff,
    List.contains_iff_mem]

theorem mem_assembled_screens_iff {tracks screens : List Draft} {name : String} {s : ScreenId} :
    s ∈ (assembled tracks screens name).screens ↔
      ∃ draft, screens[s.index]? = some draft ∧ name ∈ draft.mentions := by
  obtain ⟨index⟩ := s
  simp only [assembled, List.mem_map, ScreenId.mk.injEq, exists_eq_right, mem_findIdxs_iff,
    List.contains_iff_mem]

theorem assembled_tracks_increasing (tracks screens : List Draft) (name : String) :
    ((assembled tracks screens name).tracks.map (·.index)).Pairwise (· < ·) := by
  simp only [assembled, List.map_map, Function.comp_def, List.map_id']
  exact List.pairwise_findIdxs

theorem assembled_screens_increasing (tracks screens : List Draft) (name : String) :
    ((assembled tracks screens name).screens.map (·.index)).Pairwise (· < ·) := by
  simp only [assembled, List.map_map, Function.comp_def, List.map_id']
  exact List.pairwise_findIdxs

end Feature

namespace Track

theorem mem_assembled_screens_iff {names : List String} {screens : List Draft} {draft : Draft}
    {s : ScreenId} :
    s ∈ (assembled names screens draft).screens ↔
      ∃ screen, screens[s.index]? = some screen ∧ draft.event.key ∈ screen.listed := by
  obtain ⟨index⟩ := s
  simp only [assembled, List.mem_map, ScreenId.mk.injEq, exists_eq_right, mem_findIdxs_iff,
    List.contains_iff_mem]

theorem assembled_screens_increasing (names : List String) (screens : List Draft) (draft : Draft) :
    ((assembled names screens draft).screens.map (·.index)).Pairwise (· < ·) := by
  simp only [assembled, List.map_map, Function.comp_def, List.map_id']
  exact List.pairwise_findIdxs

end Track

namespace Plan

section Assembled

variable {tracks screens : List Draft}

theorem feature?_assembled (f : FeatureId) :
    (assembled tracks screens).feature? f =
      (Draft.allMentions (tracks ++ screens)).eraseDups[f.index]?.map
        (Feature.assembled tracks screens) := by
  simp [feature?, assembled]

theorem track?_assembled (t : TrackId) :
    (assembled tracks screens).track? t = tracks[t.index]?.map
      (Track.assembled (Draft.allMentions (tracks ++ screens)).eraseDups screens) := by
  simp [track?, assembled]

theorem screen?_assembled (s : ScreenId) :
    (assembled tracks screens).screen? s = screens[s.index]?.map
      (Screen.assembled (Draft.allMentions (tracks ++ screens)).eraseDups tracks s.index) := by
  simp [screen?, assembled]

theorem findTrack?_assembled (key : String) :
    (assembled tracks screens).findTrack? key = (tracks.find? (·.event.key == key)).map
      (Track.assembled (Draft.allMentions (tracks ++ screens)).eraseDups screens) := by
  simp only [findTrack?, assembled, List.find?_map]
  rfl

theorem findScreen?_assembled {key : String} {draft : Draft}
    (hfind : screens.find? (·.event.key == key) = some draft) :
    ∃ index, screens[index]? = some draft ∧
      (assembled tracks screens).findScreen? key = some (Screen.assembled
        (Draft.allMentions (tracks ++ screens)).eraseDups tracks index draft) := by
  obtain ⟨hkey, index, hlt, rfl, hearlier⟩ := List.find?_eq_some_iff_getElem.mp hfind
  refine ⟨index, List.getElem?_eq_getElem hlt, List.find?_eq_some_iff_getElem.mpr
    ⟨hkey, index, by simpa using hlt, by simp [assembled], ?_⟩⟩
  intro other hother
  have hnot := hearlier other hother
  simpa [assembled, Screen.assembled, Draft.linked] using hnot

/-- The features of an event, also of a copy, are the places of what a draft mentions. -/
theorem features_of_mem_events {event : Event} (hevent : event ∈ (assembled tracks screens).events) :
    ∃ draft ∈ tracks ++ screens, event.features =
      Draft.places (Draft.allMentions (tracks ++ screens)).eraseDups draft.mentions := by
  simp only [events, assembled, List.mem_append, List.map_map, List.mem_map, Function.comp_apply,
    List.mem_flatMap, List.mem_mapIdx] at hevent
  rcases hevent with ⟨draft, hdraft, rfl⟩ | ⟨screen, ⟨index, hindex, rfl⟩, hevent⟩
  · exact ⟨draft, List.mem_append_left _ hdraft, rfl⟩
  · refine ⟨screens[index], List.mem_append_right _ (List.getElem_mem hindex), ?_⟩
    rcases List.mem_cons.mp hevent with rfl | hcopy
    · rfl
    -- A copy has the features of its screen, not those of its track.
    · simp only [Screen.assembled, List.mem_map, List.mem_filterMap, Option.map_eq_some_iff] at hcopy
      obtain ⟨copy, ⟨key, -, track, -, rfl⟩, rfl⟩ := hcopy
      rfl

theorem feature_lt_of_mem_events {event : Event} (hevent : event ∈ (assembled tracks screens).events)
    {id : FeatureId} (hid : id ∈ event.features) :
    id.index < (assembled tracks screens).features.length := by
  obtain ⟨draft, hdraft, hfeatures⟩ := features_of_mem_events hevent
  rw [hfeatures] at hid
  have hlt := Draft.lt_of_mem_places (fun _ => Draft.mem_eraseDups_allMentions hdraft) hid
  simpa [assembled] using hlt

theorem track_lt_of_mem_features {feature : Feature}
    (hfeature : feature ∈ (assembled tracks screens).features) {id : TrackId}
    (hid : id ∈ feature.tracks) : id.index < (assembled tracks screens).tracks.length := by
  simp only [assembled, List.mem_map] at hfeature
  obtain ⟨name, -, rfl⟩ := hfeature
  obtain ⟨draft, hdraft, -⟩ := Feature.mem_assembled_tracks_iff.mp hid
  simpa using (List.getElem?_eq_some_iff.mp hdraft).1

theorem screen_lt_of_mem_held {id : ScreenId} (hid : id ∈ (assembled tracks screens).heldScreenIds) :
    id.index < (assembled tracks screens).screens.length := by
  simp only [heldScreenIds, assembled, List.mem_append, List.mem_flatMap, List.mem_map,
    List.mem_mapIdx] at hid
  rw [assembled_screens_length]
  rcases hid with (⟨_, ⟨name, -, rfl⟩, hid⟩ | ⟨_, ⟨draft, -, rfl⟩, hid⟩) |
    ⟨_, ⟨index, hindex, rfl⟩, copy, hcopy, hid⟩
  · obtain ⟨draft, hdraft, -⟩ := Feature.mem_assembled_screens_iff.mp hid
    exact (List.getElem?_eq_some_iff.mp hdraft).1
  · obtain ⟨screen, hscreen, -⟩ := Track.mem_assembled_screens_iff.mp hid
    exact (List.getElem?_eq_some_iff.mp hscreen).1
  · simp only [Screen.assembled, List.mem_filterMap, Option.map_eq_some_iff] at hcopy
    obtain ⟨key, -, track, -, rfl⟩ := hcopy
    rw [List.mem_singleton.mp hid]
    exact hindex

/-- A name is a feature of an event exactly when the draft of the event mentions it. -/
theorem mem_places_allMentions_iff {draft : Draft} (hdraft : draft ∈ tracks ++ screens)
    {f : FeatureId} {name : String}
    (hname : (Draft.allMentions (tracks ++ screens)).eraseDups[f.index]? = some name) :
    f ∈ Draft.places (Draft.allMentions (tracks ++ screens)).eraseDups draft.mentions ↔
      name ∈ draft.mentions :=
  Draft.mem_places_iff (nodup_eraseDups _) (fun _ => Draft.mem_eraseDups_allMentions hdraft) hname

end Assembled

section Document

variable {formats : FormatRegistry} {definition : PlanDefinition} {tracks screens : List Draft}

theorem allMentions_drafts (htracks : trackDrafts formats definition = .ok tracks)
    (hscreens : screenDrafts formats definition = .ok screens) :
    Draft.allMentions (tracks ++ screens) =
      (definition.tracks.entries ++ definition.screens.entries).flatMap mentionedFeatures := by
  have htold := map_trackDrafts (·.mentions) mentionedFeatures htracks fun _ _ => rfl
  have hstold := map_screenDrafts (·.mentions) mentionedFeatures hscreens fun _ _ => rfl
  simp only [Draft.allMentions, List.flatMap, List.map_append, htold, hstold]

theorem map_some_filterMap {α β : Type} {choose : α → Option β} {items : List α}
    (hsome : ∀ item ∈ items, (choose item).isSome) :
    (items.filterMap choose).map some = items.map choose := by
  induction items with
  | nil => rfl
  | cons item rest ih =>
      obtain ⟨chosen, hchosen⟩ := Option.isSome_iff_exists.mp (hsome item List.mem_cons_self)
      rw [List.filterMap_cons_some hchosen, List.map_cons, List.map_cons, hchosen,
        ih fun other hother => hsome other (List.mem_cons_of_mem _ hother)]

/-- Every listed key has a track, so the copies follow the list. -/
theorem copies_of_drafts (htracks : trackDrafts formats definition = .ok tracks)
    (hscreens : screenDrafts formats definition = .ok screens) {s : ScreenId} {screen : Screen}
    {entry : String × Option EventDefinition}
    (hscreen : (assembled tracks screens).screen? s = some screen)
    (hentry : definition.screens.entries[s.index]? = some entry) :
    screen.tracks.map some = (listedTracks entry).map fun key =>
      ((assembled tracks screens).findTrack? key).map fun track =>
        ⟨{ track.event with features := screen.event.features }, [s]⟩ := by
  rw [screen?_assembled, Option.map_eq_some_iff] at hscreen
  obtain ⟨draft, hdraft, rfl⟩ := hscreen
  obtain ⟨⟨payload, rfl⟩, hknown⟩ := exists_payload_of_screenDrafts hscreens hentry hdraft
  unfold Screen.assembled
  -- No copy is left out, since an unknown key would have failed the pass.
  refine (map_some_filterMap fun key hkey => ?_).trans ?_
  · have hmem := hknown key hkey
    rw [← keys_trackDrafts htracks] at hmem
    obtain ⟨track, htrack, heq⟩ := List.mem_map.mp hmem
    rw [Option.isSome_map, List.find?_isSome]
    exact ⟨track, htrack, by simpa using heq⟩
  · apply List.map_congr_left
    intro key _
    rw [findTrack?_assembled, Option.map_map]
    rfl

theorem assembled_linkedAs (htracks : trackDrafts formats definition = .ok tracks)
    (hscreens : screenDrafts formats definition = .ok screens) :
    (assembled tracks screens).LinkedAs definition where
  tracks_eq := by
    rw [← map_trackDrafts (fun draft => (draft.event.key, draft.event.name)) _ htracks
      fun _ _ => rfl]
    simp [assembled, Track.assembled, Draft.linked]
  screens_eq := by
    rw [← map_screenDrafts (fun draft => (draft.event.key, draft.event.name)) _ hscreens
      fun _ _ => rfl]
    refine List.ext_getElem (by simp) fun index hlt hlt' => ?_
    simp [assembled, Screen.assembled, Draft.linked]
  features_eq := by rw [assembled_names, allMentions_drafts htracks hscreens]
  feature_lt := fun _ hevent _ hid => feature_lt_of_mem_events hevent hid
  screen_lt := fun _ hid => screen_lt_of_mem_held hid
  track_lt := fun _ hfeature _ hid => track_lt_of_mem_features hfeature hid
  feature_track := by
    intro f t feature track entry hfeature htrack hentry
    rw [feature?_assembled, Option.map_eq_some_iff] at hfeature
    rw [track?_assembled, Option.map_eq_some_iff] at htrack
    obtain ⟨name, hname, rfl⟩ := hfeature
    obtain ⟨draft, hdraft, rfl⟩ := htrack
    have hmem : draft ∈ tracks ++ screens :=
      List.mem_append_left _ (List.mem_of_getElem? hdraft)
    obtain ⟨payload, rfl⟩ := exists_payload_of_trackDrafts htracks hentry hdraft
    refine ⟨?_, mem_places_allMentions_iff hmem hname⟩
    rw [Feature.mem_assembled_tracks_iff, hdraft]
    simp [Feature.assembled, Draft.ofPayload, mentionedFeatures]
  feature_screen := by
    intro f s feature screen entry hfeature hscreen hentry
    rw [feature?_assembled, Option.map_eq_some_iff] at hfeature
    rw [screen?_assembled, Option.map_eq_some_iff] at hscreen
    obtain ⟨name, hname, rfl⟩ := hfeature
    obtain ⟨draft, hdraft, rfl⟩ := hscreen
    have hmem : draft ∈ tracks ++ screens :=
      List.mem_append_right _ (List.mem_of_getElem? hdraft)
    obtain ⟨⟨payload, rfl⟩, -⟩ := exists_payload_of_screenDrafts hscreens hentry hdraft
    refine ⟨?_, mem_places_allMentions_iff hmem hname⟩
    rw [Feature.mem_assembled_screens_iff, hdraft]
    simp [Feature.assembled, Draft.ofPayload, mentionedFeatures]
  track_screen := by
    intro t s track entry htrack hentry
    rw [track?_assembled, Option.map_eq_some_iff] at htrack
    obtain ⟨draft, hdraft, rfl⟩ := htrack
    have hlisted := map_screenDrafts (·.listed) listedTracks hscreens fun _ _ => rfl
    have hget := congrArg (·[s.index]?) hlisted
    simp only [List.getElem?_map, hentry, Option.map_some, Option.map_eq_some_iff] at hget
    obtain ⟨screen, hscreen, hkeys⟩ := hget
    rw [Track.mem_assembled_screens_iff, hscreen, ← hkeys]
    simp [Track.assembled, Draft.linked]
  feature_tracks_increasing := by
    intro feature hfeature
    obtain ⟨name, -, rfl⟩ := List.mem_map.mp hfeature
    exact Feature.assembled_tracks_increasing tracks screens name
  feature_screens_increasing := by
    intro feature hfeature
    obtain ⟨name, -, rfl⟩ := List.mem_map.mp hfeature
    exact Feature.assembled_screens_increasing tracks screens name
  track_screens_increasing := by
    intro track htrack
    obtain ⟨draft, -, rfl⟩ := List.mem_map.mp htrack
    exact Track.assembled_screens_increasing _ screens draft
  event_features_nodup := by
    intro event hevent
    obtain ⟨draft, -, hfeatures⟩ := features_of_mem_events hevent
    rw [hfeatures]
    exact Draft.nodup_places _ _
  copies_eq := fun _ _ _ => copies_of_drafts htracks hscreens

/-- Every section of a plan follows that of the document. -/
theorem keys_of_ofDefinition {plan : Plan} (hplan : ofDefinition formats definition = .ok plan) :
    plan.tracks.map (·.event.key) = definition.tracks.keys ∧
      plan.screens.map (·.event.key) = definition.screens.keys ∧
      plan.definitions.map (·.name) = definition.definitions.keys ∧
      plan.traits.map (·.name) = definition.traits.keys := by
  obtain ⟨tracks, screens, definitions, traits, htracks, hscreens, hdefinitions, htraits, rfl⟩ :=
    ofDefinition_eq_ok_iff.mp hplan
  have hlinked := assembled_linkedAs htracks hscreens
  refine ⟨?_, ?_, (namedTypes_eq_ok hdefinitions).1, (namedTypes_eq_ok htraits).1⟩
  · have hkeys := congrArg (List.map Prod.fst) hlinked.tracks_eq
    rwa [List.map_map, List.map_map] at hkeys
  · have hkeys := congrArg (List.map Prod.fst) hlinked.screens_eq
    rwa [List.map_map, List.map_map] at hkeys

/-- The plan of a document has the entities of the document, linked as the document says. -/
theorem ofDefinition_linkedAs {plan : Plan} (hplan : ofDefinition formats definition = .ok plan) :
    plan.LinkedAs definition := by
  obtain ⟨tracks, screens, definitions, traits, htracks, hscreens, -, -, rfl⟩ :=
    ofDefinition_eq_ok_iff.mp hplan
  -- Definitions and traits take no part in any link.
  exact { assembled_linkedAs htracks hscreens with }

/-- A screen with two features that lists its only track twice. -/
def searchScreen : PlanDefinition where
  tracks := ⟨[("tap", some { EventDefinition.empty with features := ["search"] })], by decide⟩
  screens := ⟨[("home", some { EventDefinition.empty with
    features := ["start", "search", "start"], tracks := ["tap", "tap"] })], by decide⟩
  definitions := .empty
  traits := .empty

theorem searchScreen_linkedAs : ∃ plan, ofDefinition .standard searchScreen = .ok plan ∧
    plan.LinkedAs searchScreen := by
  have hplan : ofDefinition .standard searchScreen = .ok _ := rfl
  exact ⟨_, hplan, ofDefinition_linkedAs hplan⟩

end Document

end Plan

end TrackingPlan
