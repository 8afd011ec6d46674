import TrackingPlan.Plan
import TrackingPlan.Proofs.FirstOccurrence

/-!
# Plans assembled at once

A plan is built entry by entry, and ids are handed out before the links they
take part in are complete. Here the same plan is written down at once: its
features are the mentioned names, and a link is there when the entry on one of
its sides mentions the other side. `Plan.addTrack` and `Plan.addScreen` add one
draft to such a plan.
-/

namespace TrackingPlan

attribute [ext] Plan

/-- The name that an event is reported under. -/
def displayName (entry : String × Option EventDefinition) : String :=
  (entry.2.getD .empty).name.getD entry.1

/-- The features that an entry mentions, also repeatedly. -/
def mentionedFeatures (entry : String × Option EventDefinition) : List String :=
  (entry.2.getD .empty).features

/-- The keys of the tracks that an entry lists, also repeatedly. -/
def listedTracks (entry : String × Option EventDefinition) : List String :=
  (entry.2.getD .empty).tracks

/-- An event before anything is linked, with the names of what it is to be linked to. -/
structure Draft where
  event : Event
  mentions : List String
  listed : List String

namespace Draft

/-- What an entry of the document says about its event, for a payload with a shape. -/
def ofPayload (kind : EventKind) (entry : String × Option EventDefinition)
    (payload : ObjectShape) : Draft :=
  let definition := entry.2.getD .empty
  { event := {
      kind
      key := entry.1
      name := displayName entry
      description := definition.description
      additionalProperties := definition.additionalProperties.getD false
      loginRequired := definition.loginRequired
      payload
      features := [] }
    mentions := mentionedFeatures entry
    listed := listedTracks entry }

/-- An entry is a draft once its payload has a shape. -/
def ofEntry (formats : FormatRegistry) (kind : EventKind)
    (entry : String × Option EventDefinition) : Except Fault Draft := do
  let payload ← Record.ofFragment formats (entry.2.getD .empty).payload
  return ofPayload kind entry payload

/-- All names of features that are mentioned, also repeatedly. -/
def allMentions (drafts : List Draft) : List String := drafts.flatMap (·.mentions)

/-- The places of mentioned names, each once. -/
def places (names mentions : List String) : List FeatureId :=
  (mentions.map fun name => FeatureId.mk (names.idxOf name)).eraseDups

theorem nodup_places (names mentions : List String) : (places names mentions).Nodup :=
  nodup_eraseDups _

/-- Names that are mentioned later do not move the earlier ones. -/
theorem places_append {before after mentions : List String}
    (hmem : ∀ name ∈ mentions, name ∈ before) :
    places (before ++ after).eraseDups mentions = places before.eraseDups mentions := by
  unfold places
  congr 1
  apply List.map_congr_left
  intro name hname
  rw [idxOf_eraseDups_append (hmem name hname)]

theorem places_concat (names mentions : List String) (name : String) :
    places names (mentions ++ [name]) =
      if (places names mentions).contains ⟨names.idxOf name⟩ then places names mentions
      else places names mentions ++ [⟨names.idxOf name⟩] := by
  unfold places
  rw [List.map_append, List.map_singleton]
  by_cases hmem : FeatureId.mk (names.idxOf name) ∈
      mentions.map fun name => FeatureId.mk (names.idxOf name)
  · rw [eraseDups_concat_of_mem hmem,
      if_pos (List.contains_iff_mem.mpr (List.mem_eraseDups.mpr hmem))]
  · rw [eraseDups_concat_of_not_mem hmem,
      if_neg (fun h => hmem (List.mem_eraseDups.mp (List.contains_iff_mem.mp h)))]

/-- A place is held by an event exactly when the name there is mentioned. -/
theorem mem_places_iff {names mentions : List String} (hnodup : names.Nodup)
    (hmem : ∀ name ∈ mentions, name ∈ names) {index : Nat} {name : String}
    (hname : names[index]? = some name) :
    FeatureId.mk index ∈ places names mentions ↔ name ∈ mentions := by
  simp only [places, List.mem_eraseDups, List.mem_map, FeatureId.mk.injEq]
  constructor
  · rintro ⟨other, hother, hindex⟩
    have hget := (idxOf_eq_iff_getElem?_eq hnodup (hmem other hother)).mp hindex
    rw [hname] at hget
    exact Option.some.inj hget ▸ hother
  · intro hmention
    exact ⟨name, hmention, (idxOf_eq_iff_getElem?_eq hnodup (hmem name hmention)).mpr hname⟩

theorem lt_of_mem_places {names mentions : List String} (hmem : ∀ name ∈ mentions, name ∈ names)
    {id : FeatureId} (hid : id ∈ places names mentions) : id.index < names.length := by
  simp only [places, List.mem_eraseDups, List.mem_map] at hid
  obtain ⟨name, hname, rfl⟩ := hid
  exact List.idxOf_lt_length_of_mem (hmem name hname)

theorem mem_eraseDups_allMentions {drafts : List Draft} {draft : Draft} (hdraft : draft ∈ drafts)
    {name : String} (hname : name ∈ draft.mentions) : name ∈ (allMentions drafts).eraseDups :=
  List.mem_eraseDups.mpr (List.mem_flatMap.mpr ⟨draft, hdraft, hname⟩)

/-- The event with its features as places among the names. -/
def linked (names : List String) (draft : Draft) : Event :=
  { draft.event with features := places names draft.mentions }

end Draft

namespace Feature

/-- A feature nobody belongs to. -/
def unlinked (name : String) : Feature := ⟨name, [], []⟩

/-- The feature with links to all events that mention it. -/
def assembled (tracks screens : List Draft) (name : String) : Feature where
  name := name
  screens := (screens.findIdxs (·.mentions.contains name)).map ScreenId.mk
  tracks := (tracks.findIdxs (·.mentions.contains name)).map TrackId.mk

theorem assembled_of_not_mentioned {tracks screens : List Draft} {name : String}
    (hmem : name ∉ Draft.allMentions (tracks ++ screens)) :
    assembled tracks screens name = unlinked name := by
  simp only [Draft.allMentions, List.flatMap_append, List.mem_append, List.mem_flatMap, not_or,
    not_exists, not_and] at hmem
  have hscreens : screens.findIdxs (·.mentions.contains name) = [] := by
    rw [List.findIdxs_eq_nil_iff]
    intro draft hdraft
    simpa using hmem.2 draft hdraft
  have htracks : tracks.findIdxs (·.mentions.contains name) = [] := by
    rw [List.findIdxs_eq_nil_iff]
    intro draft hdraft
    simpa using hmem.1 draft hdraft
  simp only [assembled, unlinked, hscreens, htracks, List.map_nil]

end Feature

namespace Track

/-- The track with links to all screens that list it. -/
def assembled (names : List String) (screens : List Draft) (draft : Draft) : Track where
  event := draft.linked names
  screens := (screens.findIdxs (·.listed.contains draft.event.key)).map ScreenId.mk

end Track

namespace Screen

/-- The screen with a copy of each listed track. -/
def assembled (names : List String) (tracks : List Draft) (index : Nat) (draft : Draft) :
    Screen where
  event := draft.linked names
  tracks := draft.listed.filterMap fun key =>
    (tracks.find? (·.event.key == key)).map fun track =>
      ⟨{ track.event with features := (draft.linked names).features }, [⟨index⟩]⟩

end Screen

namespace Plan

/-- The plan of all drafts, without its definitions and traits. -/
def assembled (tracks screens : List Draft) : Plan :=
  let names := (Draft.allMentions (tracks ++ screens)).eraseDups
  { features := names.map (Feature.assembled tracks screens)
    screens := screens.mapIdx (Screen.assembled names tracks)
    tracks := tracks.map (Track.assembled names screens)
    definitions := []
    traits := [] }

theorem empty_eq_assembled : empty = assembled [] [] := rfl

/-- The plan with more features that nobody belongs to yet. -/
def withMore (plan : Plan) (names : List String) : Plan :=
  { plan with features := plan.features ++ names.map Feature.unlinked }

@[simp] theorem withMore_tracks (plan : Plan) (names : List String) :
    (plan.withMore names).tracks = plan.tracks := rfl

@[simp] theorem withMore_screens (plan : Plan) (names : List String) :
    (plan.withMore names).screens = plan.screens := rfl

theorem withMore_names (plan : Plan) (names : List String) :
    (plan.withMore names).features.map (·.name) = plan.features.map (·.name) ++ names := by
  simp [withMore, Function.comp_def, Feature.unlinked]

theorem withMore_append (plan : Plan) (first second : List String) :
    plan.withMore (first ++ second) = (plan.withMore first).withMore second := by
  simp [withMore]

theorem removeAll_concat_eraseDups (mentioned names : List String) (name : String) :
    ((names ++ [name]).removeAll mentioned).eraseDups =
      (names.removeAll mentioned).eraseDups ++ [name].removeAll (mentioned ++ names) := by
  by_cases hmentioned : name ∈ mentioned
  · simp [List.removeAll, hmentioned]
  · have hconcat : (names ++ [name]).removeAll mentioned = names.removeAll mentioned ++ [name] := by
      simp [List.removeAll, hmentioned]
    rw [hconcat]
    by_cases hnames : name ∈ names
    · rw [eraseDups_concat_of_mem (by simp [List.removeAll, hmentioned, hnames])]
      simp [List.removeAll, hnames]
    · rw [eraseDups_concat_of_not_mem (by simp [List.removeAll, hnames])]
      simp [List.removeAll, hmentioned, hnames]

/-- A name becomes a feature at its first mention, and keeps the place of that mention. -/
theorem internFeature_eq {plan : Plan} {mentioned : List String} (name : String)
    (hnames : plan.features.map (·.name) = mentioned.eraseDups) :
    plan.internFeature name = (plan.withMore ([name].removeAll mentioned),
      ⟨(mentioned ++ [name]).eraseDups.idxOf name⟩) := by
  have hplace : plan.features.findIdx? (·.name == name) = mentioned.eraseDups.idxOf? name := by
    rw [← hnames, List.idxOf?, List.findIdx?_map]
    rfl
  unfold internFeature
  rw [hplace]
  by_cases hmem : name ∈ mentioned
  · obtain ⟨index, hindex⟩ := Option.isSome_iff_exists.mp
      (List.isSome_idxOf?.mpr (List.mem_eraseDups.mpr hmem))
    rw [eraseDups_concat_of_mem hmem, List.idxOf_eq_getD_idxOf?, hindex]
    simp [List.removeAll, hmem, withMore]
  · have hnone : mentioned.eraseDups.idxOf? name = none := by
      rw [List.idxOf?_eq_none_iff, List.mem_eraseDups]
      exact hmem
    have hlength : plan.features.length = mentioned.eraseDups.length := by
      rw [← hnames, List.length_map]
    rw [hnone, eraseDups_concat_of_not_mem hmem, List.idxOf_append,
      if_neg (List.mem_eraseDups.not.mpr hmem)]
    simp [List.removeAll, hmem, withMore, Feature.unlinked, hlength]

theorem internFeatures_concat (plan : Plan) (names : List String) (name : String) :
    plan.internFeatures (names ++ [name]) =
      let before := plan.internFeatures names
      let step := before.1.internFeature name
      (step.1, if before.2.contains step.2 then before.2 else before.2 ++ [step.2]) := by
  unfold internFeatures
  rw [List.foldl_append, List.foldl_cons, List.foldl_nil]

/-- Mentioned names become features in the order of their first mention, and
an event has each of its features once. -/
theorem internFeatures_eq {plan : Plan} {mentioned : List String} (names : List String)
    (hnames : plan.features.map (·.name) = mentioned.eraseDups) :
    plan.internFeatures names = (plan.withMore (names.removeAll mentioned).eraseDups,
      Draft.places (mentioned ++ names).eraseDups names) := by
  induction names using List.reverseRecOn with
  | nil => simp [internFeatures, withMore, Draft.places]
  | append_singleton names name ih =>
      have hgrown : (plan.withMore (names.removeAll mentioned).eraseDups).features.map (·.name) =
          (mentioned ++ names).eraseDups := by
        rw [withMore_names, hnames, List.eraseDups_append]
      have hplaces : Draft.places (mentioned ++ names ++ [name]).eraseDups names =
          Draft.places (mentioned ++ names).eraseDups names :=
        Draft.places_append fun _ => List.mem_append_right _
      rw [internFeatures_concat, ih, removeAll_concat_eraseDups, withMore_append,
        ← List.append_assoc, Draft.places_concat, hplaces]
      dsimp only
      rw [internFeature_eq name hgrown]

end Plan

end TrackingPlan
