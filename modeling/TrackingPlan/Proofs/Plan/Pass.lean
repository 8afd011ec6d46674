import TrackingPlan.Proofs.FirstFault
import TrackingPlan.Proofs.Plan.Building

/-!
# The pass over a document

The plan of a document is the reading of all its entries as drafts, tracks
first, followed by the assembly of the drafts. Whether a screen lists a track
that is not there depends on the keys of the document only.
-/

namespace TrackingPlan

namespace Draft

theorem ofEntry_eq_ok_iff {formats : FormatRegistry} {kind : EventKind}
    {entry : String × Option EventDefinition} {draft : Draft} :
    ofEntry formats kind entry = .ok draft ↔
      ∃ payload, Record.ofFragment formats (entry.2.getD .empty).payload = .ok payload ∧
        ofPayload kind entry payload = draft := by
  unfold ofEntry
  simp only [bind_eq_ok_iff, pure, Except.pure, Except.ok.injEq]

theorem ofScreenEntry_eq_ok_iff {formats : FormatRegistry} {known : List String}
    {entry : String × Option EventDefinition} {draft : Draft} :
    ofScreenEntry formats known entry = .ok draft ↔
      ofEntry formats .screen entry = .ok draft ∧ ∀ key ∈ draft.listed, key ∈ known := by
  unfold ofScreenEntry
  cases ofEntry formats .screen entry with
  | error fault => simp [bind, Except.bind]
  | ok other =>
      simp only [bind, Except.bind]
      cases hunknown : other.listed.find? (!known.contains ·) with
      | none =>
          simp only [List.find?_eq_none, Bool.not_eq_true, Bool.not_eq_false',
            List.contains_iff_mem] at hunknown
          constructor
          · rintro ⟨⟩
            exact ⟨rfl, hunknown⟩
          · exact fun h => h.1
      | some key =>
          have hmem := List.mem_of_find?_eq_some hunknown
          have hkey := List.find?_some hunknown
          simp only [Bool.not_eq_true', List.contains_eq_mem, decide_eq_false_iff_not] at hkey
          constructor
          · rintro ⟨⟩
          · rintro ⟨⟨⟩, hknown⟩
            exact absurd (hknown key hmem) hkey

/-- The draft of a track by what the document has at its key. -/
def ofTracks? (formats : FormatRegistry) (tracks : Dict (Option EventDefinition))
    (key : String) : Option Draft :=
  (tracks.get? key).bind fun event => (ofEntry formats .track (key, event)).toOption

theorem key_of_ofEntry {formats : FormatRegistry} {kind : EventKind}
    {entry : String × Option EventDefinition} {draft : Draft}
    (hdraft : ofEntry formats kind entry = .ok draft) : draft.event.key = entry.1 := by
  obtain ⟨payload, -, rfl⟩ := ofEntry_eq_ok_iff.mp hdraft
  rfl

end Draft

namespace Plan

/-- The first half of the pass reads the tracks. -/
theorem foldlM_addTrack (formats : FormatRegistry)
    (entries : List (String × Option EventDefinition)) (tracks : List Draft) :
    entries.foldlM (fun plan (key, track) =>
        inContext (entryLabel "track" key) (plan.addTrack formats key track))
        (assembled tracks []) = do
      let more ← entries.mapM fun entry =>
        inContext (entryLabel "track" entry.1) (Draft.ofEntry formats .track entry)
      return assembled (tracks ++ more) [] := by
  induction entries generalizing tracks with
  | nil => simp
  | cons entry rest ih =>
      rw [List.foldlM_cons, List.mapM_cons]
      dsimp only
      rw [addTrack_assembled, inContext_bind_pure]
      simp only [bind_assoc, pure_bind, ih, List.append_assoc, List.singleton_append]

/-- The second half of the pass reads the screens, whose tracks are all known by then. -/
theorem foldlM_addScreen (formats : FormatRegistry)
    (entries : List (String × Option EventDefinition)) (tracks screens : List Draft)
    (hnodup : (tracks.map (·.event.key)).Nodup) :
    entries.foldlM (fun plan (key, screen) =>
        inContext (entryLabel "screen" key) (plan.addScreen formats key screen))
        (assembled tracks screens) = do
      let more ← entries.mapM fun entry => inContext (entryLabel "screen" entry.1)
        (Draft.ofScreenEntry formats (tracks.map (·.event.key)) entry)
      return assembled tracks (screens ++ more) := by
  induction entries generalizing screens with
  | nil => simp
  | cons entry rest ih =>
      rw [List.foldlM_cons, List.mapM_cons]
      dsimp only
      rw [addScreen_assembled formats tracks screens hnodup, inContext_bind_pure]
      simp only [bind_assoc, pure_bind, ih, List.append_assoc, List.singleton_append]

/-- The tracks of a document as drafts. -/
def trackDrafts (formats : FormatRegistry) (definition : PlanDefinition) :
    Except Fault (List Draft) :=
  definition.tracks.entries.mapM fun entry =>
    inContext (entryLabel "track" entry.1) (Draft.ofEntry formats .track entry)

/-- The screens of a document as drafts. -/
def screenDrafts (formats : FormatRegistry) (definition : PlanDefinition) :
    Except Fault (List Draft) :=
  definition.screens.entries.mapM fun entry => inContext (entryLabel "screen" entry.1)
    (Draft.ofScreenEntry formats definition.tracks.keys entry)

section Reading

variable {formats : FormatRegistry} {definition : PlanDefinition} {tracks screens : List Draft}

/-- What drafts tell of their entries does not depend on payloads. -/
theorem map_trackDrafts {γ : Type} (told : Draft → γ)
    (known : String × Option EventDefinition → γ)
    (htracks : trackDrafts formats definition = .ok tracks)
    (htold : ∀ entry payload, told (Draft.ofPayload .track entry payload) = known entry) :
    tracks.map told = definition.tracks.entries.map known := by
  refine map_eq_of_mapM htracks fun entry draft hdraft => ?_
  obtain ⟨payload, -, rfl⟩ := Draft.ofEntry_eq_ok_iff.mp (inContext_eq_ok_iff.mp hdraft)
  exact htold entry payload

theorem map_screenDrafts {γ : Type} (told : Draft → γ)
    (known : String × Option EventDefinition → γ)
    (hscreens : screenDrafts formats definition = .ok screens)
    (htold : ∀ entry payload, told (Draft.ofPayload .screen entry payload) = known entry) :
    screens.map told = definition.screens.entries.map known := by
  refine map_eq_of_mapM hscreens fun entry draft hdraft => ?_
  have hread := (Draft.ofScreenEntry_eq_ok_iff.mp (inContext_eq_ok_iff.mp hdraft)).1
  obtain ⟨payload, -, rfl⟩ := Draft.ofEntry_eq_ok_iff.mp hread
  exact htold entry payload

theorem keys_trackDrafts (htracks : trackDrafts formats definition = .ok tracks) :
    tracks.map (·.event.key) = definition.tracks.keys :=
  map_trackDrafts _ _ htracks fun _ _ => rfl

/-- The plan of a document is assembled from its drafts. -/
theorem ofDefinition_eq (formats : FormatRegistry) (definition : PlanDefinition) :
    ofDefinition formats definition = do
      let tracks ← trackDrafts formats definition
      let screens ← screenDrafts formats definition
      let definitions ← namedTypes formats "$defs" definition.definitions
      let traits ← namedTypes formats "traits" definition.traits
      return { assembled tracks screens with definitions, traits } := by
  unfold ofDefinition
  rw [empty_eq_assembled, foldlM_addTrack, ← trackDrafts]
  cases htracks : trackDrafts formats definition with
  | error fault => rfl
  | ok tracks =>
      have hkeys := keys_trackDrafts htracks
      have hnodup : (tracks.map (·.event.key)).Nodup := hkeys ▸ definition.tracks.nodup
      simp only [bind, Except.bind, pure, Except.pure, List.nil_append]
      rw [foldlM_addScreen formats _ tracks [] hnodup, hkeys, ← screenDrafts]
      cases screenDrafts formats definition <;> rfl

theorem ofDefinition_eq_ok_iff {plan : Plan} :
    ofDefinition formats definition = .ok plan ↔ ∃ tracks screens definitions traits,
      trackDrafts formats definition = .ok tracks ∧
      screenDrafts formats definition = .ok screens ∧
      namedTypes formats "$defs" definition.definitions = .ok definitions ∧
      namedTypes formats "traits" definition.traits = .ok traits ∧
      { assembled tracks screens with definitions, traits } = plan := by
  rw [ofDefinition_eq]
  simp only [bind_eq_ok_iff, pure, Except.pure, Except.ok.injEq, exists_and_left]

theorem exists_payload_of_trackDrafts
    (htracks : trackDrafts formats definition = .ok tracks) {index : Nat}
    {entry : String × Option EventDefinition} {draft : Draft}
    (hentry : definition.tracks.entries[index]? = some entry)
    (hdraft : tracks[index]? = some draft) :
    ∃ payload, Draft.ofPayload .track entry payload = draft := by
  have hread := inContext_eq_ok_iff.mp (getElem?_of_mapM htracks hentry hdraft)
  obtain ⟨payload, -, hpayload⟩ := Draft.ofEntry_eq_ok_iff.mp hread
  exact ⟨payload, hpayload⟩

theorem exists_payload_of_screenDrafts
    (hscreens : screenDrafts formats definition = .ok screens) {index : Nat}
    {entry : String × Option EventDefinition} {draft : Draft}
    (hentry : definition.screens.entries[index]? = some entry)
    (hdraft : screens[index]? = some draft) :
    (∃ payload, Draft.ofPayload .screen entry payload = draft) ∧
      ∀ key ∈ draft.listed, key ∈ definition.tracks.keys := by
  have hread := inContext_eq_ok_iff.mp (getElem?_of_mapM hscreens hentry hdraft)
  obtain ⟨hentry, hknown⟩ := Draft.ofScreenEntry_eq_ok_iff.mp hread
  obtain ⟨payload, -, hpayload⟩ := Draft.ofEntry_eq_ok_iff.mp hentry
  exact ⟨⟨payload, hpayload⟩, hknown⟩

theorem find?_trackDrafts (htracks : trackDrafts formats definition = .ok tracks) (key : String) :
    tracks.find? (·.event.key == key) = Draft.ofTracks? formats definition.tracks key := by
  rw [find?_of_mapM (fun _ _ hread => Draft.key_of_ofEntry (inContext_eq_ok_iff.mp hread)) htracks]
  unfold Draft.ofTracks? Dict.get?
  congr 1
  funext event
  cases Draft.ofEntry formats .track (key, event) <;> rfl

theorem exists_find?_trackDrafts (htracks : trackDrafts formats definition = .ok tracks)
    {key : String} {event : Option EventDefinition}
    (hentry : definition.tracks.get? key = some event) :
    ∃ draft, tracks.find? (·.event.key == key) = some draft ∧
      Draft.ofEntry formats .track (key, event) = .ok draft := by
  obtain ⟨draft, hfind, hdraft⟩ := exists_find?_of_mapM
    (fun _ _ hread => Draft.key_of_ofEntry (inContext_eq_ok_iff.mp hread)) htracks hentry
  exact ⟨draft, hfind, inContext_eq_ok_iff.mp hdraft⟩

theorem exists_find?_screenDrafts (hscreens : screenDrafts formats definition = .ok screens)
    {key : String} {event : Option EventDefinition}
    (hentry : definition.screens.get? key = some event) :
    ∃ draft, screens.find? (·.event.key == key) = some draft ∧
      Draft.ofEntry formats .screen (key, event) = .ok draft := by
  have hread : ∀ (entry : String × Option EventDefinition) (draft : Draft),
      inContext (entryLabel "screen" entry.1)
        (Draft.ofScreenEntry formats definition.tracks.keys entry) = .ok draft →
        Draft.ofEntry formats .screen entry = .ok draft := by
    intro entry draft hdraft
    exact (Draft.ofScreenEntry_eq_ok_iff.mp (inContext_eq_ok_iff.mp hdraft)).1
  obtain ⟨draft, hfind, hdraft⟩ := exists_find?_of_mapM
    (fun entry draft hdraft => Draft.key_of_ofEntry (hread entry draft hdraft)) hscreens hentry
  exact ⟨draft, hfind, hread _ _ hdraft⟩

theorem namedType_eq_ok {section_ : String} {entry : String × Fragment} {type : NamedType}
    (htype : (do
      let shape ← inContext (entryLabel section_ entry.1) (Shape.ofFragment formats entry.2)
      return ⟨entry.1, shape, entry.2.keywords.description⟩) = Except.ok type) :
    type.name = entry.1 ∧ Shape.ofFragment formats entry.2 = .ok type.type ∧
      type.description = entry.2.keywords.description := by
  obtain ⟨shape, hshape, htype⟩ := bind_eq_ok_iff.mp htype
  obtain rfl := Except.ok.inj htype
  exact ⟨rfl, inContext_eq_ok_iff.mp hshape, rfl⟩

/-- Every entry of a section is a type of the plan under its name. -/
theorem namedTypes_eq_ok {section_ : String} {definitions : Dict Fragment}
    {types : List NamedType} (htypes : namedTypes formats section_ definitions = .ok types) :
    types.map (·.name) = definitions.keys ∧
      ∀ entry ∈ definitions.entries, ∃ type ∈ types, type.name = entry.1 ∧
        Shape.ofFragment formats entry.2 = .ok type.type := by
  refine ⟨map_eq_of_mapM htypes fun entry type htype => (namedType_eq_ok htype).1, ?_⟩
  intro entry hentry
  obtain ⟨type, hmem, htype⟩ := exists_mem_of_mapM htypes hentry
  obtain ⟨hname, hshape, -⟩ := namedType_eq_ok htype
  exact ⟨type, hmem, hname, hshape⟩

variable (formats) in
/-- The description of a named type is that of its fragment. -/
theorem descriptions_of_namedTypes {section_ : String} {entries : Dict Fragment}
    {types : List NamedType} (htypes : namedTypes formats section_ entries = .ok types) :
    types.map (fun type => (type.name, type.description)) =
      entries.entries.map fun entry => (entry.1, entry.2.keywords.description) := by
  refine map_eq_of_mapM htypes fun entry type htype => ?_
  obtain ⟨hname, -, hdescription⟩ := namedType_eq_ok htype
  rw [hname, hdescription]

/-- Every type of the plan is that of an entry. -/
theorem exists_of_mem_namedTypes {section_ : String} {definitions : Dict Fragment}
    {types : List NamedType} (htypes : namedTypes formats section_ definitions = .ok types)
    {type : NamedType} (htype : type ∈ types) :
    ∃ fragment, (type.name, fragment) ∈ definitions.entries ∧
      Shape.ofFragment formats fragment = .ok type.type ∧
      type.description = fragment.keywords.description := by
  obtain ⟨entry, hentry, hread⟩ := exists_of_mem_mapM htypes htype
  obtain ⟨hname, hshape⟩ := namedType_eq_ok hread
  exact ⟨entry.2, hname ▸ hentry, hshape⟩

end Reading

end Plan

end TrackingPlan
