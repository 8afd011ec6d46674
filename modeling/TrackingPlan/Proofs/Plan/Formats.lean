import TrackingPlan.Proofs.Layout.References
import TrackingPlan.Proofs.Shape.Formats

/-!
# Formats in plans

A registry decides how the strings of a plan are rendered, and nothing else. Two
plans of one document differ in nothing but that, and a document that has no
plan has the same fault, whatever is registered.
-/

namespace TrackingPlan

def Event.withoutFormats (event : Event) : Event :=
  { event with payload := event.payload.withoutFormats }

def Track.withoutFormats (track : Track) : Track :=
  { track with event := track.event.withoutFormats }

def Screen.withoutFormats (screen : Screen) : Screen where
  event := screen.event.withoutFormats
  tracks := screen.tracks.map Track.withoutFormats

def NamedType.withoutFormats (type : NamedType) : NamedType :=
  { type with type := type.type.withoutFormats }

/-- The plan with all formatted strings as strings that only have the format. -/
def Plan.withoutFormats (plan : Plan) : Plan where
  features := plan.features
  screens := plan.screens.map Screen.withoutFormats
  tracks := plan.tracks.map Track.withoutFormats
  definitions := plan.definitions.map NamedType.withoutFormats
  traits := plan.traits.map NamedType.withoutFormats

namespace Draft

def withoutFormats (draft : Draft) : Draft :=
  { draft with event := draft.event.withoutFormats }

variable (formats : FormatRegistry)

theorem map_withoutFormats_ofEntry (kind : EventKind) (entry : String × Option EventDefinition) :
    (ofEntry formats kind entry).map withoutFormats = ofEntry .empty kind entry :=
  map_bind_eq (Record.map_withoutFormats_ofFragment formats _) fun _ => rfl

theorem map_withoutFormats_ofScreenEntry (known : List String)
    (entry : String × Option EventDefinition) :
    (ofScreenEntry formats known entry).map withoutFormats = ofScreenEntry .empty known entry := by
  refine map_bind_eq (map_withoutFormats_ofEntry formats .screen entry) fun draft => ?_
  have hlisted : draft.withoutFormats.listed = draft.listed := rfl
  rw [hlisted]
  cases draft.listed.find? (!known.contains ·) <;> rfl

theorem allMentions_map_withoutFormats (drafts : List Draft) :
    allMentions (drafts.map withoutFormats) = allMentions drafts := by
  rw [allMentions, List.flatMap_map]
  rfl

end Draft

section Assembled

variable (names : List String) (tracks screens : List Draft)

theorem Feature.assembled_withoutFormats (name : String) :
    assembled (tracks.map Draft.withoutFormats) (screens.map Draft.withoutFormats) name =
      assembled tracks screens name := by
  unfold assembled
  rw [List.findIdxs_map, List.findIdxs_map]
  rfl

theorem Track.assembled_withoutFormats (draft : Draft) :
    assembled names (screens.map Draft.withoutFormats) draft.withoutFormats =
      (assembled names screens draft).withoutFormats := by
  unfold assembled
  rw [List.findIdxs_map]
  rfl

theorem Screen.assembled_withoutFormats (index : Nat) (draft : Draft) :
    assembled names (tracks.map Draft.withoutFormats) index draft.withoutFormats =
      (assembled names tracks index draft).withoutFormats := by
  unfold assembled Screen.withoutFormats
  dsimp only
  rw [List.map_filterMap]
  simp only [List.find?_map, Option.map_map]
  rfl

/-- What is assembled from drafts without formats has none. -/
theorem Plan.assembled_withoutFormats :
    assembled (tracks.map Draft.withoutFormats) (screens.map Draft.withoutFormats) =
      (assembled tracks screens).withoutFormats := by
  have hmentions : Draft.allMentions (tracks.map Draft.withoutFormats ++
      screens.map Draft.withoutFormats) = Draft.allMentions (tracks ++ screens) := by
    rw [← List.map_append, Draft.allMentions_map_withoutFormats]
  have hscreens : ∀ names, (screens.map Draft.withoutFormats).mapIdx
      (Screen.assembled names (tracks.map Draft.withoutFormats)) =
        (screens.mapIdx (Screen.assembled names tracks)).map Screen.withoutFormats := by
    intro names
    refine List.ext_getElem (by simp) fun index _ _ => ?_
    simp only [List.getElem_mapIdx, List.getElem_map, Screen.assembled_withoutFormats]
  unfold assembled withoutFormats
  simp only [hmentions, hscreens, funext (Feature.assembled_withoutFormats tracks screens),
    List.map_map, Function.comp_def, Track.assembled_withoutFormats, List.map_nil]

end Assembled

namespace Plan

variable (formats : FormatRegistry) (definition : PlanDefinition)

theorem map_withoutFormats_trackDrafts :
    (trackDrafts formats definition).map (List.map Draft.withoutFormats) =
      trackDrafts .empty definition := by
  refine map_mapM_eq fun entry _ => ?_
  rw [map_inContext, Draft.map_withoutFormats_ofEntry]

theorem map_withoutFormats_screenDrafts :
    (screenDrafts formats definition).map (List.map Draft.withoutFormats) =
      screenDrafts .empty definition := by
  refine map_mapM_eq fun entry _ => ?_
  rw [map_inContext, Draft.map_withoutFormats_ofScreenEntry]

theorem map_withoutFormats_namedTypes (section_ : String) (definitions : Dict Fragment) :
    (namedTypes formats section_ definitions).map (List.map NamedType.withoutFormats) =
      namedTypes .empty section_ definitions := by
  refine map_mapM_eq fun entry _ => ?_
  have htype : (inContext (entryLabel section_ entry.1) (Shape.ofFragment formats entry.2)).map
      Shape.withoutFormats =
        inContext (entryLabel section_ entry.1) (Shape.ofFragment .empty entry.2) := by
    rw [map_inContext, Shape.map_withoutFormats_ofFragment]
  exact map_bind_eq htype fun type => rfl

/-- Without formats, the plan of a document is the one when no format is registered. -/
theorem map_withoutFormats_ofDefinition :
    (ofDefinition formats definition).map withoutFormats = ofDefinition .empty definition := by
  rw [ofDefinition_eq, ofDefinition_eq]
  refine map_bind_eq (map_withoutFormats_trackDrafts formats definition) fun tracks => ?_
  refine map_bind_eq (map_withoutFormats_screenDrafts formats definition) fun screens => ?_
  refine map_bind_eq (map_withoutFormats_namedTypes formats _ _) fun definitions => ?_
  refine map_bind_eq (map_withoutFormats_namedTypes formats _ _) fun traits => ?_
  rw [assembled_withoutFormats]
  rfl

/-- Every string of a plan is formatted as the registry says for the format that the document has
at its place. -/
structure RendersFormats (formats : FormatRegistry) (definition : PlanDefinition) (plan : Plan) :
    Prop where
  tracks : ∀ key event, definition.tracks.get? key = some event →
    ∃ track, plan.findTrack? key = some track ∧
      (Shape.object track.event.payload).strings =
        (event.getD .empty).payload.stringFormats.map formats.rendered
  screens : ∀ key event, definition.screens.get? key = some event →
    ∃ screen, plan.findScreen? key = some screen ∧
      (Shape.object screen.event.payload).strings =
        (event.getD .empty).payload.stringFormats.map formats.rendered
  copies : ∀ screen ∈ plan.screens, ∀ copy ∈ screen.tracks,
    ∃ event, definition.tracks.get? copy.event.key = some event ∧
      (Shape.object copy.event.payload).strings =
        (event.getD .empty).payload.stringFormats.map formats.rendered
  definitions : ∀ entry ∈ definition.definitions.entries,
    ∃ type ∈ plan.definitions, type.name = entry.1 ∧
      type.type.strings = entry.2.stringFormats.map formats.rendered
  traits : ∀ entry ∈ definition.traits.entries,
    ∃ type ∈ plan.traits, type.name = entry.1 ∧
      type.type.strings = entry.2.stringFormats.map formats.rendered

variable {formats definition}

theorem strings_payload {event : EventDefinition} {payload : ObjectShape}
    (hpayload : Record.ofFragment formats event.payload = .ok payload) :
    (Shape.object payload).strings = event.payload.stringFormats.map formats.rendered :=
  Shape.strings_ofFragment (Shape.ofFragment_of_record rfl rfl hpayload)

theorem ofDefinition_rendersFormats {plan : Plan}
    (hplan : ofDefinition formats definition = .ok plan) :
    plan.RendersFormats formats definition where
  tracks := by
    intro key event hentry
    obtain ⟨track, hfind, hpayload⟩ := payload_of_track hplan hentry
    exact ⟨track, hfind, strings_payload hpayload⟩
  screens := by
    intro key event hentry
    obtain ⟨screen, hfind, hpayload⟩ := payload_of_screen hplan hentry
    exact ⟨screen, hfind, strings_payload hpayload⟩
  copies := by
    intro screen hscreen copy hcopy
    obtain ⟨event, hevent, hpayload⟩ := payload_of_copy hplan hscreen hcopy
    exact ⟨event, hevent, strings_payload hpayload⟩
  definitions := by
    obtain ⟨tracks, screens, definitions, traits, -, -, hdefinitions, -, rfl⟩ :=
      ofDefinition_eq_ok_iff.mp hplan
    intro entry hentry
    obtain ⟨type, hmem, hname, hshape⟩ := (namedTypes_eq_ok hdefinitions).2 entry hentry
    exact ⟨type, hmem, hname, Shape.strings_ofFragment hshape⟩
  traits := by
    obtain ⟨tracks, screens, definitions, traits, -, -, -, htraits, rfl⟩ :=
      ofDefinition_eq_ok_iff.mp hplan
    intro entry hentry
    obtain ⟨type, hmem, hname, hshape⟩ := (namedTypes_eq_ok htraits).2 entry hentry
    exact ⟨type, hmem, hname, Shape.strings_ofFragment hshape⟩

/-- A document has a plan under one registry when it has one under another, and otherwise the same
fault. The plans differ in nothing but what the formats of their strings are rendered as. -/
theorem ofDefinition_of_formats (first second : FormatRegistry) (definition : PlanDefinition) :
    (∀ fault, ofDefinition first definition = .error fault ↔
      ofDefinition second definition = .error fault) ∧
    ∀ plan, ofDefinition first definition = .ok plan →
      plan.RendersFormats first definition ∧
      ∃ other, ofDefinition second definition = .ok other ∧
        other.withoutFormats = plan.withoutFormats := by
  have hmap : (ofDefinition first definition).map withoutFormats =
      (ofDefinition second definition).map withoutFormats := by
    rw [map_withoutFormats_ofDefinition, map_withoutFormats_ofDefinition]
  obtain ⟨hfaults, hplans⟩ := agree_of_map_eq hmap
  exact ⟨hfaults, fun plan hplan => ⟨ofDefinition_rendersFormats hplan, hplans plan hplan⟩⟩

/-- A string with a format in a payload, in a list of values and under a number. -/
def visits : PlanDefinition where
  tracks := ⟨[("visit", some { EventDefinition.empty with
    properties := some ⟨[("at", { Fragment.empty with
      keywords := { Keywords.none with type := some "string", format := some "date-time" } }),
      ("count", { Fragment.empty with
        keywords := { Keywords.none with type := some "integer", format := some "date-time" } })],
      by decide⟩ })], by decide⟩
  screens := .empty
  definitions := ⟨[("Start", { Fragment.empty with
    keywords := { Keywords.none with
      type := some "string", format := some "date-time"
      allowed := some [.string "now", .string "then"] } })], by decide⟩
  traits := .empty

def visitsPlan (formats : FormatRegistry) : Plan :=
  (ofDefinition formats visits).toOption.getD default

/-- A registry that renders the format in another way than as dates. -/
def moments : FormatRegistry := FormatRegistry.standard.register "date-time" (.named "Moment")

theorem visits_of_formats :
    ofDefinition .standard visits = .ok (visitsPlan .standard) ∧
    (visitsPlan .standard).RendersFormats .standard visits ∧
    (visitsPlan .standard).definitions.map (·.type.strings) =
      [[(some "date-time", some .date), (some "date-time", some .date)]] ∧
    ∃ other, ofDefinition moments visits = .ok other ∧
      other.withoutFormats = (visitsPlan .standard).withoutFormats ∧
      other.definitions.map (·.type.strings) =
        [[(some "date-time", some (.named "Moment")),
          (some "date-time", some (.named "Moment"))]] := by
  have hplan : ofDefinition .standard visits = .ok (visitsPlan .standard) :=
    eq_ok_of_isOk (by decide +kernel)
  have hmoments : ofDefinition moments visits = .ok (visitsPlan moments) :=
    eq_ok_of_isOk (by decide +kernel)
  obtain ⟨hrenders, other, hother, hsame⟩ :=
    (ofDefinition_of_formats .standard moments visits).2 _ hplan
  obtain rfl := Except.ok.inj (hmoments.symm.trans hother)
  exact ⟨hplan, hrenders, by decide +kernel, _, hmoments, hsame, by decide +kernel⟩

end Plan

end TrackingPlan
