import TrackingPlan.Proofs.Layout.References
import TrackingPlan.Proofs.Schema.WellFormed

/-!
# Normal types in plans

Every type of a plan is the normal shape of what the document has at its key: the
payloads of tracks and screens, those of the copies that screens hold, and the
types of definitions and traits.
-/

namespace TrackingPlan

namespace Plan

/-- Every type of the plan is the normal shape of its entry in the document. -/
structure Normalizes (formats : FormatRegistry) (definition : PlanDefinition) (plan : Plan) :
    Prop where
  tracks : ∀ track ∈ plan.tracks, ∃ event,
    (track.event.key, event) ∈ definition.tracks.entries ∧
      (event.getD .empty).payload.Normalizes formats (.object track.event.payload)
  screens : ∀ screen ∈ plan.screens, ∃ event,
    (screen.event.key, event) ∈ definition.screens.entries ∧
      (event.getD .empty).payload.Normalizes formats (.object screen.event.payload)
  copies : ∀ screen ∈ plan.screens, ∀ copy ∈ screen.tracks, ∃ event,
    (copy.event.key, event) ∈ definition.tracks.entries ∧
      (event.getD .empty).payload.Normalizes formats (.object copy.event.payload)
  definitions : ∀ type ∈ plan.definitions, ∃ fragment,
    (type.name, fragment) ∈ definition.definitions.entries ∧ fragment.Normalizes formats type.type
  traits : ∀ type ∈ plan.traits, ∃ fragment,
    (type.name, fragment) ∈ definition.traits.entries ∧ fragment.Normalizes formats type.type

variable {formats : FormatRegistry} {definition : PlanDefinition} {plan : Plan}

theorem payload_of_mem_tracks (hplan : ofDefinition formats definition = .ok plan) {track : Track}
    (htrack : track ∈ plan.tracks) : ∃ event,
      (track.event.key, event) ∈ definition.tracks.entries ∧
        Record.ofFragment formats (event.getD .empty).payload = .ok track.event.payload := by
  obtain ⟨tracks, screens, definitions, traits, htracks, -, -, -, rfl⟩ :=
    ofDefinition_eq_ok_iff.mp hplan
  obtain ⟨draft, hdraft, rfl⟩ := List.mem_map.mp htrack
  obtain ⟨⟨key, event⟩, hentry, hread⟩ := exists_of_mem_mapM htracks hdraft
  obtain ⟨payload, hpayload, rfl⟩ := Draft.ofEntry_eq_ok_iff.mp (inContext_eq_ok_iff.mp hread)
  exact ⟨event, hentry, hpayload⟩

theorem payload_of_mem_screens (hplan : ofDefinition formats definition = .ok plan)
    {screen : Screen} (hscreen : screen ∈ plan.screens) : ∃ event,
      (screen.event.key, event) ∈ definition.screens.entries ∧
        Record.ofFragment formats (event.getD .empty).payload = .ok screen.event.payload := by
  obtain ⟨tracks, screens, definitions, traits, -, hscreens, -, -, rfl⟩ :=
    ofDefinition_eq_ok_iff.mp hplan
  obtain ⟨index, hindex, rfl⟩ := List.mem_mapIdx.mp hscreen
  obtain ⟨⟨key, event⟩, hentry, hread⟩ := exists_of_mem_mapM hscreens (List.getElem_mem hindex)
  have hdraft := (Draft.ofScreenEntry_eq_ok_iff.mp (inContext_eq_ok_iff.mp hread)).1
  obtain ⟨payload, hpayload, hsame⟩ := Draft.ofEntry_eq_ok_iff.mp hdraft
  rw [Screen.assembled, ← hsame]
  exact ⟨event, hentry, hpayload⟩

theorem normalizes_payload {event : EventDefinition} {payload : ObjectShape}
    (hevent : event.payload.IsWellFormed)
    (hpayload : Record.ofFragment formats event.payload = .ok payload) :
    event.payload.Normalizes formats (.object payload) :=
  Fragment.normalizes_of_ofFragment hevent (Shape.ofFragment_of_record rfl rfl hpayload)

theorem normalizes_of_ofDefinition (hdefinition : definition.IsWellFormed)
    (hplan : ofDefinition formats definition = .ok plan) : plan.Normalizes formats definition where
  tracks := by
    intro track htrack
    obtain ⟨event, hentry, hpayload⟩ := payload_of_mem_tracks hplan htrack
    exact ⟨event, hentry, normalizes_payload (hdefinition.tracks _ hentry) hpayload⟩
  screens := by
    intro screen hscreen
    obtain ⟨event, hentry, hpayload⟩ := payload_of_mem_screens hplan hscreen
    exact ⟨event, hentry, normalizes_payload (hdefinition.screens _ hentry) hpayload⟩
  copies := by
    intro screen hscreen copy hcopy
    obtain ⟨event, hevent, hpayload⟩ := payload_of_copy hplan hscreen hcopy
    obtain ⟨before, after, hentries, -⟩ := List.lookup_eq_some_iff.mp hevent
    have hentry : (copy.event.key, event) ∈ definition.tracks.entries := by simp [hentries]
    exact ⟨event, hentry, normalizes_payload (hdefinition.tracks _ hentry) hpayload⟩
  definitions := by
    obtain ⟨tracks, screens, definitions, traits, -, -, hdefinitions, -, rfl⟩ :=
      ofDefinition_eq_ok_iff.mp hplan
    intro type htype
    obtain ⟨fragment, hentry, hshape, -⟩ := exists_of_mem_namedTypes hdefinitions htype
    exact ⟨fragment, hentry,
      Fragment.normalizes_of_ofFragment (hdefinition.definitions _ hentry) hshape⟩
  traits := by
    obtain ⟨tracks, screens, definitions, traits, -, -, -, htraits, rfl⟩ :=
      ofDefinition_eq_ok_iff.mp hplan
    intro type htype
    obtain ⟨fragment, hentry, hshape, -⟩ := exists_of_mem_namedTypes htraits htype
    exact ⟨fragment, hentry,
      Fragment.normalizes_of_ofFragment (hdefinition.traits _ hentry) hshape⟩

/-- A shape is the normal form of its fragment, and so are all types of a plan, those inside of
constants included. Whatever is read from a text is well formed. -/
theorem shapes_normal (formats : FormatRegistry) :
    (∀ fragment : Fragment, fragment.IsWellFormed → ∀ shape,
      Shape.ofFragment formats fragment = .ok shape → fragment.Normalizes formats shape) ∧
    (∀ definition : PlanDefinition, definition.IsWellFormed → ∀ plan,
      ofDefinition formats definition = .ok plan → plan.Normalizes formats definition) ∧
    (∀ text fragment, Fragment.ofText text = .ok fragment → fragment.IsWellFormed) ∧
    ∀ text definition, PlanDefinition.ofText text = .ok definition → definition.IsWellFormed :=
  ⟨fun _ hfragment _ => Fragment.normalizes_of_ofFragment hfragment,
    fun _ hdefinition _ => normalizes_of_ofDefinition hdefinition,
    fun _ _ => Fragment.isWellFormed_of_ofText,
    fun _ _ => PlanDefinition.isWellFormed_of_ofText⟩

/-- A constant number. -/
def two : Fragment where
  keywords := { Keywords.none with constant := some (.float (.ofInt 2)) }
  oneOf := none
  properties := none
  additional := none
  items := none

/-- Two values that are listed for lists of this number, which is the only alternative there. -/
def scales : Fragment where
  keywords := { Keywords.none with
    type := some "array"
    allowed := some [.string "near", .string "far"] }
  oneOf := none
  properties := none
  additional := none
  items := some { Fragment.empty with oneOf := some [two] }

/-- A document with this type in a payload, which a screen has a copy of, and in a trait. -/
def mapScreen : PlanDefinition where
  tracks := ⟨[("Zoom", some { EventDefinition.empty with
    properties := some ⟨[("scales", scales)], by decide⟩
    required := some ["scales", "other"] })], by decide⟩
  screens := ⟨[("Map", some { EventDefinition.empty with tracks := ["Zoom"] })], by decide⟩
  definitions := .empty
  traits := ⟨[("Scales", scales)], by decide⟩

theorem isWellFormed_scales : scales.IsWellFormed := by
  have htwo : two.IsWellFormed := by
    refine Fragment.isWellFormed_of_keywords ⟨List.nodup_nil, fun value hvalue => ?_⟩
      nofun nofun nofun
    obtain rfl := Option.some.inj hvalue
    exact (show (Binary64.ofInt 2).isFinite = true by decide)
  have honly : ({ Fragment.empty with oneOf := some [two] } : Fragment).IsWellFormed :=
    Fragment.isWellFormed_of_keywords ⟨List.nodup_nil, nofun⟩ nofun nofun
      fun _ hoptions => Option.some.inj hoptions ▸ List.forall_mem_singleton.mpr htwo
  exact Fragment.isWellFormed_of_keywords ⟨List.nodup_nil, nofun⟩ nofun
    (fun _ hitems => Option.some.inj hitems ▸ honly) nofun

theorem isWellFormed_mapScreen : mapScreen.IsWellFormed where
  tracks := List.forall_mem_singleton.mpr
    (EventDefinition.isWellFormed_payload (List.forall_mem_singleton.mpr isWellFormed_scales))
  screens := List.forall_mem_singleton.mpr (EventDefinition.isWellFormed_payload nofun)
  definitions := nofun
  traits := List.forall_mem_singleton.mpr isWellFormed_scales

theorem mapScreen_normal :
    let twos := Shape.array (.constant (.float (.ofInt 2)) (.number false none))
    scales.Normalizes .standard
      (.union (.constant (.string "near") twos) (.constant (.string "far") twos) []) ∧
    (∃ plan, ofDefinition .standard mapScreen = .ok plan ∧ plan.Normalizes .standard mapScreen) ∧
    (∃ fragment, Fragment.ofText "const: 2.5" = .ok fragment ∧ fragment.IsWellFormed) ∧
    ∃ definition, PlanDefinition.ofText "traits: {A: }" = .ok definition ∧
      definition.IsWellFormed := by
  obtain ⟨hfragments, hplans, htexts, hdocuments⟩ := shapes_normal .standard
  have hbase : scales.unlisted.Declares .standard
      (.array (.constant (.float (.ofInt 2)) (.number false none))) :=
    .array rfl rfl rfl (.only rfl rfl (.constant rfl (.float _)))
  have hscales := (Fragment.Declares.values ⟨.array, rfl, rfl⟩ rfl (by simp [Literal.IsFinite])
    hbase).ofFragment
  have hplan : ofDefinition .standard mapScreen = .ok _ := eq_ok_of_isOk (by decide +kernel)
  have hfragment : Fragment.ofText "const: 2.5" = .ok _ := eq_ok_of_isOk (by decide +kernel)
  have hdocument : PlanDefinition.ofText "traits: {A: }" = .ok _ :=
    eq_ok_of_isOk (by decide +kernel)
  exact ⟨hfragments _ isWellFormed_scales _ hscales,
    ⟨_, hplan, hplans _ isWellFormed_mapScreen _ hplan⟩,
    ⟨_, hfragment, htexts _ _ hfragment⟩, ⟨_, hdocument, hdocuments _ _ hdocument⟩⟩

end Plan

end TrackingPlan
