import TrackingPlan.Proofs.Plan.Pass

/-!
# Documents without a plan

What a document needs is a list of requirements in the order in which they are
looked at. There is a plan when all of them hold, and otherwise the fault is
that of the first one that does not. How far the plan has been built plays no
part: a requirement depends on the registry and on the keys of the tracks.
-/

namespace TrackingPlan

/-- Something that is needed for a plan. -/
inductive Requirement where
  /-- The payload of an event has a shape. -/
  | payload (section_ key : String) (fragment : Fragment)
  /-- A track that a screen lists is in the document. -/
  | listed (screen key : String)
  /-- A named type has a shape. -/
  | type (section_ name : String) (fragment : Fragment)

namespace Requirement

open Plan (entryLabel)

def Holds (formats : FormatRegistry) (known : List String) : Requirement → Prop
  | payload _ _ fragment => ∃ shape, Record.ofFragment formats fragment = .ok shape
  | listed _ key => key ∈ known
  | type _ _ fragment => ∃ shape, Shape.ofFragment formats fragment = .ok shape

/-- The requirement does not hold, and this is reported: what is wrong inside
of the entity, in the context of the entity. -/
def Fails (formats : FormatRegistry) (known : List String) (fault : Fault) : Requirement → Prop
  | payload section_ key fragment => ∃ inner, Record.ofFragment formats fragment = .error inner ∧
      fault = ⟨entryLabel section_ key :: inner.contexts, inner.cause⟩
  | listed screen key =>
      key ∉ known ∧ fault = ⟨[entryLabel "screen" screen], .notFound "tracks" key⟩
  | type section_ name fragment => ∃ inner, Shape.ofFragment formats fragment = .error inner ∧
      fault = ⟨entryLabel section_ name :: inner.contexts, inner.cause⟩

/-- The requirements of a screen: its payload, then what it lists. -/
def ofScreen (entry : String × Option EventDefinition) : List Requirement :=
  payload "screen" entry.1 (entry.2.getD .empty).payload ::
    (listedTracks entry).map (listed entry.1)

def ofTrack (entry : String × Option EventDefinition) : Requirement :=
  payload "track" entry.1 (entry.2.getD .empty).payload

def ofType (section_ : String) (entry : String × Fragment) : Requirement :=
  type section_ entry.1 entry.2

/-- The part of the pass that looks at a requirement. -/
def check (formats : FormatRegistry) (known : List String) : Requirement → Except Fault Unit
  | payload section_ key fragment =>
      inContext (entryLabel section_ key) (verdict (Record.ofFragment formats fragment))
  | listed screen key =>
      if key ∈ known then .ok ()
      else .error ⟨[entryLabel "screen" screen], .notFound "tracks" key⟩
  | type section_ name fragment =>
      inContext (entryLabel section_ name) (verdict (Shape.ofFragment formats fragment))

section Check

variable {formats : FormatRegistry} {known : List String} {requirement : Requirement}

theorem check_eq_ok_iff :
    requirement.check formats known = .ok () ↔ requirement.Holds formats known := by
  cases requirement with
  | payload section_ key fragment =>
      exact inContext_eq_ok_iff.trans verdict_eq_ok_iff
  | listed screen key => simp [check, Holds]
  | type section_ name fragment =>
      exact inContext_eq_ok_iff.trans verdict_eq_ok_iff

theorem check_eq_error_iff {fault : Fault} :
    requirement.check formats known = .error fault ↔ requirement.Fails formats known fault := by
  cases requirement with
  | payload section_ key fragment =>
      simp only [check, inContext_eq_error_iff, verdict_eq_error_iff, Fails, Fault.within]
  | listed screen key =>
      by_cases hknown : key ∈ known
      · simp [check, Fails, hknown]
      · simp [check, Fails, hknown, eq_comm]
  | type section_ name fragment =>
      simp only [check, inContext_eq_error_iff, verdict_eq_error_iff, Fails, Fault.within]

end Check

end Requirement

/-- What a document needs, in the order in which it is looked at. -/
def PlanDefinition.requirements (definition : PlanDefinition) : List Requirement :=
  definition.tracks.entries.map Requirement.ofTrack ++
    (definition.screens.entries.flatMap Requirement.ofScreen ++
      (definition.definitions.entries.map (Requirement.ofType "$defs") ++
        definition.traits.entries.map (Requirement.ofType "traits")))

namespace Plan

variable (formats : FormatRegistry) (known : List String)

theorem verdict_ofEntry (kind : EventKind) (entry : String × Option EventDefinition) :
    verdict (Draft.ofEntry formats kind entry) =
      verdict (Record.ofFragment formats (entry.2.getD .empty).payload) := by
  unfold Draft.ofEntry
  cases Record.ofFragment formats (entry.2.getD .empty).payload <;> rfl

/-- Looking for the first unknown key is looking at the listed keys one by one. -/
theorem forM_check_listed (screen : String) (keys : List String) :
    forM (keys.map (Requirement.listed screen)) (Requirement.check formats known) =
      match keys.find? (!known.contains ·) with
      | some key => .error ⟨[entryLabel "screen" screen], .notFound "tracks" key⟩
      | none => .ok () := by
  induction keys with
  | nil => rfl
  | cons key rest ih =>
      rw [List.map_cons, List.forM_cons, ih]
      by_cases hknown : key ∈ known
      · rw [List.find?_cons_of_neg (by simpa using hknown)]
        simp only [Requirement.check, if_pos hknown]
        rfl
      · rw [List.find?_cons_of_pos (by simpa using hknown)]
        simp only [Requirement.check, if_neg hknown]
        rfl

theorem verdict_ofScreenEntry (entry : String × Option EventDefinition) :
    verdict (inContext (entryLabel "screen" entry.1)
        (Draft.ofScreenEntry formats known entry)) =
      forM (Requirement.ofScreen entry) (Requirement.check formats known) := by
  unfold Requirement.ofScreen Draft.ofScreenEntry Draft.ofEntry
  rw [List.forM_cons, forM_check_listed, Requirement.check]
  cases Record.ofFragment formats (entry.2.getD .empty).payload with
  | error fault => rfl
  | ok payload =>
      have hlisted : (Draft.ofPayload .screen entry payload).listed = listedTracks entry := rfl
      simp only [bind, Except.bind, pure, Except.pure, hlisted, verdict_ok, inContext]
      cases (listedTracks entry).find? (!known.contains ·) <;> rfl

theorem verdict_namedTypes (section_ : String) (entries : Dict Fragment) :
    verdict (namedTypes formats section_ entries) =
      forM (entries.entries.map (Requirement.ofType section_))
        (Requirement.check formats known) := by
  unfold namedTypes
  rw [verdict_mapM, List.forM_map]
  congr 1
  funext entry
  obtain ⟨name, fragment⟩ := entry
  simp only [Requirement.ofType, Requirement.check]
  cases Shape.ofFragment formats fragment <;> rfl

/-- The pass fails as looking at the requirements one by one does. -/
theorem verdict_ofDefinition (definition : PlanDefinition) :
    verdict (ofDefinition formats definition) =
      forM definition.requirements (Requirement.check formats definition.tracks.keys) := by
  have htracks : verdict (trackDrafts formats definition) =
      forM (definition.tracks.entries.map Requirement.ofTrack)
        (Requirement.check formats definition.tracks.keys) := by
    simp only [trackDrafts, verdict_mapM, List.forM_map, verdict_inContext, verdict_ofEntry]
    rfl
  have hscreens : verdict (screenDrafts formats definition) =
      forM (definition.screens.entries.flatMap Requirement.ofScreen)
        (Requirement.check formats definition.tracks.keys) := by
    simp only [screenDrafts, verdict_mapM, forM_flatMap, verdict_ofScreenEntry]
  rw [ofDefinition_eq, PlanDefinition.requirements]
  simp only [List.forM_append]
  rw [← htracks, ← hscreens, ← verdict_namedTypes, ← verdict_namedTypes]
  -- No later part of the pass depends on what the earlier ones have read.
  refine verdict_bind fun tracks _ => verdict_bind fun screens _ => verdict_bind fun _ _ => ?_
  cases namedTypes formats "traits" definition.traits <;> rfl

theorem forall_requirements_iff {definition : PlanDefinition} {p : Requirement → Prop} :
    (∀ requirement ∈ definition.requirements, p requirement) ↔
      (∀ entry ∈ definition.tracks.entries, p (Requirement.ofTrack entry)) ∧
      (∀ entry ∈ definition.screens.entries, ∀ requirement ∈ Requirement.ofScreen entry,
        p requirement) ∧
      (∀ entry ∈ definition.definitions.entries, p (Requirement.ofType "$defs" entry)) ∧
      (∀ entry ∈ definition.traits.entries, p (Requirement.ofType "traits" entry)) := by
  simp only [PlanDefinition.requirements, List.forall_mem_append, List.forall_mem_map,
    List.mem_flatMap, forall_exists_index, and_imp]
  constructor
  · rintro ⟨htracks, hscreens, htypes⟩
    exact ⟨htracks, fun entry hentry requirement hmem => hscreens requirement entry hentry hmem,
      htypes⟩
  · rintro ⟨htracks, hscreens, htypes⟩
    exact ⟨htracks, fun requirement entry hentry hmem => hscreens entry hentry requirement hmem,
      htypes⟩

end Plan

end TrackingPlan
