import TrackingPlan.Proofs.Shape.Constructs

/-!
# Listed values

A list of values for a type has a shape when it is not empty and no number in it
is infinite or NaN: one constant for each value, in order, all with the type as
their base. Otherwise the first such number is reported, or that there is none.
-/

namespace TrackingPlan

def Literal.IsFinite : Literal → Prop
  | float value => value.isFinite = true
  | _ => True

namespace Shape

variable {base shape : Shape} {values : List Literal} {fault : Fault}

theorem allowedValue_of_isFinite {value : Literal} (hvalue : value.IsFinite) :
    allowedValue base value = .ok (constant value base) := by
  cases value with
  | float value => exact if_pos hvalue
  | _ => rfl

theorem verdict_allowedValue_eq_ok_iff {value : Literal} :
    verdict (allowedValue base value) = .ok () ↔ value.IsFinite := by
  cases value with
  | float value =>
      rw [allowedValue]
      by_cases hfinite : value.isFinite = true <;> simp [hfinite, Literal.IsFinite]
  | _ => simp [allowedValue, Literal.IsFinite]

theorem verdict_allowedValue_eq_error_iff {value : Literal} :
    verdict (allowedValue base value) = .error fault ↔ ∃ float, value = .float float ∧
      float.isFinite = false ∧
      fault = .ofCause (.unsupportedConstant ("non-finite number `" ++ float.toText ++ "`")) := by
  cases value with
  | float value =>
      rw [allowedValue]
      by_cases hfinite : value.isFinite = true
      · simp [hfinite]
      · simp only [hfinite, Bool.false_eq_true, if_false, verdict_error, Except.error.injEq]
        constructor
        · rintro rfl
          exact ⟨value, rfl, by simpa using hfinite, rfl⟩
        · rintro ⟨_, ⟨⟩, -, rfl⟩
          rfl
  | _ => simp [allowedValue]

/-- The first number that is infinite or NaN is what fails. -/
theorem mapM_allowedValue_eq_error_iff :
    values.mapM (allowedValue base) = .error fault ↔ ∃ before float after,
      values = before ++ .float float :: after ∧ (∀ earlier ∈ before, earlier.IsFinite) ∧
      float.isFinite = false ∧
      fault = .ofCause (.unsupportedConstant ("non-finite number `" ++ float.toText ++ "`")) := by
  rw [← verdict_eq_error_iff, verdict_mapM, forM_eq_error_iff]
  simp only [verdict_allowedValue_eq_ok_iff, verdict_allowedValue_eq_error_iff]
  constructor
  · rintro ⟨before, first, after, hvalues, hbefore, float, rfl, hfloat⟩
    exact ⟨before, float, after, hvalues, hbefore, hfloat⟩
  · rintro ⟨before, float, after, hvalues, hbefore, hfloat⟩
    exact ⟨before, _, after, hvalues, hbefore, float, rfl, hfloat⟩

theorem enumeration_eq_ok_iff :
    enumeration values base = .ok shape ↔
      (∀ value ∈ values, value.IsFinite) ∧ unionOf (values.map (constant · base)) = .ok shape := by
  by_cases hfinite : ∀ value ∈ values, value.IsFinite
  · have hlisted : values.mapM (allowedValue base) = .ok (values.map (constant · base)) :=
      mapM_eq_ok_map fun value hvalue => allowedValue_of_isFinite (hfinite value hvalue)
    rw [enumeration, hlisted, and_iff_right hfinite]
    cases values with
    | nil => simp [bind, Except.bind, unionOf]
    | cons value rest => cases rest <;> rfl
  · refine iff_of_false (fun hshape => hfinite fun value hvalue => ?_) fun h => hfinite h.1
    obtain ⟨options, hlisted, -⟩ := bind_eq_ok_iff.mp hshape
    obtain ⟨option, -, hoption⟩ := exists_mem_of_mapM hlisted hvalue
    exact verdict_allowedValue_eq_ok_iff.mp (verdict_eq_ok_iff.mpr ⟨option, hoption⟩)

theorem enumeration_eq_error_iff :
    enumeration values base = .error fault ↔
      (values = [] ∧ fault = .ofCause .emptyEnum) ∨ ∃ before float after,
        values = before ++ .float float :: after ∧ (∀ earlier ∈ before, earlier.IsFinite) ∧
        float.isFinite = false ∧
        fault = .ofCause (.unsupportedConstant ("non-finite number `" ++ float.toText ++ "`")) := by
  rw [← @mapM_allowedValue_eq_error_iff base values fault]
  cases values with
  | nil => simp [enumeration, bind, Except.bind, pure, Except.pure, eq_comm]
  | cons value rest =>
      unfold enumeration
      cases hlisted : (value :: rest).mapM (allowedValue base) with
      | error other => simp [bind, Except.bind]
      | ok options =>
          have hlength := (mapM_eq_ok_iff.mp hlisted).length_eq
          rcases options with _ | ⟨first, _ | ⟨second, others⟩⟩
          · simp at hlength
          · simp [bind, Except.bind]
          · simp [bind, Except.bind]

end Shape

end TrackingPlan
