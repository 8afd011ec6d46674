import TrackingPlan.Proofs.Shape.Listed

/-!
# Flaws of fragments

A fragment is read together with its parts, and these with theirs. Which keywords
hold parts depends on the construct; what stands under the others is not looked
at. A fragment has no shape exactly when one that it is read with has a flaw. The
fault is that of the flaw found first: a fragment is looked at before its parts,
its listed values after them.
-/

namespace TrackingPlan

/-- The label of a property in messages. -/
def propertyLabel (name : String) : String := "property `" ++ name ++ "`"

/-- The label of the items of an array in messages. -/
def itemsLabel : String := "array items"

/-- What is called the kind of a constant that no type can have. -/
def Constant.refusedKind? : Constant → Option String
  | null => some "null"
  | boolean _ => some "boolean"
  | array _ => some "array"
  | object _ => some "object"
  | integer _ | float _ | string _ => none

namespace Fragment

def IsTyped (fragment : Fragment) : Prop :=
  ∃ kind, fragment.kind = .ok kind ∧ kind.isTyped = true

def typeNames : List String := ["string", "number", "integer", "boolean", "object", "array"]

section Parts

/-- What a fragment is made of, in the order of the document, with the labels that
lead to each part. An alternative has none. -/
def parts (fragment : Fragment) : List (List String × Fragment) :=
  match fragment.kind with
  | .ok .object =>
    (fragment.properties.getD []).map fun entry => ([propertyLabel entry.1], entry.2)
  | .ok .array => fragment.items.toList.map fun items => ([itemsLabel], items)
  | .ok .union => (fragment.oneOf.getD []).map fun option => ([], option)
  | _ => []

theorem mem_parts_of_property {fragment : Fragment} {entry : String × Fragment}
    (hkind : fragment.kind = .ok .object) (hentry : entry ∈ fragment.properties.getD []) :
    ([propertyLabel entry.1], entry.2) ∈ fragment.parts := by
  unfold parts
  rw [hkind]
  exact List.mem_map_of_mem hentry

theorem mem_parts_of_items {fragment items : Fragment} (hkind : fragment.kind = .ok .array)
    (hitems : fragment.items = some items) : ([itemsLabel], items) ∈ fragment.parts := by
  simp [parts, hkind, hitems]

theorem mem_parts_of_option {fragment option : Fragment} {options : List Fragment}
    (hkind : fragment.kind = .ok .union) (hoptions : fragment.oneOf = some options)
    (hoption : option ∈ options) : ([], option) ∈ fragment.parts := by
  simp [parts, hkind, hoptions, hoption]

/-- The fragments that a fragment is read with, itself included, with the labels on
the way to them. -/
inductive Reaches : Fragment → List String → Fragment → Prop where
  | here (fragment : Fragment) : Reaches fragment [] fragment
  | part {fragment part inner : Fragment} {label labels : List String}
      (hpart : (label, part) ∈ fragment.parts) (hinner : Reaches part labels inner) :
      Reaches fragment (label ++ labels) inner

/-- A part stands under one of three keywords. -/
theorem exists_of_mem_parts {fragment : Fragment} {part : List String × Fragment}
    (hpart : part ∈ fragment.parts) :
    (∃ entries, fragment.properties = some entries ∧ ∃ entry ∈ entries, entry.2 = part.2) ∨
      fragment.items = some part.2 ∨
      ∃ options, fragment.oneOf = some options ∧ part.2 ∈ options := by
  unfold parts at hpart
  split at hpart
  · cases hentries : fragment.properties with
    | none => simp [hentries] at hpart
    | some entries =>
        rw [hentries] at hpart
        obtain ⟨entry, hentry, rfl⟩ := List.mem_map.mp hpart
        exact .inl ⟨entries, rfl, entry, hentry, rfl⟩
  · obtain ⟨items, hitems, rfl⟩ := List.mem_map.mp hpart
    exact .inr (.inl (Option.mem_toList.mp hitems))
  · cases hoptions : fragment.oneOf with
    | none => simp [hoptions] at hpart
    | some options =>
        rw [hoptions] at hpart
        obtain ⟨option, hoption, rfl⟩ := List.mem_map.mp hpart
        exact .inr (.inr ⟨options, rfl, hoption⟩)
  · cases hpart

theorem sizeOf_lt_of_mem_parts {fragment : Fragment} {part : List String × Fragment}
    (hpart : part ∈ fragment.parts) : sizeOf part.2 < sizeOf fragment := by
  have hplace := exists_of_mem_parts hpart
  obtain ⟨keywords, oneOf, properties, additional, items⟩ := fragment
  obtain ⟨label, part⟩ := part
  rcases hplace with ⟨entries, rfl, ⟨name, entry⟩, hentry, rfl⟩ | rfl | ⟨options, rfl, hoption⟩
  · have hlt : sizeOf (name, entry) < sizeOf entries := List.sizeOf_lt_of_mem hentry
    simp only [Prod.mk.sizeOf_spec, Fragment.mk.sizeOf_spec, Option.some.sizeOf_spec] at hlt ⊢
    omega
  · simp only [Fragment.mk.sizeOf_spec, Option.some.sizeOf_spec]
    omega
  · have hlt : sizeOf part < sizeOf options := List.sizeOf_lt_of_mem hoption
    simp only [Fragment.mk.sizeOf_spec, Option.some.sizeOf_spec]
    omega

end Parts

section Visits

/-- A fragment is looked at twice: at itself before its parts, and at its listed
values after them. -/
inductive Stage where
  | itself
  | values

/-- A look at a fragment, with the labels on the way to it. -/
structure Visit where
  labels : List String
  fragment : Fragment
  stage : Stage

def Visit.below (labels : List String) (visit : Visit) : Visit :=
  { visit with labels := labels ++ visit.labels }

/-- All looks at a fragment and what it is read with, in their order. -/
def visits (fragment : Fragment) : List Visit :=
  ⟨[], fragment, .itself⟩ ::
    (fragment.parts.attach.flatMap (fun part => part.1.2.visits.map (Visit.below part.1.1)) ++
      [⟨[], fragment, .values⟩])
termination_by sizeOf fragment
decreasing_by exact sizeOf_lt_of_mem_parts part.2

theorem visits_eq (fragment : Fragment) :
    fragment.visits = ⟨[], fragment, .itself⟩ ::
      (fragment.parts.flatMap (fun part => part.2.visits.map (Visit.below part.1)) ++
        [⟨[], fragment, .values⟩]) := by
  rw [visits, List.flatMap_subtype (g := fun part => part.2.visits.map (Visit.below part.1))
    fun _ _ => rfl, List.unattach_attach]

/-- What is looked at is all that the fragment is read with, at both stages. -/
theorem mem_visits_iff {fragment inner : Fragment} {labels : List String} {stage : Stage} :
    ⟨labels, inner, stage⟩ ∈ fragment.visits ↔ fragment.Reaches labels inner := by
  constructor
  · intro hvisit
    induction fragment using visits.induct generalizing labels with
    | case1 fragment ih =>
        rw [visits_eq] at hvisit
        simp only [List.mem_cons, List.mem_append, List.mem_flatMap, List.mem_map,
          List.not_mem_nil, or_false] at hvisit
        rcases hvisit with hvisit | ⟨⟨label, part⟩, hpart, ⟨more, found, found_stage⟩, hfound, hbelow⟩ |
          hvisit
        · obtain ⟨rfl, rfl, -⟩ := Visit.mk.inj hvisit
          exact .here _
        · obtain ⟨rfl, rfl, rfl⟩ := Visit.mk.inj hbelow
          exact .part hpart (ih ⟨_, hpart⟩ hfound)
        · obtain ⟨rfl, rfl, -⟩ := Visit.mk.inj hvisit
          exact .here _
  · intro hreaches
    induction hreaches with
    | here fragment =>
        rw [visits_eq]
        cases stage <;> simp
    | part hpart _ ih =>
        rw [visits_eq]
        refine List.mem_cons_of_mem _ (List.mem_append_left _ ?_)
        exact List.mem_flatMap.mpr ⟨_, hpart, List.mem_map.mpr ⟨_, ih, rfl⟩⟩

end Visits

section Flaws

/-- What can be wrong with a fragment at each of its two stages, its parts aside. -/
inductive HasFlaw (fragment : Fragment) : Stage → Cause → Prop where
  | noConstruct (hconstant : fragment.keywords.constant = none)
      (htype : fragment.keywords.type = none) (hreference : fragment.keywords.reference = none)
      (hoptions : fragment.oneOf = none) :
      HasFlaw fragment .itself
        (.unknownShape "expected one of `const`, `type`, `$ref` or `oneOf`")
  | unknownType {type : String} (hconstant : fragment.keywords.constant = none)
      (htype : fragment.keywords.type = some type) (hunknown : type ∉ typeNames) :
      HasFlaw fragment .itself (.unknownShape ("unsupported type `" ++ type ++ "`"))
  | refusedConstant {value : Constant} {kind : String}
      (hconstant : fragment.keywords.constant = some value)
      (hrefused : value.refusedKind? = some kind) :
      HasFlaw fragment .itself (.unsupportedConstant kind)
  | noItems (hkind : fragment.kind = .ok .array) (hitems : fragment.items = none) :
      HasFlaw fragment .itself (.unknownShape "array without `items`")
  | noOptions (hkind : fragment.kind = .ok .union) (hoptions : fragment.oneOf = some []) :
      HasFlaw fragment .itself .emptyUnion
  | noValues (htyped : fragment.IsTyped) (hallowed : fragment.keywords.allowed = some []) :
      HasFlaw fragment .values .emptyEnum
  /-- Of several such numbers, the first one is reported. -/
  | notFinite {before after : List Literal} {value : Binary64} (htyped : fragment.IsTyped)
      (hallowed : fragment.keywords.allowed = some (before ++ .float value :: after))
      (hbefore : ∀ earlier ∈ before, earlier.IsFinite) (hvalue : value.isFinite = false) :
      HasFlaw fragment .values
        (.unsupportedConstant ("non-finite number `" ++ value.toText ++ "`"))

/-- What the reading of a fragment looks at in the fragment, at each stage. -/
def inspect (fragment : Fragment) (stage : Stage) : Except Fault Unit :=
  match fragment.kind, stage with
  | .error fault, .itself => .error fault
  | .ok (.constant value), .itself => verdict (Shape.ofConstant value)
  | .ok .array, .itself =>
    if fragment.items.isSome then .ok ()
    else .error (.ofCause (.unknownShape "array without `items`"))
  | .ok .union, .itself => verdict (Shape.unionOf ((fragment.oneOf.getD []).map fun _ => .boolean))
  | .ok kind, .values =>
    if kind.isTyped then verdict (Shape.restrict fragment.keywords.allowed .boolean) else .ok ()
  | _, _ => .ok ()

theorem verdict_ofConstant_eq_error_iff {value : Constant} {fault : Fault} :
    verdict (Shape.ofConstant value) = .error fault ↔
      ∃ kind, value.refusedKind? = some kind ∧ fault = .ofCause (.unsupportedConstant kind) := by
  cases value with
  | integer value =>
      rw [Shape.ofConstant]
      split <;> simp [Constant.refusedKind?]
  | _ => simp [Shape.ofConstant, Constant.refusedKind?, eq_comm]

theorem kindOfType_eq_error_iff {type : String} {fault : Fault} :
    kindOfType type = .error fault ↔
      type ∉ typeNames ∧ fault = .ofCause (.unknownShape ("unsupported type `" ++ type ++ "`")) := by
  unfold kindOfType typeNames
  split_ifs <;> simp_all [eq_comm]

variable {fragment : Fragment} {fault : Fault}

theorem kind_of_type {type : String} (hconstant : fragment.keywords.constant = none)
    (htype : fragment.keywords.type = some type) : fragment.kind = kindOfType type := by
  unfold kind kindOf
  rw [hconstant, htype]

theorem kind_of_constant {value : Constant} (hconstant : fragment.keywords.constant = some value) :
    fragment.kind = .ok (.constant value) := by
  unfold kind kindOf
  rw [hconstant]

/-- A flaw is reported where it is looked for. -/
theorem HasFlaw.inspect {stage : Stage} {cause : Cause} (hflaw : fragment.HasFlaw stage cause) :
    fragment.inspect stage = .error (.ofCause cause) := by
  cases hflaw with
  | noConstruct hconstant htype hreference hoptions =>
      simp [Fragment.inspect, kind, kindOf, hconstant, htype, hreference, hoptions]
  | unknownType hconstant htype hunknown =>
      have hkind := kindOfType_eq_error_iff.mpr ⟨hunknown, rfl⟩
      simp only [Fragment.inspect, kind_of_type hconstant htype, hkind]
  | refusedConstant hconstant hrefused =>
      simp only [Fragment.inspect, kind_of_constant hconstant]
      exact verdict_ofConstant_eq_error_iff.mpr ⟨_, hrefused, rfl⟩
  | noItems hkind hitems => simp [Fragment.inspect, hkind, hitems]
  | noOptions hkind hoptions =>
      simp [Fragment.inspect, hkind, hoptions, Shape.unionOf]
  | noValues htyped hallowed =>
      obtain ⟨kind, hkind, htyped⟩ := htyped
      simp only [Fragment.inspect, hkind, htyped, if_true, hallowed, verdict_eq_error_iff]
      exact Shape.enumeration_eq_error_iff.mpr (.inl ⟨rfl, rfl⟩)
  | notFinite htyped hallowed hbefore hvalue =>
      obtain ⟨kind, hkind, htyped⟩ := htyped
      simp only [Fragment.inspect, hkind, htyped, if_true, hallowed, verdict_eq_error_iff]
      exact Shape.enumeration_eq_error_iff.mpr (.inr ⟨_, _, _, rfl, hbefore, hvalue, rfl⟩)

theorem hasFlaw_of_kind (hkind : fragment.kind = .error fault) :
    ∃ cause, fragment.HasFlaw .itself cause ∧ fault = .ofCause cause := by
  unfold kind kindOf at hkind
  split at hkind
  next => cases hkind
  next type hconstant htype =>
    obtain ⟨hunknown, rfl⟩ := kindOfType_eq_error_iff.mp hkind
    exact ⟨_, .unknownType hconstant htype hunknown, rfl⟩
  next => cases hkind
  next hconstant htype hreference =>
    split at hkind
    · cases hkind
    · next hoptions =>
      obtain rfl := Except.error.inj hkind
      exact ⟨_, .noConstruct hconstant htype hreference (by simpa using hoptions), rfl⟩

theorem hasFlaw_of_inspect {stage : Stage} (hinspect : fragment.inspect stage = .error fault) :
    ∃ cause, fragment.HasFlaw stage cause ∧ fault = .ofCause cause := by
  cases hkind : fragment.kind with
  | error other =>
      cases stage with
      | values => simp [inspect, hkind] at hinspect
      | itself =>
          obtain rfl : other = fault := by simpa [inspect, hkind] using hinspect
          exact hasFlaw_of_kind hkind
  | ok kind =>
      cases stage with
      | values =>
          by_cases htyped : kind.isTyped = true
          · simp only [inspect, hkind, htyped, if_true, verdict_eq_error_iff] at hinspect
            cases hallowed : fragment.keywords.allowed with
            | none => simp [hallowed, Shape.restrict] at hinspect
            | some values =>
                rw [hallowed] at hinspect
                rcases Shape.enumeration_eq_error_iff.mp hinspect with
                  ⟨rfl, rfl⟩ | ⟨before, value, after, rfl, hbefore, hvalue, rfl⟩
                · exact ⟨_, .noValues ⟨kind, hkind, htyped⟩ hallowed, rfl⟩
                · exact ⟨_, .notFinite ⟨kind, hkind, htyped⟩ hallowed hbefore hvalue, rfl⟩
          · simp [inspect, hkind, htyped] at hinspect
      | itself =>
          cases kind with
          | constant value =>
              have hconstant := constant_of_kindOf hkind
              simp only [inspect, hkind] at hinspect
              obtain ⟨name, hrefused, rfl⟩ := verdict_ofConstant_eq_error_iff.mp hinspect
              exact ⟨_, .refusedConstant hconstant hrefused, rfl⟩
          | array =>
              cases hitems : fragment.items with
              | some items => simp [inspect, hkind, hitems] at hinspect
              | none =>
                  simp only [inspect, hkind, hitems] at hinspect
                  obtain rfl := Except.error.inj hinspect
                  exact ⟨_, .noItems hkind hitems, rfl⟩
          | union =>
              obtain ⟨options, hoptions⟩ := Option.isSome_iff_exists.mp (hasOptions_of_kindOf hkind)
              simp only [inspect, hkind, hoptions] at hinspect
              rcases options with _ | ⟨first, _ | ⟨second, others⟩⟩
              · obtain rfl := Except.error.inj hinspect
                exact ⟨_, .noOptions hkind hoptions, rfl⟩
              · cases hinspect
              · cases hinspect
          | _ => simp [inspect, hkind] at hinspect

theorem inspect_eq_error_iff {stage : Stage} :
    fragment.inspect stage = .error fault ↔
      ∃ cause, fragment.HasFlaw stage cause ∧ fault = .ofCause cause := by
  constructor
  · exact hasFlaw_of_inspect
  · rintro ⟨cause, hflaw, rfl⟩
    exact hflaw.inspect

end Flaws

/-- The part of the reading of a fragment that a visit stands for. -/
def Visit.check (visit : Visit) : Except Fault Unit :=
  inContexts visit.labels (visit.fragment.inspect visit.stage)

theorem Visit.check_below (labels : List String) (visit : Visit) :
    (visit.below labels).check = inContexts labels visit.check := by
  unfold check below
  rw [inContexts_append]

theorem Visit.check_eq_error_iff {visit : Visit} {fault : Fault} :
    visit.check = .error fault ↔
      visit.fragment.HasFlaw visit.stage fault.cause ∧ fault.contexts = visit.labels := by
  unfold check
  rw [inContexts_eq_error_iff]
  simp only [inspect_eq_error_iff]
  constructor
  · rintro ⟨_, ⟨cause, hflaw, rfl⟩, rfl⟩
    exact ⟨hflaw, List.append_nil _⟩
  · rintro ⟨hflaw, hcontexts⟩
    refine ⟨_, ⟨_, hflaw, rfl⟩, ?_⟩
    obtain ⟨contexts, cause⟩ := fault
    simp [Fault.ofCause, ← hcontexts]

theorem Visit.check_eq_ok_iff {visit : Visit} :
    visit.check = .ok () ↔ ∀ cause, ¬ visit.fragment.HasFlaw visit.stage cause := by
  constructor
  · intro hcheck cause hflaw
    have hfault : visit.check = .error ⟨visit.labels, cause⟩ :=
      check_eq_error_iff.mpr ⟨hflaw, rfl⟩
    rw [hcheck] at hfault
    cases hfault
  · intro hnone
    cases hcheck : visit.check with
    | ok _ => rfl
    | error fault => exact absurd (check_eq_error_iff.mp hcheck).1 (hnone fault.cause)

end Fragment

namespace Shape

variable (formats : FormatRegistry)

/-- Whether a list of values fails does not depend on the type they are listed for. -/
theorem verdict_restrict (allowed : Option (List Literal)) (base other : Shape) :
    verdict (restrict allowed base) = verdict (restrict allowed other) := by
  cases allowed with
  | none => rfl
  | some values =>
      apply verdict_congr
      intro fault
      exact enumeration_eq_error_iff.trans enumeration_eq_error_iff.symm

/-- Whether there are alternatives is known before they are read. -/
theorem verdict_union (options : List Fragment) :
    verdict (do unionOf (← options.mapM (ofFragment formats))) = (do
      verdict (unionOf (options.map fun _ => boolean))
      forM options fun option => verdict (ofFragment formats option)) := by
  cases options with
  | nil => rfl
  | cons first rest =>
      have hsome : verdict (unionOf ((first :: rest).map fun _ => boolean)) = .ok () := by
        cases rest <;> rfl
      rw [hsome, ← verdict_mapM]
      have hunion : ∀ shapes, (first :: rest).mapM (ofFragment formats) = .ok shapes →
          verdict (unionOf shapes) = pure () := by
        intro shapes hshapes
        have hlength := (mapM_eq_ok_iff.mp hshapes).length_eq
        rcases shapes with _ | ⟨image, _ | ⟨second, others⟩⟩
        · simp at hlength
        · rfl
        · rfl
      exact (verdict_bind hunion).trans (bind_pure _)

theorem verdict_ofProperties (required : List String) (entries : List (String × Fragment)) :
    verdict (ofProperties formats required entries) =
      forM entries fun entry =>
        inContexts [propertyLabel entry.1] (verdict (ofFragment formats entry.2)) := by
  rw [ofProperties_eq_mapM, verdict_mapM]
  congr 1
  funext entry
  unfold propertyLabel
  cases ofFragment formats entry.2 <;> rfl

/-- The reading of a type that no values are listed for. -/
theorem verdict_ofFragment_unlisted {fragment : Fragment} {kind : Fragment.Kind}
    (hkind : fragment.kind = .ok kind) (htyped : kind.isTyped = true) :
    verdict (ofFragment formats fragment.unlisted) = (do
      fragment.inspect .itself
      forM fragment.parts fun part => inContexts part.1 (verdict (ofFragment formats part.2))) := by
  have hunlisted : fragment.unlisted.kind = .ok kind := hkind
  cases kind with
  | string | number | integer | boolean =>
      rw [ofFragment_of_scalar hunlisted rfl rfl]
      simp [Fragment.inspect, Fragment.parts, hkind, bind, Except.bind, pure, Except.pure]
  | object =>
      rw [ofFragment_of_object hunlisted rfl, Record.ofFragment]
      simp only [Fragment.inspect, Fragment.parts, hkind, List.forM_map,
        ← verdict_ofProperties formats (fragment.keywords.required.getD [])]
      simp only [Fragment.unlisted]
      cases ofProperties formats (fragment.keywords.required.getD [])
        (fragment.properties.getD []) <;> rfl
  | array =>
      cases hitems : fragment.items with
      | none =>
          rw [ofFragment_of_no_items hunlisted hitems]
          simp only [Fragment.inspect, hkind, hitems]
          rfl
      | some items =>
          rw [ofFragment_of_array hunlisted rfl hitems]
          simp only [Fragment.inspect, Fragment.parts, hkind, hitems, Option.toList_some,
            List.map_singleton, List.forM_cons, List.forM_nil, Option.isSome_some, if_true]
          cases ofFragment formats items <;> rfl
  | _ => cases htyped

/-- One fragment: it is looked at itself, then its parts are read, then its values are looked at. -/
theorem verdict_ofFragment_parts (fragment : Fragment) :
    verdict (ofFragment formats fragment) = (do
      fragment.inspect .itself
      forM fragment.parts fun part => inContexts part.1 (verdict (ofFragment formats part.2))
      fragment.inspect .values) := by
  cases hkind : fragment.kind with
  | error fault =>
      rw [ofFragment_of_error hkind]
      simp only [Fragment.inspect, hkind]
      rfl
  | ok kind =>
      by_cases htyped : kind.isTyped = true
      · have hvalues : fragment.inspect .values =
            verdict (restrict fragment.keywords.allowed boolean) := by
          simp only [Fragment.inspect, hkind, htyped, if_true]
        rw [ofFragment_of_typed hkind htyped, hvalues, ← bind_assoc,
          ← verdict_ofFragment_unlisted formats hkind htyped]
        exact verdict_bind fun base _ => verdict_restrict _ base boolean
      · have hvalues : fragment.inspect .values = .ok () := by
          simp [Fragment.inspect, hkind, htyped]
        rw [hvalues]
        cases kind with
        | constant value =>
            rw [ofFragment_of_constant hkind]
            simp only [Fragment.inspect, Fragment.parts, hkind]
            cases ofConstant value <;> rfl
        | reference path =>
            rw [ofFragment_of_reference hkind]
            simp [Fragment.inspect, Fragment.parts, hkind, bind, Except.bind, pure, Except.pure]
        | union =>
            obtain ⟨options, hoptions⟩ :=
              Option.isSome_iff_exists.mp (Fragment.hasOptions_of_kindOf hkind)
            rw [ofFragment_of_union hkind hoptions, verdict_union]
            simp only [Fragment.inspect, Fragment.parts, hkind, hoptions, Option.getD_some,
              List.forM_map]
            congr 1
            funext _
            exact (bind_pure _).symm
        | _ => exact absurd rfl htyped

/-- The reading of a fragment fails as looking at all that it is read with does. -/
theorem verdict_ofFragment (fragment : Fragment) :
    verdict (ofFragment formats fragment) = forM fragment.visits Fragment.Visit.check := by
  induction fragment using Fragment.visits.induct with
  | case1 fragment ih =>
      rw [verdict_ofFragment_parts, Fragment.visits_eq, List.forM_cons, List.forM_append,
        forM_flatMap, List.forM_cons, List.forM_nil]
      have hparts : (forM fragment.parts fun part =>
            forM (part.2.visits.map (Fragment.Visit.below part.1)) Fragment.Visit.check) =
          forM fragment.parts fun part =>
            inContexts part.1 (verdict (ofFragment formats part.2)) := by
        refine forM_congr fun part hpart => ?_
        rw [ih ⟨part, hpart⟩, List.forM_map, ← forM_inContexts]
        simp only [Fragment.Visit.check_below]
      rw [hparts]
      congr 1
      funext _
      congr 1
      funext _
      exact (bind_pure _).symm

/-- The fault of a fragment is that of the first flaw. -/
theorem ofFragment_eq_error_iff {fragment : Fragment} {fault : Fault} :
    ofFragment formats fragment = .error fault ↔
      ∃ before first after, fragment.visits = before ++ first :: after ∧
        (∀ visit ∈ before, ∀ cause, ¬ visit.fragment.HasFlaw visit.stage cause) ∧
        first.fragment.HasFlaw first.stage fault.cause ∧ fault.contexts = first.labels := by
  rw [← verdict_eq_error_iff, verdict_ofFragment, forM_eq_error_iff]
  simp only [Fragment.Visit.check_eq_ok_iff, Fragment.Visit.check_eq_error_iff]

theorem ofFragment_eq_ok_iff (fragment : Fragment) :
    (∃ shape, ofFragment formats fragment = .ok shape) ↔
      ∀ labels inner stage cause, fragment.Reaches labels inner → ¬ inner.HasFlaw stage cause := by
  rw [← verdict_eq_ok_iff, verdict_ofFragment, forM_eq_ok_iff]
  simp only [Fragment.Visit.check_eq_ok_iff]
  constructor
  · intro hvisits labels inner stage cause hreaches
    exact hvisits ⟨labels, inner, stage⟩ (Fragment.mem_visits_iff.mpr hreaches) cause
  · rintro hreaches ⟨labels, inner, stage⟩ hvisit cause
    exact hreaches labels inner stage cause (Fragment.mem_visits_iff.mp hvisit)

/-- A fragment has no shape exactly when one that it is read with has a flaw. The fault is that of
the flaw that is found first, and its contexts are the labels on the way there. -/
theorem ofFragment_outcome (fragment : Fragment) :
    ((∃ fault, ofFragment formats fragment = .error fault) ↔
      ∃ labels inner stage cause, fragment.Reaches labels inner ∧ inner.HasFlaw stage cause) ∧
    ∀ fault, ofFragment formats fragment = .error fault ↔
      ∃ before first after, fragment.visits = before ++ first :: after ∧
        (∀ visit ∈ before, ∀ cause, ¬ visit.fragment.HasFlaw visit.stage cause) ∧
        first.fragment.HasFlaw first.stage fault.cause ∧
        fragment.Reaches first.labels first.fragment ∧ fault.contexts = first.labels ∧
        fault.message = Text.join ": " (first.labels ++ [fault.cause.message]) := by
  refine ⟨?_, fun fault => ?_⟩
  · have hshape := ofFragment_eq_ok_iff formats fragment
    cases hread : ofFragment formats fragment with
    | error fault =>
        simp only [hread, reduceCtorEq, exists_false, false_iff, not_forall, not_not] at hshape
        obtain ⟨labels, inner, stage, cause, hreaches, hflaw⟩ := hshape
        exact iff_of_true ⟨fault, rfl⟩ ⟨labels, inner, stage, cause, hreaches, hflaw⟩
    | ok shape =>
        refine iff_of_false (by simp) ?_
        rintro ⟨labels, inner, stage, cause, hreaches, hflaw⟩
        exact hshape.mp ⟨shape, hread⟩ labels inner stage cause hreaches hflaw
  · rw [ofFragment_eq_error_iff]
    constructor
    · rintro ⟨before, first, after, hvisits, hbefore, hflaw, hcontexts⟩
      have hfirst : first ∈ fragment.visits := by
        rw [hvisits]
        exact List.mem_append_right _ List.mem_cons_self
      have hmessage : fault.message = Text.join ": " (first.labels ++ [fault.cause.message]) := by
        rw [← hcontexts, Fault.message]
      exact ⟨before, first, after, hvisits, hbefore, hflaw, Fragment.mem_visits_iff.mp hfirst,
        hcontexts, hmessage⟩
    · rintro ⟨before, first, after, hvisits, hbefore, hflaw, -, hcontexts, -⟩
      exact ⟨before, first, after, hvisits, hbefore, hflaw, hcontexts⟩

end Shape

end TrackingPlan
