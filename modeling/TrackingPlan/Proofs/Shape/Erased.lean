import TrackingPlan.Proofs.Shape.Declared

/-!
# Fragments without what means nothing

Only the keywords of the construct that a fragment is mean anything, of a type only
those that belong to it, and of the required names only those of properties that are
there. A fragment without the rest, at every depth, has the same shape or the same
fault.
-/

namespace TrackingPlan

namespace Fragment

/-- The required names that have a property, in the order of the properties. -/
def requiredProperties (fragment : Fragment) : List String :=
  (fragment.entries.map Prod.fst).filter fragment.requiredNames.contains

/-- What belongs to a type: its listed values and format, properties or items. -/
def trimmedType (fragment : Fragment) (type : String) : Fragment :=
  let keywords := { Keywords.none with type := some type, allowed := fragment.keywords.allowed }
  if type ∈ ["string", "number", "integer"] then
    { empty with keywords := { keywords with format := fragment.keywords.format } }
  else if type = "object" then
    { empty with
      keywords := { keywords with required := some fragment.requiredProperties }
      properties := fragment.properties
      additional := some (.flag (Shape.allowsAdditional fragment.additional)) }
  else if type = "array" then { empty with keywords, items := fragment.items }
  else { empty with keywords }

/-- The fragment with the keywords of its construct only: the first of `const`, `type`, `$ref`
and `oneOf` that is there, and what belongs to it. -/
def trimmed (fragment : Fragment) : Fragment :=
  match fragment.keywords.constant, fragment.keywords.type, fragment.keywords.reference with
  | some value, _, _ => { empty with keywords := { Keywords.none with constant := some value } }
  | none, some type, _ => fragment.trimmedType type
  | none, none, some path =>
    { empty with keywords := { Keywords.none with reference := some path } }
  | none, none, none => { empty with oneOf := fragment.oneOf }

mutual

/-- The fragment with the keywords of its construct only, at every depth. -/
def erased : Fragment → Fragment
  | ⟨keywords, oneOf, properties, additional, items⟩ =>
    trimmed {
      keywords
      oneOf := match oneOf with
        | some options => some (fragmentsErased options)
        | none => none
      properties := match properties with
        | some entries => some (entriesErased entries)
        | none => none
      additional
      items := match items with
        | some items => some items.erased
        | none => none }

def fragmentsErased : List Fragment → List Fragment
  | [] => []
  | fragment :: rest => fragment.erased :: fragmentsErased rest

def entriesErased : List (String × Fragment) → List (String × Fragment)
  | [] => []
  | (name, fragment) :: rest => (name, fragment.erased) :: entriesErased rest

end

theorem fragmentsErased_eq_map (fragments : List Fragment) :
    fragmentsErased fragments = fragments.map erased := by
  induction fragments with
  | nil => rw [fragmentsErased]; rfl
  | cons fragment rest ih => rw [fragmentsErased, ih, List.map_cons]

theorem entriesErased_eq_map (entries : List (String × Fragment)) :
    entriesErased entries = entries.map (Prod.map id erased) := by
  induction entries with
  | nil => rw [entriesErased]; rfl
  | cons entry rest ih => rw [entriesErased, ih, List.map_cons]; rfl

/-- The fragment with other fragments in the places of those below it. -/
def mapParts (image : Fragment → Fragment) (fragment : Fragment) : Fragment :=
  { fragment with
    oneOf := fragment.oneOf.map (List.map image)
    properties := fragment.properties.map (List.map (Prod.map id image))
    items := fragment.items.map image }

theorem erased_eq (fragment : Fragment) :
    fragment.erased = (fragment.mapParts erased).trimmed := by
  obtain ⟨keywords, oneOf, properties, additional, items⟩ := fragment
  rw [erased.eq_def, mapParts]
  cases oneOf <;> cases properties <;> cases items <;>
    simp only [fragmentsErased_eq_map, entriesErased_eq_map, Option.map_none, Option.map_some]

theorem kind_mapParts (image : Fragment → Fragment) (fragment : Fragment) :
    (fragment.mapParts image).kind = fragment.kind := by
  unfold kind mapParts
  rw [Option.isSome_map]

theorem entries_mapParts (image : Fragment → Fragment) (fragment : Fragment) :
    (fragment.mapParts image).entries = fragment.entries.map (Prod.map id image) := by
  unfold entries mapParts
  cases fragment.properties <;> rfl

theorem requiredProperties_mapParts (image : Fragment → Fragment) (fragment : Fragment) :
    (fragment.mapParts image).requiredProperties = fragment.requiredProperties := by
  unfold requiredProperties
  rw [entries_mapParts, List.map_map]
  rfl

end Fragment

namespace Shape

variable (formats : FormatRegistry)

/-- Properties are told apart by their names and shapes, and by which of them are required. -/
theorem ofProperties_congr {required required' : List String}
    {entries entries' : List (String × Fragment)}
    (hentries : List.Forall₂ (fun entry entry' => entry.1 = entry'.1 ∧
      required.contains entry.1 = required'.contains entry.1 ∧
      ofFragment formats entry.2 = ofFragment formats entry'.2) entries entries') :
    ofProperties formats required entries = ofProperties formats required' entries' := by
  induction hentries with
  | nil => rw [ofProperties, ofProperties]
  | @cons entry entry' _ _ hentry _ ih =>
      obtain ⟨name, fragment⟩ := entry
      obtain ⟨name', fragment'⟩ := entry'
      obtain ⟨rfl, hrequired, hshape⟩ := hentry
      rw [ofProperties, ofProperties, ih]
      dsimp only at hrequired hshape
      rw [hrequired, hshape]

/-- A type has the shape of what belongs to it. -/
theorem ofFragment_congr_typed {first second : Fragment} {kind : Fragment.Kind}
    (hfirst : first.kind = .ok kind) (hsecond : second.kind = .ok kind)
    (htyped : kind.isTyped = true) (hallowed : first.keywords.allowed = second.keywords.allowed)
    (hscalar : ofScalar? formats first.keywords.format kind =
      ofScalar? formats second.keywords.format kind)
    (hrecord : kind = .object → Record.ofFragment formats first = Record.ofFragment formats second)
    (hitems : kind = .array →
      first.items.map (ofFragment formats) = second.items.map (ofFragment formats)) :
    ofFragment formats first = ofFragment formats second := by
  rw [ofFragment_of_typed hfirst htyped, ofFragment_of_typed hsecond htyped, hallowed]
  congr 1
  have hfirst : first.unlisted.kind = .ok kind := hfirst
  have hsecond : second.unlisted.kind = .ok kind := hsecond
  cases kind with
  | string | number | integer | boolean =>
      exact (ofFragment_of_scalar hfirst rfl hscalar).trans (ofFragment_of_scalar hsecond rfl rfl).symm
  | object =>
      rw [ofFragment_of_object hfirst rfl, ofFragment_of_object hsecond rfl]
      exact congrArg (· >>= fun record => pure (object record)) (hrecord rfl)
  | array =>
      have hitems := hitems rfl
      cases hone : first.items with
      | none =>
          have hother : second.items = none := by
            rw [hone] at hitems
            exact Option.map_eq_none_iff.mp hitems.symm
          rw [ofFragment_of_no_items hfirst hone, ofFragment_of_no_items hsecond hother]
      | some items =>
          rw [hone, Option.map_some, eq_comm, Option.map_eq_some_iff] at hitems
          obtain ⟨others, hother, hshape⟩ := hitems
          rw [ofFragment_of_array hfirst rfl hone, ofFragment_of_array hsecond rfl hother, hshape]
  | _ => cases htyped

theorem record_congr {first second : Fragment}
    (hproperties : ofProperties formats first.requiredNames first.entries =
      ofProperties formats second.requiredNames second.entries)
    (hadditional : allowsAdditional first.additional = allowsAdditional second.additional) :
    Record.ofFragment formats first = Record.ofFragment formats second := by
  unfold Fragment.requiredNames Fragment.entries at hproperties
  unfold Record.ofFragment
  rw [hproperties, hadditional]

theorem record_mapParts {image : Fragment → Fragment} {fragment : Fragment}
    (hentries : ∀ entry ∈ fragment.entries,
      ofFragment formats (image entry.2) = ofFragment formats entry.2) :
    Record.ofFragment formats (fragment.mapParts image) = Record.ofFragment formats fragment := by
  refine record_congr formats ?_ rfl
  rw [Fragment.entries_mapParts]
  refine ofProperties_congr formats (List.forall₂_map_left_iff.mpr ?_)
  exact List.forall₂_same.mpr fun entry hentry => ⟨rfl, rfl, hentries entry hentry⟩

/-- A fragment has the same shape with other fragments below it, if these have the same shapes. -/
theorem ofFragment_mapParts {image : Fragment → Fragment} {fragment : Fragment}
    (hparts : ∀ part ∈ fragment.parts,
      ofFragment formats (image part.2) = ofFragment formats part.2) :
    ofFragment formats (fragment.mapParts image) = ofFragment formats fragment := by
  have hsame := fragment.kind_mapParts image
  cases hkind : fragment.kind with
  | error fault => rw [ofFragment_of_error hkind, ofFragment_of_error (hsame.trans hkind)]
  | ok kind =>
      by_cases htyped : kind.isTyped = true
      · refine ofFragment_congr_typed formats (hsame.trans hkind) hkind htyped rfl rfl ?_ ?_
        · rintro rfl
          exact record_mapParts formats fun entry hentry =>
            hparts _ (Fragment.mem_parts_of_property hkind hentry)
        · rintro rfl
          unfold Fragment.mapParts
          rw [Option.map_map]
          refine Option.map_congr fun items hitems => ?_
          exact hparts _ (Fragment.mem_parts_of_items hkind hitems)
      · cases kind with
        | constant value =>
            rw [ofFragment_of_constant hkind, ofFragment_of_constant (hsame.trans hkind)]
        | reference path =>
            rw [ofFragment_of_reference hkind, ofFragment_of_reference (hsame.trans hkind)]
        | union =>
            obtain ⟨options, hoptions⟩ :=
              Option.isSome_iff_exists.mp (Fragment.hasOptions_of_kindOf hkind)
            have himages : (fragment.mapParts image).oneOf = some (options.map image) :=
              congrArg (Option.map (List.map image)) hoptions
            have hoption : ∀ option ∈ options,
                ofFragment formats (image option) = ofFragment formats option :=
              fun option hoption => hparts _ (Fragment.mem_parts_of_option hkind hoptions hoption)
            have hread : (options.map image).mapM (ofFragment formats) =
                options.mapM (ofFragment formats) := by
              rw [List.mapM_map]
              exact mapM_congr hoption
            rw [ofFragment_of_union hkind hoptions, ofFragment_of_union (hsame.trans hkind) himages,
              hread]
        | _ => exact absurd rfl htyped

end Shape

namespace Fragment

variable {fragment : Fragment} {type : String}

theorem keywords_trimmedType (fragment : Fragment) (type : String) :
    (fragment.trimmedType type).keywords.constant = none ∧
      (fragment.trimmedType type).keywords.type = some type ∧
      (fragment.trimmedType type).keywords.allowed = fragment.keywords.allowed := by
  unfold trimmedType
  split_ifs <;> exact ⟨rfl, rfl, rfl⟩

end Fragment

namespace Shape

variable (formats : FormatRegistry) {fragment : Fragment}

/-- A required name without a property is not missed. -/
theorem record_trimmedType (fragment : Fragment) :
    Record.ofFragment formats (fragment.trimmedType "object") =
      Record.ofFragment formats fragment := by
  refine record_congr formats (ofProperties_congr formats ?_) rfl
  refine List.forall₂_same.mpr fun entry hentry => ⟨rfl, ?_, rfl⟩
  have hname : entry.1 ∈ fragment.entries.map Prod.fst := List.mem_map_of_mem hentry
  have hrequired : (fragment.trimmedType "object").requiredNames = fragment.requiredProperties := rfl
  simp [hrequired, Fragment.requiredProperties, hname]

theorem ofFragment_trimmedType {type : String} (hconstant : fragment.keywords.constant = none)
    (htype : fragment.keywords.type = some type) :
    ofFragment formats (fragment.trimmedType type) = ofFragment formats fragment := by
  have hkeywords := fragment.keywords_trimmedType type
  have htrimmed := Fragment.kind_of_type hkeywords.1 hkeywords.2.1
  have hfragment := Fragment.kind_of_type hconstant htype
  cases hkind : Fragment.kindOfType type with
  | error fault =>
      rw [ofFragment_of_error (htrimmed.trans hkind), ofFragment_of_error (hfragment.trans hkind)]
  | ok kind =>
      refine ofFragment_congr_typed formats (htrimmed.trans hkind) (hfragment.trans hkind)
        (Fragment.isTyped_of_kindOfType hkind) hkeywords.2.2 ?_ ?_ ?_
      · rcases Fragment.kindOfType_eq_ok hkind with ⟨rfl, rfl⟩ | ⟨rfl, rfl⟩ | ⟨rfl, rfl⟩ | ⟨rfl, rfl⟩ |
          ⟨rfl, rfl⟩ | ⟨rfl, rfl⟩ <;> rfl
      · rintro rfl
        obtain rfl : type = "object" := by simpa using Fragment.kindOfType_eq_ok hkind
        exact record_trimmedType formats fragment
      · rintro rfl
        obtain rfl : type = "array" := by simpa using Fragment.kindOfType_eq_ok hkind
        rfl

theorem ofFragment_trimmed (fragment : Fragment) :
    ofFragment formats fragment.trimmed = ofFragment formats fragment := by
  unfold Fragment.trimmed
  split
  next value hconstant =>
    rw [ofFragment_of_constant (Fragment.kind_of_constant hconstant),
      ofFragment_of_constant (Fragment.kind_of_constant rfl)]
  next type hconstant htype => exact ofFragment_trimmedType formats hconstant htype
  next path hconstant htype hreference =>
    have hkind : fragment.kind = .ok (.reference path) := by
      unfold Fragment.kind Fragment.kindOf
      rw [hconstant, htype, hreference]
    rw [ofFragment_of_reference hkind]
    exact ofFragment_of_reference rfl
  next hconstant htype hreference =>
    have hkind : fragment.kind = Fragment.kindOf .none fragment.oneOf.isSome := by
      unfold Fragment.kind Fragment.kindOf
      rw [hconstant, htype, hreference]
      rfl
    cases hoptions : fragment.oneOf with
    | none =>
        rw [hoptions] at hkind
        exact (ofFragment_of_error rfl).trans (ofFragment_of_error hkind).symm
    | some options =>
        rw [hoptions] at hkind
        exact (ofFragment_of_union rfl rfl).trans (ofFragment_of_union hkind hoptions).symm

/-- A fragment has the shape, or the fault, that it has without all that means nothing. -/
theorem ofFragment_erased (fragment : Fragment) :
    ofFragment formats fragment.erased = ofFragment formats fragment := by
  induction fragment using Fragment.visits.induct with
  | case1 fragment ih =>
      rw [Fragment.erased_eq, ofFragment_trimmed]
      exact ofFragment_mapParts formats fun part hpart => ih ⟨part, hpart⟩

end Shape

end TrackingPlan
