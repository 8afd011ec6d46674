import TrackingPlan.Proofs.FirstFault
import TrackingPlan.Shape.Normalize

/-!
# The shape of each construct

The shape of a fragment by the construct that it is, without the values that are
listed for it, and how these restrict it. Alternatives and properties are read one
by one, in order.
-/

namespace TrackingPlan

/-- What holds of a fragment when it holds of all that it is made of. -/
@[elab_as_elim]
theorem Fragment.induction {motive : Fragment → Prop}
    (intro : ∀ keywords oneOf properties additional items,
      (∀ options, oneOf = some options → ∀ option ∈ options, motive option) →
      (∀ entries, properties = some entries → ∀ entry ∈ entries, motive entry.2) →
      (∀ fragment, items = some fragment → motive fragment) →
      motive ⟨keywords, oneOf, properties, additional, items⟩) : ∀ fragment, motive fragment
  | ⟨keywords, oneOf, properties, additional, items⟩ =>
    intro keywords oneOf properties additional items
      (fun options hoptions option hoption =>
        have := List.sizeOf_lt_of_mem hoption
        have := congrArg sizeOf hoptions
        Fragment.induction intro option)
      (fun entries hentries (name, entry) hentry =>
        have := List.sizeOf_lt_of_mem hentry
        have := congrArg sizeOf hentries
        Fragment.induction intro entry)
      (fun fragment hfragment =>
        have := congrArg sizeOf hfragment
        Fragment.induction intro fragment)
termination_by fragment => sizeOf fragment
decreasing_by
  all_goals
    simp only [Option.some.sizeOf_spec, Prod.mk.sizeOf_spec, Fragment.mk.sizeOf_spec] at *
    omega

namespace Fragment

/-- Values can be listed for this construct. -/
def Kind.isTyped : Kind → Bool
  | string | number | integer | boolean | object | array => true
  | constant _ | reference _ | union => false

theorem kindOfType_eq_ok {type : String} {kind : Kind} (hkind : kindOfType type = .ok kind) :
    (type = "string" ∧ kind = .string) ∨ (type = "number" ∧ kind = .number) ∨
      (type = "integer" ∧ kind = .integer) ∨ (type = "boolean" ∧ kind = .boolean) ∨
      (type = "object" ∧ kind = .object) ∨ (type = "array" ∧ kind = .array) := by
  unfold kindOfType at hkind
  split_ifs at hkind <;> (obtain rfl := Except.ok.inj hkind; simp_all)

theorem isTyped_of_kindOfType {type : String} {kind : Kind} (hkind : kindOfType type = .ok kind) :
    kind.isTyped = true := by
  rcases kindOfType_eq_ok hkind with ⟨-, rfl⟩ | ⟨-, rfl⟩ | ⟨-, rfl⟩ | ⟨-, rfl⟩ | ⟨-, rfl⟩ | ⟨-, rfl⟩ <;>
    rfl

/-- The keyword that decides for a construct is the first one that is there. -/
theorem kindOf_eq_ok {keywords : Keywords} {hasOptions : Bool} {kind : Kind}
    (hkind : kindOf keywords hasOptions = .ok kind) :
    (∃ value, keywords.constant = some value ∧ kind = .constant value) ∨
    (keywords.constant = none ∧ ∃ type, keywords.type = some type ∧ kindOfType type = .ok kind) ∨
    (keywords.constant = none ∧ keywords.type = none ∧
      ∃ path, keywords.reference = some path ∧ kind = .reference path) ∨
    (keywords.constant = none ∧ keywords.type = none ∧ keywords.reference = none ∧
      hasOptions = true ∧ kind = .union) := by
  unfold kindOf at hkind
  split at hkind
  next value hconstant => exact .inl ⟨value, hconstant, (Except.ok.inj hkind).symm⟩
  next type hconstant htype => exact .inr (.inl ⟨hconstant, type, htype, hkind⟩)
  next path hconstant htype hreference =>
    exact .inr (.inr (.inl ⟨hconstant, htype, path, hreference, (Except.ok.inj hkind).symm⟩))
  next hconstant htype hreference =>
    split at hkind
    next hoptions =>
      exact .inr (.inr (.inr ⟨hconstant, htype, hreference, hoptions,
        (Except.ok.inj hkind).symm⟩))
    next => cases hkind

theorem constant_of_kindOf {keywords : Keywords} {hasOptions : Bool} {value : Constant}
    (hkind : kindOf keywords hasOptions = .ok (.constant value)) :
    keywords.constant = some value := by
  rcases kindOf_eq_ok hkind with ⟨_, hconstant, ⟨⟩⟩ | ⟨-, type, -, htype⟩ | ⟨-, -, _, -, ⟨⟩⟩ |
    ⟨-, -, -, -, ⟨⟩⟩
  · exact hconstant
  · cases isTyped_of_kindOfType htype

theorem hasOptions_of_kindOf {keywords : Keywords} {hasOptions : Bool}
    (hkind : kindOf keywords hasOptions = .ok .union) : hasOptions = true := by
  rcases kindOf_eq_ok hkind with ⟨_, -, ⟨⟩⟩ | ⟨-, type, -, htype⟩ | ⟨-, -, _, -, ⟨⟩⟩ |
    ⟨-, -, -, hoptions, -⟩
  · cases isTyped_of_kindOfType htype
  · exact hoptions

end Fragment

namespace Shape

variable {formats : FormatRegistry}

/-- A single alternative stands for itself, and a union has two or more. -/
theorem unionOf_eq_ok {images : List Shape} {shape : Shape} (hshape : unionOf images = .ok shape) :
    images = [shape] ∨ ∃ first second others, images = first :: second :: others ∧
      shape = union first second others := by
  rcases images with _ | ⟨first, _ | ⟨second, others⟩⟩
  · cases hshape
  · exact .inl (congrArg (fun image => [image]) (Except.ok.inj hshape))
  · exact .inr ⟨first, second, others, rfl, (Except.ok.inj hshape).symm⟩

theorem ofFragments_eq_mapM (fragments : List Fragment) :
    ofFragments formats fragments = fragments.mapM (ofFragment formats) := by
  induction fragments with
  | nil => rw [ofFragments]; rfl
  | cons fragment rest ih => rw [ofFragments, ih, List.mapM_cons]

theorem ofProperties_eq_mapM (required : List String) (entries : List (String × Fragment)) :
    ofProperties formats required entries = entries.mapM fun entry => do
      let type ← inContext ("property `" ++ entry.1 ++ "`") (ofFragment formats entry.2)
      return ⟨entry.1, type, required.contains entry.1⟩ := by
  induction entries with
  | nil => rw [ofProperties]; rfl
  | cons entry rest ih =>
      rw [ofProperties, ih, List.mapM_cons, bind_assoc]
      simp only [pure_bind]

/-- The shape of a fragment that is the construct. -/
def ofKind (formats : FormatRegistry) (fragment : Fragment) : Fragment.Kind → Except Fault Shape
  | .constant value => ofConstant value
  | .string => restrict fragment.keywords.allowed (ofFormat formats fragment.keywords.format)
  | .number => restrict fragment.keywords.allowed (number false fragment.keywords.format)
  | .integer => restrict fragment.keywords.allowed (number true fragment.keywords.format)
  | .boolean => restrict fragment.keywords.allowed boolean
  | .object => do
    let record ← Record.ofFragment formats fragment
    restrict fragment.keywords.allowed (object record)
  | .array =>
    match fragment.items with
    | some items => do
      let items ← inContext "array items" (ofFragment formats items)
      restrict fragment.keywords.allowed (array items)
    | none => .error (.ofCause (.unknownShape "array without `items`"))
  | .reference path => .ok (reference ⟨path⟩)
  | .union => do unionOf (← (fragment.oneOf.getD []).mapM (ofFragment formats))

/-- The construct that a fragment is decides its shape. -/
theorem ofFragment_eq (fragment : Fragment) :
    ofFragment formats fragment = fragment.kind >>= ofKind formats fragment := by
  obtain ⟨keywords, oneOf, properties, additional, items⟩ := fragment
  rw [ofFragment.eq_def]
  refine bind_congr fun kind => ?_
  cases kind with
  | object =>
      cases properties with
      | none => simp only [ofKind, Record.ofFragment, Option.getD_none, ofProperties]; rfl
      | some entries =>
          simp only [ofKind, Record.ofFragment, Option.getD_some, bind_assoc, pure_bind]
  | array => cases items <;> rfl
  | union =>
      cases oneOf with
      | none => rfl
      | some options => simp only [ofKind, Option.getD_some, ofFragments_eq_mapM]
  | constant | string | number | integer | boolean | reference => rfl

theorem ofFragment_of_kind {fragment : Fragment} {kind : Fragment.Kind}
    (hkind : fragment.kind = .ok kind) :
    ofFragment formats fragment = ofKind formats fragment kind := by
  rw [ofFragment_eq, hkind]
  rfl

/-- An object without listed values has the shape of its record. -/
theorem ofFragment_of_object {fragment : Fragment}
    (hkind : fragment.kind = .ok .object) (hallowed : fragment.keywords.allowed = none) :
    ofFragment formats fragment =
      (do return .object (← Record.ofFragment formats fragment)) := by
  rw [ofFragment_of_kind hkind, ofKind, hallowed]
  rfl

theorem ofFragment_of_record {fragment : Fragment} {record : ObjectShape}
    (hkind : fragment.kind = .ok .object) (hallowed : fragment.keywords.allowed = none)
    (hrecord : Record.ofFragment formats fragment = .ok record) :
    ofFragment formats fragment = .ok (.object record) := by
  rw [ofFragment_of_object hkind hallowed, hrecord]
  rfl

theorem ofFragment_of_array {fragment items : Fragment}
    (hkind : fragment.kind = .ok .array) (hallowed : fragment.keywords.allowed = none)
    (hitems : fragment.items = some items) :
    ofFragment formats fragment =
      (do return .array (← inContext "array items" (ofFragment formats items))) := by
  rw [ofFragment_of_kind hkind, ofKind, hitems, hallowed]
  rfl

theorem ofFragment_of_no_items {fragment : Fragment} (hkind : fragment.kind = .ok .array)
    (hitems : fragment.items = none) :
    ofFragment formats fragment = .error (.ofCause (.unknownShape "array without `items`")) := by
  rw [ofFragment_of_kind hkind, ofKind, hitems]

theorem ofFragment_of_union {fragment : Fragment}
    {options : List Fragment} (hkind : fragment.kind = .ok .union)
    (hoptions : fragment.oneOf = some options) :
    ofFragment formats fragment =
      (do unionOf (← options.mapM (ofFragment formats))) := by
  rw [ofFragment_of_kind hkind, ofKind, hoptions, Option.getD_some]

theorem ofFragment_of_reference {fragment : Fragment}
    {target : String} (hkind : fragment.kind = .ok (.reference target)) :
    ofFragment formats fragment = .ok (.reference ⟨target⟩) := by
  rw [ofFragment_of_kind hkind, ofKind]

/-- The shape of a type without parts. -/
def ofScalar? (formats : FormatRegistry) (format : Option String) : Fragment.Kind → Option Shape
  | .string => some (ofFormat formats format)
  | .number => some (number false format)
  | .integer => some (number true format)
  | .boolean => some boolean
  | _ => none

theorem ofFragment_of_scalar {fragment : Fragment} {kind : Fragment.Kind} {shape : Shape}
    (hkind : fragment.kind = .ok kind) (hallowed : fragment.keywords.allowed = none)
    (hscalar : ofScalar? formats fragment.keywords.format kind = some shape) :
    ofFragment formats fragment = .ok shape := by
  rw [ofFragment_of_kind hkind]
  cases kind with
  | string | number | integer | boolean =>
      obtain rfl := Option.some.inj hscalar
      rw [ofKind, hallowed]
      rfl
  | _ => cases hscalar

theorem ofFragment_of_constant {fragment : Fragment} {value : Constant}
    (hkind : fragment.kind = .ok (.constant value)) :
    ofFragment formats fragment = ofConstant value := by
  rw [ofFragment_of_kind hkind, ofKind]

theorem ofFragment_of_error {fragment : Fragment} {fault : Fault}
    (hkind : fragment.kind = .error fault) : ofFragment formats fragment = .error fault := by
  rw [ofFragment_eq, hkind]
  rfl

end Shape

/-- The fragment without its list of values. -/
def Fragment.unlisted (fragment : Fragment) : Fragment :=
  { fragment with keywords := { fragment.keywords with allowed := none } }

theorem Fragment.unlisted_of_allowed {fragment : Fragment}
    (hallowed : fragment.keywords.allowed = none) : fragment.unlisted = fragment := by
  obtain ⟨⟨_⟩, oneOf, properties, additional, items⟩ := fragment
  obtain rfl := hallowed
  rfl

/-- Listed values restrict the shape that the fragment has without them. -/
theorem Shape.ofFragment_of_typed {formats : FormatRegistry} {fragment : Fragment}
    {kind : Fragment.Kind} (hkind : fragment.kind = .ok kind) (htyped : kind.isTyped = true) :
    ofFragment formats fragment =
      ofFragment formats fragment.unlisted >>= restrict fragment.keywords.allowed := by
  have hunlisted : fragment.unlisted.kind = .ok kind := hkind
  rw [ofFragment_of_kind hkind, ofFragment_of_kind hunlisted]
  cases kind with
  | string | number | integer | boolean => rfl
  | object =>
      have hrecord : Record.ofFragment formats fragment.unlisted =
          Record.ofFragment formats fragment := rfl
      rw [ofKind, ofKind, hrecord]
      cases Record.ofFragment formats fragment <;> rfl
  | array =>
      have hitems : fragment.unlisted.items = fragment.items := rfl
      rw [ofKind, ofKind, hitems]
      cases fragment.items with
      | none => rfl
      | some items =>
          dsimp only
          cases inContext "array items" (ofFragment formats items) <;> rfl
  | _ => cases htyped

end TrackingPlan
