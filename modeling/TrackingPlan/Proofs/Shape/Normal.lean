import TrackingPlan.Proofs.Decimal.Rounding
import TrackingPlan.Proofs.Shape.Declared

/-!
# Normal shapes

What a fragment of a document declares is normal at every place: constants are
finite values of types that are no alternatives, references or constants
themselves, also inside of the type of another constant, and no object has a name
twice.
-/

namespace TrackingPlan

/-- A number of a constant has 64 bits and is finite. -/
def Constant.IsFinite : Constant → Prop
  | integer value => -Literal.integerBound ≤ value ∧ value < 2 * Literal.integerBound
  | float value => value.isFinite = true
  | _ => True

namespace Fragment

section WellFormed

/-- What is known of a fragment in a document: no property stands twice, and a number of a
constant is a number of the document. -/
structure FromDocument (fragment : Fragment) : Prop where
  names_nodup : (fragment.entries.map Prod.fst).Nodup
  constant_finite : ∀ value, fragment.keywords.constant = some value → value.IsFinite

/-- All that a fragment is read with is from a document. -/
def IsWellFormed (fragment : Fragment) : Prop :=
  ∀ labels inner, fragment.Reaches labels inner → inner.FromDocument

namespace IsWellFormed

variable {fragment : Fragment}

theorem fromDocument (hfragment : fragment.IsWellFormed) : fragment.FromDocument :=
  hfragment [] fragment (.here fragment)

theorem part (hfragment : fragment.IsWellFormed) {part : List String × Fragment}
    (hpart : part ∈ fragment.parts) : part.2.IsWellFormed :=
  fun _ inner hinner => hfragment _ inner (.part hpart hinner)

theorem of_parts (hfragment : fragment.FromDocument)
    (hparts : ∀ part ∈ fragment.parts, part.2.IsWellFormed) : fragment.IsWellFormed := by
  intro labels inner hreaches
  cases hreaches with
  | here => exact hfragment
  | part hpart hinner => exact hparts _ hpart _ inner hinner

theorem unlisted (hfragment : fragment.IsWellFormed) : fragment.unlisted.IsWellFormed := by
  have hparts : fragment.unlisted.parts = fragment.parts := rfl
  refine of_parts ⟨hfragment.fromDocument.names_nodup, hfragment.fromDocument.constant_finite⟩ ?_
  rw [hparts]
  exact fun part hpart => hfragment.part hpart

end IsWellFormed

end WellFormed

end Fragment

namespace Shape

/-- The shape is no constant, union or reference, so that values can be listed for it. -/
def IsBase : Shape → Prop
  | string _ | formatted .. | number .. | boolean | object _ | array _ => True
  | constant .. | union .. | reference _ => False

/-- The shape is normal at every place, the types of its constants included. A union has two or
more alternatives by its form. -/
inductive IsNormal : Shape → Prop where
  | string (format : Option String) : IsNormal (.string format)
  | formatted (format : String) (target : FormatTarget) : IsNormal (.formatted format target)
  | number (isInteger : Bool) (format : Option String) : IsNormal (.number isInteger format)
  | boolean : IsNormal .boolean
  | constant {value : Literal} {base : Shape} (hvalue : value.IsFinite) (hbase : base.IsBase)
      (hnormal : IsNormal base) : IsNormal (.constant value base)
  | union {first second : Shape} {others : List Shape}
      (hoptions : ∀ option ∈ first :: second :: others, IsNormal option) :
      IsNormal (.union first second others)
  | object {properties : List (Property Shape)} (additional : Bool)
      (hnames : (properties.map (·.name)).Nodup)
      (hproperties : ∀ property ∈ properties, IsNormal property.type) :
      IsNormal (.object ⟨properties, additional⟩)
  | array {items : Shape} (hitems : IsNormal items) : IsNormal (.array items)
  | reference (reference : Reference) : IsNormal (.reference reference)

end Shape

theorem Constant.Means.isFinite {value : Constant} {literal : Literal} {base : Shape}
    (hmeans : value.Means literal base) (hvalue : value.IsFinite) : literal.IsFinite := by
  cases hmeans with
  | @large value _ =>
      have hbounds : -0x8000000000000000 ≤ value ∧ value < 2 * 0x8000000000000000 := hvalue
      exact (Binary64.isNumber_ofInt (by omega)).isFinite
  | float => exact hvalue
  | string | integer => trivial

theorem Constant.Means.isNormal {value : Constant} {literal : Literal} {base : Shape}
    (hmeans : value.Means literal base) : base.IsBase ∧ base.IsNormal := by
  cases hmeans with
  | string => exact ⟨trivial, .string none⟩
  | integer | large | float => exact ⟨trivial, .number _ _⟩

namespace Shape

variable {formats : FormatRegistry} {fragment : Fragment} {shape : Shape}

theorem isNormal_of_scalar {kind : Fragment.Kind} {format : Option String}
    (hscalar : ofScalar? formats format kind = some shape) : shape.IsBase ∧ shape.IsNormal := by
  cases kind with
  | string =>
      obtain rfl := Option.some.inj hscalar
      unfold ofFormat
      split
      · exact ⟨trivial, .string none⟩
      · split
        · exact ⟨trivial, .formatted _ _⟩
        · exact ⟨trivial, .string _⟩
  | number | integer =>
      obtain rfl := Option.some.inj hscalar
      exact ⟨trivial, .number _ _⟩
  | boolean =>
      obtain rfl := Option.some.inj hscalar
      exact ⟨trivial, .boolean⟩
  | _ => cases hscalar

/-- A type that no values are listed for is no constant, union or reference. -/
theorem isBase_of_declares (htyped : fragment.IsTyped) (hallowed : fragment.keywords.allowed = none)
    (hdeclares : fragment.Declares formats shape) : shape.IsBase := by
  obtain ⟨kind, hkind, htyped⟩ := htyped
  cases hdeclares with
  | scalar _ _ hscalar => exact (isNormal_of_scalar hscalar).1
  | object | array => trivial
  | constant hother | reference hother | only hother | options hother =>
      rw [hkind] at hother
      obtain rfl := Except.ok.inj hother
      cases htyped
  | value _ hother | values _ hother =>
      rw [hallowed] at hother
      cases hother

/-- What a fragment of a document declares is normal. -/
theorem isNormal_of_declares (hfragment : fragment.IsWellFormed)
    (hdeclares : fragment.Declares formats shape) : shape.IsNormal := by
  induction hdeclares with
  | constant hkind hmeans =>
      have hconstant := Fragment.constant_of_kindOf hkind
      have hvalue := hfragment.fromDocument.constant_finite _ hconstant
      exact .constant (hmeans.isFinite hvalue) hmeans.isNormal.1 hmeans.isNormal.2
  | scalar _ _ hscalar => exact (isNormal_of_scalar hscalar).2
  | object hkind hallowed hnames hrequired _ ih =>
      refine .object _ (hnames ▸ hfragment.fromDocument.names_nodup) fun property hproperty => ?_
      have hlength := congrArg List.length hnames
      rw [List.length_map, List.length_map] at hlength
      obtain ⟨index, entry, hentry, hget⟩ := exists_getElem?_of_mem hlength.symm hproperty
      exact ih index _ _ hentry hget
        (hfragment.part (Fragment.mem_parts_of_property hkind (List.mem_of_getElem? hentry)))
  | array hkind hallowed hitems _ ih =>
      exact .array (ih (hfragment.part (Fragment.mem_parts_of_items hkind hitems)))
  | reference => exact .reference _
  | only hkind hoptions _ ih =>
      exact ih (hfragment.part (Fragment.mem_parts_of_option hkind hoptions List.mem_cons_self))
  | options hkind hoptions hlength _ ih =>
      refine .union fun image himage => ?_
      obtain ⟨index, option, hoption, hget⟩ := exists_getElem?_of_mem hlength himage
      exact ih index _ _ hoption hget
        (hfragment.part (Fragment.mem_parts_of_option hkind hoptions (List.mem_of_getElem? hoption)))
  | @value fragment value base htyped hallowed hvalue hbase ih =>
      have hunlisted : fragment.unlisted.IsTyped := htyped
      exact .constant hvalue (isBase_of_declares hunlisted rfl hbase) (ih hfragment.unlisted)
  | @values fragment first second others base htyped hallowed hvalues hbase ih =>
      have hunlisted : fragment.unlisted.IsTyped := htyped
      have hbases := isBase_of_declares hunlisted rfl hbase
      refine .union fun option hoption => ?_
      obtain ⟨value, hvalue, rfl⟩ : ∃ value ∈ first :: second :: others,
          constant value base = option := List.mem_map.mp hoption
      exact .constant (hvalues value hvalue) hbases (ih hfragment.unlisted)

end Shape

/-- The shape is the one that the fragment declares, and it is normal. -/
structure Fragment.Normalizes (formats : FormatRegistry) (fragment : Fragment) (shape : Shape) :
    Prop where
  declares : fragment.Declares formats shape
  isNormal : shape.IsNormal

theorem Fragment.normalizes_of_ofFragment {formats : FormatRegistry} {fragment : Fragment}
    {shape : Shape} (hfragment : fragment.IsWellFormed)
    (hshape : Shape.ofFragment formats fragment = .ok shape) :
    fragment.Normalizes formats shape :=
  ⟨declares_iff.mpr hshape, Shape.isNormal_of_declares hfragment (declares_iff.mpr hshape)⟩

end TrackingPlan
