import TrackingPlan.Proofs.Decimal.Rounding
import TrackingPlan.Proofs.Shape.Listed
import TrackingPlan.Proofs.TypeScript.ReadBack

/-!
# Numbers in shapes

The numbers of a document have 64 bits. The shape of a fragment has no other
constants, and none that is infinite or NaN, so that all of them have numerals.
-/

namespace TrackingPlan

/-- A number of a constant has 64 bits, and is neither infinite nor NaN. -/
def Constant.InRange : Constant → Prop
  | integer value => -Literal.integerBound ≤ value ∧ value < 2 * Literal.integerBound
  | float value => value.IsNumber
  | _ => True

/-- A listed number has 64 bits; it may be infinite or NaN. -/
def Literal.InRange : Literal → Prop
  | float value => value.isFinite = true → value.IsNumber
  | _ => True

/-- All numbers of the fragment have 64 bits. -/
inductive Fragment.InRange : Fragment → Prop where
  | intro {keywords : Keywords} {oneOf : Option (List Fragment)}
      {properties : Option (List (String × Fragment))} {additional : Option (Additional Fragment)}
      {items : Option Fragment}
      (hconstant : ∀ value, keywords.constant = some value → value.InRange)
      (hallowed : ∀ values, keywords.allowed = some values → ∀ value ∈ values, value.InRange)
      (hoptions : ∀ options, oneOf = some options → ∀ option ∈ options, InRange option)
      (hproperties : ∀ entries, properties = some entries → ∀ entry ∈ entries, InRange entry.2)
      (hitems : ∀ fragment, items = some fragment → InRange fragment) :
      InRange ⟨keywords, oneOf, properties, additional, items⟩

theorem Fragment.inRange_mk_iff {keywords : Keywords} {oneOf : Option (List Fragment)}
    {properties : Option (List (String × Fragment))} {additional : Option (Additional Fragment)}
    {items : Option Fragment} :
    InRange ⟨keywords, oneOf, properties, additional, items⟩ ↔
      (∀ value, keywords.constant = some value → value.InRange) ∧
      (∀ values, keywords.allowed = some values → ∀ value ∈ values, value.InRange) ∧
      (∀ options, oneOf = some options → ∀ option ∈ options, option.InRange) ∧
      (∀ entries, properties = some entries → ∀ entry ∈ entries, entry.2.InRange) ∧
      (∀ fragment, items = some fragment → fragment.InRange) := by
  constructor
  · rintro ⟨hconstant, hallowed, hoptions, hproperties, hitems⟩
    exact ⟨hconstant, hallowed, hoptions, hproperties, hitems⟩
  · rintro ⟨hconstant, hallowed, hoptions, hproperties, hitems⟩
    exact .intro hconstant hallowed hoptions hproperties hitems

namespace Shape

/-- All constants of the shape can be printed. Bases of constants are not. -/
inductive IsPrintable : Shape → Prop where
  | string (format : Option String) : IsPrintable (.string format)
  | formatted (format : String) (target : FormatTarget) : IsPrintable (.formatted format target)
  | number (isInteger : Bool) (format : Option String) : IsPrintable (.number isInteger format)
  | boolean : IsPrintable .boolean
  | constant {value : Literal} (base : Shape) (hvalue : value.IsPrintable) :
      IsPrintable (.constant value base)
  | union {first second : Shape} {others : List Shape}
      (hoptions : ∀ option ∈ first :: second :: others, IsPrintable option) :
      IsPrintable (.union first second others)
  | object {properties : List (Property Shape)} (additional : Bool)
      (hproperties : ∀ property ∈ properties, IsPrintable property.type) :
      IsPrintable (.object ⟨properties, additional⟩)
  | array {items : Shape} (hitems : IsPrintable items) : IsPrintable (.array items)
  | reference (reference : Reference) : IsPrintable (.reference reference)

variable {formats : FormatRegistry} {shape : Shape}

theorem isPrintable_ofConstant {value : Constant} (hrange : value.InRange)
    (hshape : ofConstant value = .ok shape) : shape.IsPrintable := by
  cases value with
  | string value =>
      obtain rfl := Except.ok.inj hshape
      exact .constant _ trivial
  | integer value =>
      rw [ofConstant] at hshape
      split at hshape
      next =>
        obtain rfl := Except.ok.inj hshape
        exact .constant _ trivial
      next =>
        obtain rfl := Except.ok.inj hshape
        have hbounds : -0x8000000000000000 ≤ value ∧ value < 2 * 0x8000000000000000 := hrange
        exact .constant _ (Binary64.isNumber_ofInt (by omega))
  | float value =>
      obtain rfl := Except.ok.inj hshape
      exact .constant _ hrange
  | _ => cases hshape

theorem isPrintable_allowedValue {base : Shape} {value : Literal} (hrange : value.InRange)
    (hshape : allowedValue base value = .ok shape) : shape.IsPrintable := by
  cases value with
  | float float =>
      rw [allowedValue] at hshape
      split at hshape
      next hfinite =>
        obtain rfl := Except.ok.inj hshape
        exact .constant base (hrange hfinite)
      next => cases hshape
  | _ =>
      obtain rfl := Except.ok.inj hshape
      exact .constant base trivial

theorem isPrintable_unionOf {options : List Shape}
    (hoptions : ∀ option ∈ options, option.IsPrintable)
    (hshape : unionOf options = .ok shape) : shape.IsPrintable := by
  unfold unionOf at hshape
  split at hshape
  next => cases hshape
  next option =>
    obtain rfl := Except.ok.inj hshape
    exact hoptions _ List.mem_cons_self
  next first second others =>
    obtain rfl := Except.ok.inj hshape
    exact .union hoptions

theorem isPrintable_restrict {allowed : Option (List Literal)} {base : Shape}
    (hallowed : ∀ values, allowed = some values → ∀ value ∈ values, value.InRange)
    (hbase : base.IsPrintable) (hshape : restrict allowed base = .ok shape) :
    shape.IsPrintable := by
  cases allowed with
  | none =>
      obtain rfl := Except.ok.inj hshape
      exact hbase
  | some values =>
      obtain ⟨hfinite, hunion⟩ := enumeration_eq_ok_iff.mp hshape
      refine isPrintable_unionOf (fun option hoption => ?_) hunion
      obtain ⟨value, hvalue, rfl⟩ := List.mem_map.mp hoption
      exact isPrintable_allowedValue (hallowed values rfl value hvalue)
        (allowedValue_of_isFinite (hfinite value hvalue))

/-- Each property has the shape of its fragment. -/
theorem exists_of_mem_ofProperties {required : List String} {entries : List (String × Fragment)}
    {properties : List (Property Shape)}
    (hread : ofProperties formats required entries = .ok properties) {property : Property Shape}
    (hproperty : property ∈ properties) :
    ∃ entry ∈ entries, ofFragment formats entry.2 = .ok property.type := by
  rw [ofProperties_eq_mapM] at hread
  obtain ⟨entry, hentry, hproperty⟩ := exists_of_mem_mapM hread hproperty
  obtain ⟨type, htype, hproperty⟩ := bind_eq_ok_iff.mp hproperty
  obtain rfl := Except.ok.inj hproperty
  exact ⟨entry, hentry, inContext_eq_ok_iff.mp htype⟩

theorem isPrintable_ofFormat (format : Option String) : (ofFormat formats format).IsPrintable := by
  unfold ofFormat
  split
  · exact .string none
  · split
    · exact .formatted _ _
    · exact .string _

/-- The shape of a fragment can be printed. -/
theorem isPrintable_ofFragment {fragment : Fragment} (hrange : fragment.InRange)
    (hshape : ofFragment formats fragment = .ok shape) : shape.IsPrintable := by
  induction hrange generalizing shape with
  | @intro keywords oneOf properties additional items hconstant hallowed _ _ _ ihoptions
      ihproperties ihitems =>
      rw [ofFragment.eq_def] at hshape
      obtain ⟨kind, hkind, hshape⟩ := bind_eq_ok_iff.mp hshape
      cases kind with
      | constant value =>
          exact isPrintable_ofConstant (hconstant value (Fragment.constant_of_kindOf hkind)) hshape
      | string => exact isPrintable_restrict hallowed (isPrintable_ofFormat _) hshape
      | number => exact isPrintable_restrict hallowed (.number _ _) hshape
      | integer => exact isPrintable_restrict hallowed (.number _ _) hshape
      | boolean => exact isPrintable_restrict hallowed .boolean hshape
      | object =>
          cases properties with
          | none => exact isPrintable_restrict hallowed (.object _ (by simp)) hshape
          | some entries =>
              obtain ⟨found, hfound, hshape⟩ := bind_eq_ok_iff.mp hshape
              refine isPrintable_restrict hallowed (.object _ fun property hproperty => ?_) hshape
              obtain ⟨entry, hentry, htype⟩ := exists_of_mem_ofProperties hfound hproperty
              exact ihproperties entries rfl entry hentry htype
      | array =>
          cases items with
          | none => cases hshape
          | some fragment =>
              obtain ⟨inner, hinner, hshape⟩ := bind_eq_ok_iff.mp hshape
              have hitems := ihitems fragment rfl (inContext_eq_ok_iff.mp hinner)
              exact isPrintable_restrict hallowed (.array hitems) hshape
      | reference path =>
          obtain rfl := Except.ok.inj hshape
          exact .reference _
      | union =>
          cases oneOf with
          | none => cases hshape
          | some fragments =>
              obtain ⟨options, hread, hshape⟩ := bind_eq_ok_iff.mp hshape
              refine isPrintable_unionOf (fun option hoption => ?_) hshape
              rw [ofFragments_eq_mapM] at hread
              obtain ⟨fragment, hmem, hoption⟩ := exists_of_mem_mapM hread hoption
              exact ihoptions fragments rfl fragment hmem hoption

end Shape

end TrackingPlan
