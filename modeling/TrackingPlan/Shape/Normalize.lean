import TrackingPlan.Shape
import TrackingPlan.Schema.Fragment

/-!
# The shape of a fragment

The construct that a fragment is decides its shape. A list of allowed values
is looked at only after the type they belong to has a shape, and only for
typed fragments.
-/

namespace TrackingPlan

namespace Shape

/-- A constant is a text or a number; a whole number that does not fit 64 bits
with a sign is the nearest floating point number. -/
def ofConstant : Constant → Except Fault Shape
  | .string value => .ok (constantString value)
  | .integer value =>
    if -Literal.integerBound ≤ value ∧ value < Literal.integerBound then
      .ok (constant (.integer (Int64.ofInt value)) (number true none))
    else .ok (constant (.float (Binary64.ofInt value)) (number false none))
  | .float value => .ok (constant (.float value) (number false none))
  | .null => .error (.ofCause (.unsupportedConstant "null"))
  | .boolean _ => .error (.ofCause (.unsupportedConstant "boolean"))
  | .array _ => .error (.ofCause (.unsupportedConstant "array"))
  | .object _ => .error (.ofCause (.unsupportedConstant "object"))

/-- A string of a registered format is rendered as the format says. -/
def ofFormat (formats : FormatRegistry) : Option String → Shape
  | none => string none
  | some format =>
    match formats.resolve? format with
    | some target => formatted format target
    | none => string (some format)

/-- A typed shape, restricted to the allowed values where they are listed. -/
def restrict (allowed : Option (List Literal)) (base : Shape) : Except Fault Shape :=
  match allowed with
  | some values => enumeration values base
  | none => .ok base

def allowsAdditional : Option (Additional Fragment) → Bool
  | some additional => additional.isAllowed
  | none => false

mutual

/-- The shape of a fragment. -/
def ofFragment (formats : FormatRegistry) : Fragment → Except Fault Shape
  | ⟨keywords, oneOf, properties, additional, items⟩ => do
    match ← Fragment.kindOf keywords oneOf.isSome with
    | .constant value => ofConstant value
    | .string => restrict keywords.allowed (ofFormat formats keywords.format)
    | .number => restrict keywords.allowed (number false keywords.format)
    | .integer => restrict keywords.allowed (number true keywords.format)
    | .boolean => restrict keywords.allowed boolean
    | .object =>
      let properties ← match properties with
        | some properties => ofProperties formats (keywords.required.getD []) properties
        | none => .ok []
      restrict keywords.allowed (object ⟨properties, allowsAdditional additional⟩)
    | .array =>
      match items with
      | some items =>
        let items ← inContext "array items" (ofFragment formats items)
        restrict keywords.allowed (array items)
      | none => .error (.ofCause (.unknownShape "array without `items`"))
    | .reference path => .ok (reference ⟨path⟩)
    | .union =>
      let options ← match oneOf with
        | some options => ofFragments formats options
        | none => .ok []
      unionOf options

/-- The shapes of alternatives in order. -/
def ofFragments (formats : FormatRegistry) : List Fragment → Except Fault (List Shape)
  | [] => .ok []
  | fragment :: rest => do
    let shape ← ofFragment formats fragment
    let shapes ← ofFragments formats rest
    return shape :: shapes

/-- The properties of an object in order. -/
def ofProperties (formats : FormatRegistry) (required : List String) :
    List (String × Fragment) → Except Fault (List (Property Shape))
  | [] => .ok []
  | (name, fragment) :: rest => do
    let type ← inContext ("property `" ++ name ++ "`") (ofFragment formats fragment)
    let properties ← ofProperties formats required rest
    return ⟨name, type, required.contains name⟩ :: properties

end

end Shape

/-- The properties of a fragment as an object, whatever construct it is. -/
def Record.ofFragment (formats : FormatRegistry) (fragment : Fragment) :
    Except Fault ObjectShape := do
  let properties ← Shape.ofProperties formats (fragment.keywords.required.getD [])
    (fragment.properties.getD [])
  return ⟨properties, Shape.allowsAdditional fragment.additional⟩

end TrackingPlan
