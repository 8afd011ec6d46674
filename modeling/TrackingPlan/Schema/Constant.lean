import TrackingPlan.Yaml.Value
import TrackingPlan.Schema.Literal

/-!
# Constants of a schema

The value after `const` may be any data, as long as its keys are texts. Keys
are in byte order and infinities and NaN are null.
-/

namespace TrackingPlan

inductive Constant where
  | null
  | boolean (value : Bool)
  /-- A whole number that fits 64 bits, signed or unsigned. -/
  | integer (value : Int)
  | float (value : Binary64)
  | string (value : String)
  | array (items : List Constant)
  | object (entries : List (String × Constant))
  deriving Inhabited

namespace Constant

def ofScalar : Yaml.Scalar → Constant
  | .null => null
  | .boolean value => boolean value
  | .integer value => integer value
  | .real value => if value.isFinite then float value else null
  | .string value => string value

/-- The entries by key, the last one of each key. Texts are ordered as their
encodings are, by code points. -/
def sortEntries (entries : List (String × Constant)) : List (String × Constant) :=
  (Dict.ofList entries).entries.mergeSort fun a b => decide (a.1 ≤ b.1)

/-- A constant read from a document. A key may be any scalar. -/
def ofNode : Nat → Yaml.Node → Yaml.Read Constant
  | depth, node => do
    match ← Yaml.Read.follow node with
    | .scalar properties style text =>
      return ofScalar (← Yaml.Read.scalar properties style text)
    | .sequence properties items =>
      Yaml.Read.refuseLocalTag properties
      match depth with
      | 0 => Yaml.Read.fail "recursion limit exceeded"
      | depth + 1 => return array (← items.mapM (ofNode depth))
    | .mapping properties entries =>
      Yaml.Read.refuseLocalTag properties
      match depth with
      | 0 => Yaml.Read.fail "recursion limit exceeded"
      | depth + 1 =>
        let entries ← entries.mapM fun entry => do
          return (← Yaml.Read.text entry.1, ← ofNode depth entry.2)
        return object (sortEntries entries)
    | .alias _ => Yaml.Read.fail "unresolved alias"

mutual

/-- A constant among data that was read already. A key has to be a text. -/
def ofValue? : Yaml.Value → Option Constant
  | .scalar scalar => some (ofScalar scalar)
  | .sequence items => (ofValues? items).map array
  | .mapping entries => (ofEntries? entries).map fun entries => object (sortEntries entries)

def ofValues? : List Yaml.Value → Option (List Constant)
  | [] => some []
  | value :: rest => do return (← ofValue? value) :: (← ofValues? rest)

def ofEntries? : List (Yaml.Value × Yaml.Value) → Option (List (String × Constant))
  | [] => some []
  | (.scalar (.string key), value) :: rest => do
    return (key, ← ofValue? value) :: (← ofEntries? rest)
  | _ => none

end

end Constant

/-- The literal that a listed value is: a text, a whole number if it fits 64
bits with a sign, any other number, or a truth value. -/
def Literal.ofScalar? : Yaml.Scalar → Option Literal
  | .string value => some (.string value)
  | .integer value =>
    if value < integerBound then some (.integer (Int64.ofInt value))
    else some (.float (.ofInt value))
  | .real value => some (.float value)
  | .boolean value => some (.boolean value)
  | .null => none

def Literal.ofValue? : Yaml.Value → Option Literal
  | .scalar scalar => ofScalar? scalar
  | _ => none

end TrackingPlan
