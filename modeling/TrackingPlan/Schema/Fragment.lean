import TrackingPlan.Fault
import TrackingPlan.Schema.Constant

/-!
# Fragments of a schema

A fragment describes a type by keywords. Which construct it is follows from
the keywords that are present, the first of `const`, `type`, `$ref` and
`oneOf`; the keywords of other constructs are kept but mean nothing.
-/

namespace TrackingPlan

/-- The keywords of a fragment that hold no other fragment. -/
structure Keywords where
  type : Option String
  reference : Option String
  constant : Option Constant
  allowed : Option (List Literal)
  format : Option String
  required : Option (List String)
  description : Option String

/-- No keyword at all. -/
def Keywords.none : Keywords := ⟨.none, .none, .none, .none, .none, .none, .none⟩

instance : Inhabited Keywords := ⟨.none⟩

/-- Whether an object may have further properties, or of which type. -/
inductive Additional (φ : Type) where
  | flag (allowed : Bool)
  | schema (fragment : φ)

/-- Only the flag is told apart: a schema allows further properties of any type. -/
def Additional.isAllowed {φ : Type} : Additional φ → Bool
  | flag allowed => allowed
  | schema _ => true

structure Fragment where
  keywords : Keywords
  oneOf : Option (List Fragment)
  properties : Option (List (String × Fragment))
  additional : Option (Additional Fragment)
  items : Option Fragment

namespace Fragment

/-- The fragment without any keyword. -/
def empty : Fragment := ⟨.none, none, none, none, none⟩

instance : Inhabited Fragment := ⟨empty⟩

/-- The construct that a fragment is. -/
inductive Kind where
  | constant (value : Constant)
  | string
  | number
  | integer
  | boolean
  | object
  | array
  | reference (path : String)
  | union

def kindOfType (type : String) : Except Fault Kind :=
  if type = "string" then .ok .string
  else if type = "number" then .ok .number
  else if type = "integer" then .ok .integer
  else if type = "boolean" then .ok .boolean
  else if type = "object" then .ok .object
  else if type = "array" then .ok .array
  else .error (.ofCause (.unknownShape ("unsupported type `" ++ type ++ "`")))

/-- The construct by the keywords, where `hasOptions` says whether `oneOf` is present. -/
def kindOf (keywords : Keywords) (hasOptions : Bool) : Except Fault Kind :=
  match keywords.constant, keywords.type, keywords.reference with
  | some value, _, _ => .ok (.constant value)
  | none, some type, _ => kindOfType type
  | none, none, some path => .ok (.reference path)
  | none, none, none =>
    if hasOptions then .ok .union
    else .error (.ofCause (.unknownShape "expected one of `const`, `type`, `$ref` or `oneOf`"))

def kind (fragment : Fragment) : Except Fault Kind :=
  kindOf fragment.keywords fragment.oneOf.isSome

end Fragment

end TrackingPlan
