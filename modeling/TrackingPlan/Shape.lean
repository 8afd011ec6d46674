import TrackingPlan.Fault
import TrackingPlan.Format
import TrackingPlan.Schema.Literal

/-!
# Shapes

A shape is a type without any choice of spelling: every fragment of a schema
has at most one. References stay as they are written and are not followed.
-/

namespace TrackingPlan

/-- A path to a named type, such as `#/$defs/Name`. -/
structure Reference where
  path : String
  deriving DecidableEq, Repr, Inhabited

/-- The second segment of the path. -/
def Reference.scope? (reference : Reference) : Option String :=
  (Text.segments reference.path)[1]?

/-- The last segment of the path. -/
def Reference.name (reference : Reference) : String :=
  (Text.segments reference.path).getLast?.getD reference.path

/-- A property of an object. -/
structure Property (σ : Type) where
  name : String
  type : σ
  required : Bool

/-- The properties of an object, and whether it may have others. -/
structure Record (σ : Type) where
  properties : List (Property σ)
  additional : Bool

inductive Shape where
  /-- A string; its format, if it has one, is not registered. -/
  | string (format : Option String)
  | formatted (format : String) (target : FormatTarget)
  | number (isInteger : Bool) (format : Option String)
  | boolean
  /-- A single value with the shape it was declared as. -/
  | constant (value : Literal) (base : Shape)
  | union (first second : Shape) (others : List Shape)
  | object (record : Record Shape)
  | array (items : Shape)
  | reference (reference : Reference)
  deriving Inhabited

/-- The properties of an object with their shapes. -/
abbrev ObjectShape := Record Shape

instance : Inhabited ObjectShape := ⟨⟨[], false⟩⟩

def Record.find? {σ : Type} (record : Record σ) (name : String) : Option (Property σ) :=
  record.properties.find? (·.name == name)

namespace Shape

/-- A plain string that has exactly one value. -/
def constantString (value : String) : Shape := constant (.string value) (string none)

/-- The alternatives in order; a single one stands for itself. -/
def unionOf : List Shape → Except Fault Shape
  | [] => .error (.ofCause .emptyUnion)
  | [option] => .ok option
  | first :: second :: others => .ok (union first second others)

/-- A listed value with its base. Infinities and NaN are the value of no type. -/
def allowedValue (base : Shape) (value : Literal) : Except Fault Shape :=
  match value with
  | .float float =>
    if float.isFinite then .ok (constant value base)
    else
      .error (.ofCause (.unsupportedConstant ("non-finite number `" ++ float.toText ++ "`")))
  | _ => .ok (constant value base)

/-- The listed values in order; a single one is a constant. -/
def enumeration (values : List Literal) (base : Shape) : Except Fault Shape := do
  match ← values.mapM (allowedValue base) with
  | [] => .error (.ofCause .emptyEnum)
  | [option] => .ok option
  | first :: second :: others => .ok (union first second others)

/-- Whether a value of the shape may be asked for: arrays, unions and
references have no single one. -/
def hasLiteralForm : Shape → Bool
  | union .. => false
  | array _ => false
  | reference _ => false
  | _ => true

def kindName : Shape → String
  | string _ => "string"
  | formatted .. => "formatted string"
  | number .. => "number"
  | boolean => "boolean"
  | constant .. => "constant"
  | union .. => "union"
  | object _ => "object"
  | array _ => "array"
  | reference _ => "reference"

end Shape

end TrackingPlan
