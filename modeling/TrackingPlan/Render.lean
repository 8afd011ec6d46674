import TrackingPlan.Source
import TrackingPlan.TypeScript.Syntax

/-!
# Shapes in generated code

A shape is rendered as a type, and as a literal where its value is known. A
reference is rendered under the alias that its scope is imported by, if any.
-/

namespace TrackingPlan

/-- A module and the name it is imported under. -/
structure ImportMapping where
  source : String
  qualifier : String
  deriving DecidableEq, Repr, Inhabited

/-- The imports of a module by the scope of the references that go through them. -/
abbrev ImportMappings := Dict ImportMapping

/-- The module of all shared definitions. -/
def sharedDefinitions : String := "shared-definitions"

def sharedAlias : String := "shared"

/-- Shared definitions are reached through their module. -/
def ImportMappings.shared : ImportMappings :=
  Dict.empty.insert "$defs" ⟨sharedDefinitions, sharedAlias⟩

open TypeScript

def FormatTarget.toType : FormatTarget → Ty
  | date => .name "Date"
  | named name => .name name

def Reference.toType (mappings : ImportMappings) (reference : Reference) : Ty :=
  match reference.scope?.bind mappings.get? with
  | some mapping => .qualified mapping.qualifier reference.name
  | none => .name reference.name

mutual

def Shape.toType (mappings : ImportMappings) : Shape → Ty
  | .string _ => .primitive .string
  | .formatted _ target => target.toType
  | .number .. => .primitive .number
  | .boolean => .primitive .boolean
  | .constant value _ => .literal value
  | .union first second others =>
    .union (first.toType mappings :: second.toType mappings :: shapesToTypes mappings others)
  | .object ⟨properties, _⟩ => .object (propertiesToFields mappings properties)
  | .array items => .array (items.toType mappings)
  | .reference reference => reference.toType mappings

def shapesToTypes (mappings : ImportMappings) : List Shape → List Ty
  | [] => []
  | shape :: rest => shape.toType mappings :: shapesToTypes mappings rest

def propertiesToFields (mappings : ImportMappings) : List (Property Shape) → List (TypeField Ty)
  | [] => []
  | ⟨name, type, required⟩ :: rest =>
    ⟨name, type.toType mappings, !required⟩ :: propertiesToFields mappings rest

end

def Record.toType (mappings : ImportMappings) (record : ObjectShape) : Ty :=
  .object (propertiesToFields mappings record.properties)

/-- The members as an object; no members are no object. -/
def objectLiteral? : List Member → Option Expr
  | [] => none
  | members => some (.object members)

mutual

/-- The value of a shape, as far as it is known; nothing when no part of it is. -/
def Shape.toLiteral? : Shape → Except Fault (Option Expr)
  | .constant value _ => .ok (some (.literal value))
  | .string _ => .ok none
  | .formatted .. => .ok none
  | .number .. => .ok none
  | .boolean => .ok none
  | .object ⟨properties, _⟩ => do
    return objectLiteral? (← propertiesToMembers properties)
  | .union .. => .error (.ofCause (.noLiteralForm "union"))
  | .array _ => .error (.ofCause (.noLiteralForm "array"))
  | .reference _ => .error (.ofCause (.noLiteralForm "reference"))

/-- A member for each property with a known value. Properties that have no
literal form are left out. -/
def propertiesToMembers : List (Property Shape) → Except Fault (List Member)
  | [] => .ok []
  | ⟨name, type, _⟩ :: rest => do
    let value ← if type.hasLiteralForm then type.toLiteral? else .ok none
    let members ← propertiesToMembers rest
    match value with
    | some value => return .property name value :: members
    | none => return members

end

/-- The members for the known values of an object. -/
def Record.literalMembers (record : ObjectShape) : Except Fault (List Member) :=
  propertiesToMembers record.properties

/-- The declaration of a named type, after its description. -/
def NamedType.toItems (mappings : ImportMappings) (type : NamedType) : List Item :=
  (type.description.map Item.comment).toList ++ [.typeAlias type.name (type.type.toType mappings)]

end TrackingPlan
