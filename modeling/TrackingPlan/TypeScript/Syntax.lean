import TrackingPlan.Schema.Literal

/-!
# Syntax of generated modules

The part of TypeScript that generated modules use: types, expressions,
statements and the items of a module.
-/

namespace TrackingPlan.TypeScript

inductive Primitive where
  | string
  | number
  | boolean
  | null
  | never
  deriving DecidableEq, Repr, Inhabited

/-- A property of an object type. -/
structure TypeField (τ : Type) where
  name : String
  type : τ
  optional : Bool
  deriving Repr

inductive Ty where
  | primitive (primitive : Primitive)
  | array (items : Ty)
  | union (options : List Ty)
  | object (fields : List (TypeField Ty))
  | literal (value : Literal)
  /-- A type of the same module, or a global one. -/
  | name (name : String)
  /-- A type reached through a namespace import. -/
  | qualified (scope name : String)
  deriving Inhabited

structure Parameter where
  name : String
  type : Option Ty
  optional : Bool
  deriving Inhabited

mutual

inductive Expr where
  | name (name : String)
  | literal (value : Literal)
  | call (callee : Expr) (arguments : List Expr)
  | arrow (isAsync : Bool) (parameters : List Parameter) (body : List Statement)
  | object (members : List Member)
  | property (object : Expr) (name : String)
  | await (operand : Expr)

/-- A member of an object literal. -/
inductive Member where
  | property (key : String) (value : Expr)
  | spread (value : Expr)

inductive Statement where
  | const (name : String) (value : Expr)
  | expression (value : Expr)

end

instance : Inhabited Expr := ⟨.name ""⟩
instance : Inhabited Member := ⟨.spread default⟩
instance : Inhabited Statement := ⟨.expression default⟩

def Expr.string (value : String) : Expr := .literal (.string value)

/-- An arrow function with a block body. -/
structure Arrow where
  isAsync : Bool
  parameters : List Parameter
  body : List Statement
  deriving Inhabited

def Arrow.toExpr (function : Arrow) : Expr :=
  .arrow function.isAsync function.parameters function.body

inductive Import where
  /-- All exports of a module under one alias. -/
  | allAs (qualifier source : String)
  /-- The default export of a module. -/
  | defaultAs (name source : String)
  deriving DecidableEq, Repr, Inhabited

/-- A top-level item of a module. A comment belongs to the item after it. -/
inductive Item where
  | imported (entry : Import)
  | comment (text : String)
  | typeAlias (name : String) (type : Ty)
  | const (name : String) (value : Expr)
  | defaultExport (value : Expr)
  deriving Inhabited

end TrackingPlan.TypeScript
