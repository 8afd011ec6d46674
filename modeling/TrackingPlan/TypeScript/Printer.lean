import TrackingPlan.Text.Lines
import TrackingPlan.TypeScript.Syntax
import TrackingPlan.TypeScript.Quoted
import TrackingPlan.TypeScript.DocComment

/-!
# Printing modules

The text of types, expressions, statements and modules. In a module imports
stay together, a comment stays with its item, and all else is set apart by an
empty line.
-/

namespace TrackingPlan

def Literal.toText : Literal → String
  | string value => TypeScript.quote value
  | integer value => toString value.toInt
  | float value => value.toText
  | boolean value => if value then "true" else "false"

namespace TypeScript

/-- Items between braces, or an empty pair of braces. -/
def braced (separator : String) (items : List String) : String :=
  if items.isEmpty then "\x7b\x7d" else "\x7b " ++ Text.join separator items ++ " \x7d"

def optionalMark (optional : Bool) : String := if optional then "?" else ""

def Primitive.toText : Primitive → String
  | string => "string"
  | number => "number"
  | boolean => "boolean"
  | null => "null"
  | never => "never"

/-- A union has to stand in parentheses under a postfix `[]`. -/
def Ty.isUnion : Ty → Bool
  | union _ => true
  | _ => false

mutual

def Ty.toText : Ty → String
  | .primitive primitive => primitive.toText
  | .array items =>
    if items.isUnion then "(" ++ items.toText ++ ")[]" else items.toText ++ "[]"
  | .union options => Text.join " | " (typeTexts options)
  | .object fields => braced "; " (fieldTexts fields)
  | .literal value => value.toText
  | .name name => name
  | .qualified scope name => scope ++ "." ++ name

def typeTexts : List Ty → List String
  | [] => []
  | type :: rest => type.toText :: typeTexts rest

def fieldTexts : List (TypeField Ty) → List String
  | [] => []
  | ⟨name, type, optional⟩ :: rest =>
    (key name ++ optionalMark optional ++ ": " ++ type.toText) :: fieldTexts rest

end

def TypeField.toText (field : TypeField Ty) : String :=
  key field.name ++ optionalMark field.optional ++ ": " ++ field.type.toText

def Parameter.toText (parameter : Parameter) : String :=
  match parameter.type with
  | some type => parameter.name ++ optionalMark parameter.optional ++ ": " ++ type.toText
  | none => parameter.name ++ optionalMark parameter.optional

mutual

def Expr.toText : Expr → String
  | .name name => name
  | .literal value => value.toText
  | .call callee arguments =>
    callee.toText ++ "(" ++ Text.join ", " (expressionTexts arguments) ++ ")"
  | .arrow isAsync parameters body =>
    (if isAsync then "async " else "") ++
      "(" ++ Text.join ", " (parameters.map Parameter.toText) ++ ") =>" ++
      (if body.isEmpty then " \x7b\x7d" else " \x7b\n" ++ statementsText body ++ "\x7d")
  | .object members => braced ", " (memberTexts members)
  | .property object name => object.toText ++ "." ++ name
  | .await operand => "await " ++ operand.toText

def expressionTexts : List Expr → List String
  | [] => []
  | expression :: rest => expression.toText :: expressionTexts rest

def Member.toText : Member → String
  | .property name value => key name ++ ": " ++ value.toText
  | .spread value => "..." ++ value.toText

def memberTexts : List Member → List String
  | [] => []
  | member :: rest => member.toText :: memberTexts rest

/-- A statement on a line of its own, two spaces for each level. -/
def Statement.toText (level : Nat) : Statement → String
  | .const name value =>
    Text.times level "  " ++ "const " ++ name ++ " = " ++ value.toText ++ ";\n"
  | .expression value => Text.times level "  " ++ value.toText ++ ";\n"

/-- The body of a function. The level does not grow with the nesting of functions. -/
def statementsText : List Statement → String
  | [] => ""
  | statement :: rest => statement.toText 1 ++ statementsText rest

end

def Arrow.toText (function : Arrow) : String := function.toExpr.toText

def Import.toText : Import → String
  | allAs qualifier source => "import * as " ++ qualifier ++ " from " ++ quote source ++ ";\n"
  | defaultAs name source => "import " ++ name ++ " from " ++ quote source ++ ";\n"

def Item.toText : Item → String
  | imported entry => entry.toText
  | comment text => docComment text
  | typeAlias name type => "export type " ++ name ++ " = " ++ type.toText ++ ";\n"
  | const name value => "export const " ++ name ++ " = " ++ value.toText ++ ";\n"
  | defaultExport value => "export default " ++ value.toText ++ ";\n"

/-- What stands between an item and the next one. -/
def separator : Item → Item → String
  | .comment _, _ => ""
  | .imported _, .imported _ => ""
  | _, _ => "\n"

/-- The items that follow another one. -/
def itemsTextAfter (previous : Item) : List Item → String
  | [] => ""
  | item :: rest => separator previous item ++ item.toText ++ itemsTextAfter item rest

def moduleText : List Item → String
  | [] => ""
  | item :: rest => item.toText ++ itemsTextAfter item rest

end TypeScript

end TrackingPlan
