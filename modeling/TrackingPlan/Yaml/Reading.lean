import TrackingPlan.Yaml.Document
import TrackingPlan.Yaml.Scalar
import TrackingPlan.Dict

/-!
# Reading documents

Data is read from a document by the type that is expected of it. Where a text
is expected the source of any scalar will do. Collections nest at most 128
deep, and aliases are followed at most a hundred times for each mark of the
document.
-/

namespace TrackingPlan.Yaml

inductive Fault where
  | malformed (problem : Problem)
  /-- The document is well formed, but its data is not what is expected. -/
  | layout (problem : String)
  deriving DecidableEq, Repr, Inhabited

def Fault.message : Fault → String
  | malformed problem => problem.message
  | layout problem => problem

/-- A reading knows the document and counts the aliases that it followed. -/
abbrev Read := ReaderT Document (StateT Nat (Except Fault))

/-- How many collections may be nested. -/
def depthLimit : Nat := 128

namespace Read

def fail {α : Type} (problem : String) : Read α := throw (.layout problem)

/-- The node itself, behind an alias. -/
def follow (node : Node) : Read Node := do
  match node with
  | .alias anchor =>
    let document ← read
    let count ← get
    set (count + 1)
    if document.size * 100 < count + 1 then fail "repetition limit exceeded"
    else
      match document.find? anchor with
      | some node => return node
      | none => fail "unresolved alias"
  | node => return node

/-- The source text of a scalar. -/
def text (node : Node) : Read String := do
  match ← follow node with
  | .scalar _ _ text => return text
  | _ => fail "invalid type: expected a string"

/-- A value that may be left out or null. -/
def optional {α : Type} (value : Node → Read α) (node : Node) : Read (Option α) := do
  let node ← follow node
  match node with
  | .scalar properties .plain text =>
    match properties.tag with
    | none => if text.isEmpty || Scalar.isNull text then return none else return some (← value node)
    | some tag =>
      if tag == .null then
        if Scalar.isNull text then return none else fail "invalid value: expected null"
      else return some (← value node)
  | node => return some (← value node)

def boolean (node : Node) : Read Bool := do
  match ← follow node with
  | .scalar properties style text =>
    let candidate := style == .plain || (style == .literal && properties.tag == some .boolean)
    match if candidate then Scalar.boolean? text else none with
    | some value => return value
    | none => fail "invalid type: expected a boolean"
  | _ => fail "invalid type: expected a boolean"

/-- Whether a node may stand for any empty collection. -/
def isBare : Node → Bool
  | .scalar _ .plain text => text.isEmpty
  | _ => false

/-- The items of a list at the depth that is left. -/
def items (depth : Nat) (node : Node) : Read (List Node) := do
  match ← follow node with
  | .sequence _ items => if depth = 0 then fail "recursion limit exceeded" else return items
  | node => if isBare node then return [] else fail "invalid type: expected a sequence"

/-- The entries of a mapping at the depth that is left. -/
def entries (depth : Nat) (node : Node) : Read (List (Node × Node)) := do
  match ← follow node with
  | .mapping _ entries => if depth = 0 then fail "recursion limit exceeded" else return entries
  | node => if isBare node then return [] else fail "invalid type: expected a map"

def list {α : Type} (depth : Nat) (value : Node → Read α) (node : Node) : Read (List α) := do
  (← items depth node).mapM value

def texts (depth : Nat) (node : Node) : Read (List String) := list depth text node

def dict {α : Type} (depth : Nat) (value : Node → Read α) (node : Node) : Read (Dict α) := do
  let pairs ← (← entries depth node).mapM fun entry => do
    return (← text entry.1, ← value entry.2)
  return Dict.ofList pairs

/-- The known fields of a mapping. Each may stand once; all others are skipped. -/
def fields (known : List String) (depth : Nat) (node : Node) : Read (List (String × Node)) := do
  (← entries depth node).foldlM (fun found entry => do
    let name ← text entry.1
    if !known.contains name then return found
    else if (found.lookup name).isSome then fail ("duplicate field `" ++ name ++ "`")
    else return found ++ [(name, entry.2)]) []

/-- The field with the name, if it stands in the mapping and is not null. -/
def field {α : Type} (fields : List (String × Node)) (name : String) (value : Node → Read α) :
    Read (Option α) := do
  match fields.lookup name with
  | some node => optional value node
  | none => return none

/-- The field with the name, or the value it has when it is left out. -/
def fieldOr {α : Type} (fields : List (String × Node)) (name : String) (absent : α)
    (value : Node → Read α) : Read α := do
  match fields.lookup name with
  | some node => value node
  | none => return absent

/-- Refuses tags that only an application could give a meaning. -/
def refuseLocalTag (properties : Properties) : Read Unit :=
  if properties.tag.any Tag.isLocal then fail "unexpected tag" else pure ()

/-- A scalar as its style and tag say. A tag that starts with the mark of local
tags, but is no text, says nothing. -/
def scalar (properties : Properties) (style : Style) (text : String) : Read Scalar := do
  refuseLocalTag properties
  let orFail (value : Option Scalar) : Read Scalar :=
    match value with
    | some value => pure value
    | none => fail "invalid value"
  let untagged : Read Scalar :=
    if style == .plain then orFail (Scalar.ofPlain? text) else pure (.string text)
  match properties.tag with
  | none => untagged
  | some tag =>
    if tag == .boolean then orFail ((Scalar.boolean? text).map .boolean)
    else if tag == .integer then
      orFail (((Scalar.whole? text.toList).filter Scalar.fits64).map .integer)
    else if tag == .real then orFail ((Scalar.real? text).map .real)
    else if tag == .null then orFail (if Scalar.isNull text then some .null else none)
    else if tag.startsWithMark then untagged
    else return .string text

end Read

/-- A reading of the root of a document. An empty document reads as a bare node. -/
def readDocument {α : Type} (value : Node → Read α) (text : String) : Except Fault α :=
  match Document.ofText text with
  | .error problem => .error (.malformed problem)
  | .ok document =>
    match ((value (document.root.getD Node.empty)).run document).run 0 with
    | .error fault => .error fault
    | .ok (value, _) => .ok value

end TrackingPlan.Yaml
