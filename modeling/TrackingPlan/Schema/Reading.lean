import TrackingPlan.Schema.Definition

/-!
# Reading plan documents

Fragments, events and plans as they are written in a document. What stands
after `additionalProperties` is read without a declared type first, so texts
there have to be texts, and a list of all keywords in order is a fragment.
-/

namespace TrackingPlan

namespace Fragment

/-- The keywords of a fragment, in the order of a fragment written as a list. -/
def keywordNames : List String :=
  ["type", "$ref", "oneOf", "const", "enum", "format", "properties", "required",
    "additionalProperties", "items", "description"]

/-- A reading of data that was read without a declared type. -/
abbrev Reread (α : Type) := Yaml.Value → Option α

def rereadText : Reread String
  | .scalar (.string text) => some text
  | _ => none

/-- Null stands for a value that is left out. -/
def rereadOptional {α : Type} (value : Reread α) : Reread (Option α)
  | .scalar .null => some none
  | data => (value data).map some

def rereadList {α : Type} (item : Reread α) : Reread (List α)
  | .sequence items => items.mapM item
  | _ => none

def rereadDict {α : Type} (value : Reread α) : Reread (List (String × α))
  | .mapping entries => do
    let entries ← entries.mapM fun entry => do
      return (← rereadText entry.1, ← value entry.2)
    return (Dict.ofList entries).entries
  | _ => none

/-- The keyword that a key of a mapping names: by its text, or by its number. -/
def keywordOfKey : Yaml.Value → Option (Option String)
  | .scalar (.string name) => some (keywordNames.find? (· == name))
  | .scalar (.integer number) => if 0 ≤ number then some keywordNames[number.toNat]? else none
  | _ => none

/-- The values of the keywords, each at most once. -/
def keywordValues? : Yaml.Value → Option (List (String × Yaml.Value))
  | .mapping entries =>
    entries.foldlM (fun found entry => do
      match ← keywordOfKey entry.1 with
      | none => some found
      | some name => if (found.lookup name).isSome then none else some (found ++ [(name, entry.2)]))
      []
  | .sequence items =>
    if items.length = keywordNames.length then some (keywordNames.zip items) else none
  | .scalar _ => none

/-- The value of a keyword, if the keyword is present and not null. -/
def reread? {α : Type} (values : List (String × Yaml.Value)) (name : String) (value : Reread α) :
    Option (Option α) :=
  match values.lookup name with
  | none => some none
  | some data => rereadOptional value data

/-- A fragment among data that was read already, nested at most as deep as given. -/
def reread : Nat → Reread Fragment
  | 0, _ => none
  | depth + 1, data => do
    let values ← keywordValues? data
    let constant ← match values.lookup "const" with
      | none => some none
      | some data => (Constant.ofValue? data).map some
    let additional : Reread (Additional Fragment)
      | .scalar (.boolean allowed) => some (.flag allowed)
      | data => (reread depth data).map .schema
    return {
      keywords := {
        type := ← reread? values "type" rereadText
        reference := ← reread? values "$ref" rereadText
        constant
        allowed := ← reread? values "enum" (rereadList Literal.ofValue?)
        format := ← reread? values "format" rereadText
        required := ← reread? values "required" (rereadList rereadText)
        description := ← reread? values "description" rereadText }
      oneOf := ← reread? values "oneOf" (rereadList (reread depth))
      properties := ← reread? values "properties" (rereadDict (reread depth))
      additional := ← reread? values "additionalProperties" additional
      items := ← reread? values "items" (reread depth) }

/-- What stands after `additionalProperties`. -/
def readAdditional (depth : Nat) (node : Yaml.Node) : Yaml.Read (Additional Fragment) := do
  match ← Yaml.Read.value depth node with
  | .scalar (.boolean allowed) => return .flag allowed
  | data =>
    match reread (Yaml.depthLimit + 1) data with
    | some fragment => return .schema fragment
    | none => Yaml.Read.fail "data did not match any variant of additionalProperties"

def readLiteral (depth : Nat) (node : Yaml.Node) : Yaml.Read Literal := do
  match Literal.ofValue? (← Yaml.Read.value depth node) with
  | some literal => return literal
  | none => Yaml.Read.fail "data did not match any kind of literal"

/-- A fragment by its fields. Its items are read by `items`, and what stands in a list or a
mapping of its own by `inner`, which has less depth left. -/
def ofFields (depth : Nat) (items inner : Yaml.Node → Yaml.Read Fragment)
    (fields : List (String × Yaml.Node)) : Yaml.Read Fragment := do
  let constant ← match fields.lookup "const" with
    | none => pure none
    | some node => some <$> Constant.ofNode depth node
  return {
    keywords := {
      type := ← Yaml.Read.field fields "type" Yaml.Read.text
      reference := ← Yaml.Read.field fields "$ref" Yaml.Read.text
      constant
      allowed := ← Yaml.Read.field fields "enum" (Yaml.Read.list depth (readLiteral (depth - 1)))
      format := ← Yaml.Read.field fields "format" Yaml.Read.text
      required := ← Yaml.Read.field fields "required" (Yaml.Read.texts depth)
      description := ← Yaml.Read.field fields "description" Yaml.Read.text }
    oneOf := ← Yaml.Read.field fields "oneOf" (Yaml.Read.list depth inner)
    properties := ← Yaml.Read.field fields "properties" fun node => do
      return (← Yaml.Read.dict depth inner node).entries
    additional := ← Yaml.Read.field fields "additionalProperties" (readAdditional depth)
    items := ← Yaml.Read.field fields "items" items }

/-- A fragment at the depth that is left. -/
def ofNode : Nat → Yaml.Node → Yaml.Read Fragment
  | 0, node => do
    let _ ← Yaml.Read.fields keywordNames 0 node
    return empty
  | 1, node => do
    ofFields 0 (ofNode 0) (fun _ => return empty) (← Yaml.Read.fields keywordNames 1 node)
  | depth + 2, node => do
    ofFields (depth + 1) (ofNode (depth + 1)) (ofNode depth)
      (← Yaml.Read.fields keywordNames (depth + 2) node)

def ofText (text : String) : Except Yaml.Fault Fragment :=
  Yaml.readDocument (ofNode Yaml.depthLimit) text

end Fragment

namespace EventDefinition

def fieldNames : List String :=
  ["key", "name", "description", "features", "tracks", "additionalProperties", "loginRequired",
    "required", "properties"]

/-- An event at the depth that is left. -/
def ofNode (depth : Nat) (node : Yaml.Node) : Yaml.Read EventDefinition := do
  let fields ← Yaml.Read.fields fieldNames depth node
  let depth := depth - 1
  return {
    key := ← Yaml.Read.field fields "key" Yaml.Read.text
    name := ← Yaml.Read.field fields "name" Yaml.Read.text
    description := ← Yaml.Read.field fields "description" Yaml.Read.text
    features := ← Yaml.Read.fieldOr fields "features" [] (Yaml.Read.texts depth)
    tracks := ← Yaml.Read.fieldOr fields "tracks" [] (Yaml.Read.texts depth)
    additionalProperties := ← Yaml.Read.field fields "additionalProperties" Yaml.Read.boolean
    loginRequired := ← Yaml.Read.field fields "loginRequired" Yaml.Read.boolean
    required := ← Yaml.Read.field fields "required" (Yaml.Read.texts depth)
    properties := ← Yaml.Read.field fields "properties"
      (Yaml.Read.dict depth (Fragment.ofNode (depth - 1))) }

def ofText (text : String) : Except Yaml.Fault EventDefinition :=
  Yaml.readDocument (ofNode Yaml.depthLimit) text

end EventDefinition

namespace PlanDefinition

/-- A plan at the depth that is left. -/
def ofNode (depth : Nat) (node : Yaml.Node) : Yaml.Read PlanDefinition := do
  let fields ← Yaml.Read.fields ["tracks", "screens", "$defs", "traits"] depth node
  let depth := depth - 1
  let events := Yaml.Read.dict depth (Yaml.Read.optional (EventDefinition.ofNode (depth - 1)))
  let types := Yaml.Read.dict depth (Fragment.ofNode (depth - 1))
  return {
    tracks := ← Yaml.Read.fieldOr fields "tracks" .empty events
    screens := ← Yaml.Read.fieldOr fields "screens" .empty events
    definitions := ← Yaml.Read.fieldOr fields "$defs" .empty types
    traits := ← Yaml.Read.fieldOr fields "traits" .empty types }

/-- The document of a plan. Only its layout is checked. -/
def ofText (text : String) : Except Fault PlanDefinition :=
  match Yaml.readDocument (ofNode Yaml.depthLimit) text with
  | .ok definition => .ok definition
  | .error fault => .error (.ofCause (.unreadable fault.message))

end PlanDefinition

end TrackingPlan
