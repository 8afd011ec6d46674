import TrackingPlan.Yaml.Node
import TrackingPlan.Yaml.Token.Stream

/-!
# Documents

A document is read from its tokens by descent. Values that are left out are
empty nodes. Anchors are numbered by the distinct names before them; a name
that is used again gets a new number.
-/

namespace TrackingPlan.Yaml

structure DocumentState where
  lexemes : List Lexeme
  /-- The numbers of the anchors so far, by name. -/
  anchors : List (String × Nat)
  /-- What the handles of tags stand for. -/
  handles : List (String × Tag)

abbrev Parse := StateT DocumentState (Except Problem)

namespace Parse

def peek : Parse (Option Token) := do
  return (← get).lexemes.head?.map (·.token)

def advance : Parse Unit := modify fun state => { state with lexemes := state.lexemes.drop 1 }

def fail {α : Type} (what : String) : Parse α := do
  match (← get).lexemes with
  | lexeme :: _ => throw ⟨what, lexeme.line, lexeme.column⟩
  | [] => throw ⟨what, 0, 0⟩

/-- The number of a new anchor. -/
def numberAnchor (name : String) : Parse Nat := do
  let anchors := (← get).anchors
  let number := anchors.length
  modify fun state => { state with
    anchors := (name, number) :: anchors.filter (·.1 != name) }
  return number

/-- The number that an alias refers to. -/
def findAnchor (name : String) : Parse Nat := do
  match (← get).anchors.lookup name with
  | some number => return number
  | none => fail "unknown anchor"

def resolveTag (handle : String) (suffix : Tag) : Parse Tag := do
  if handle.isEmpty then return suffix
  else
    match (← get).handles.lookup handle with
    | some expansion => return expansion ++ suffix
    | none => fail "found undefined tag handle"

def takeAnchor : Parse (Option Nat) := do
  match ← peek with
  | some (.anchor name) => advance; return some (← numberAnchor name)
  | _ => return none

def takeTag : Parse (Option Tag) := do
  match ← peek with
  | some (.tag handle suffix) =>
    let tag ← resolveTag handle suffix
    advance
    return some tag
  | _ => return none

/-- A tag and an anchor in either order. -/
def takeProperties : Parse Properties := do
  match ← takeAnchor with
  | some anchor => return ⟨some anchor, ← takeTag⟩
  | none =>
    let tag ← takeTag
    return ⟨← takeAnchor, tag⟩

/-- Whether nothing stands before the token: it ends or separates entries. -/
def isLeftOut (ends : List Token) (token : Option Token) : Bool :=
  match token with
  | some token => ends.contains token
  | none => false

mutual

/-- A node. Block collections may stand only where `block` holds, and a block
sequence without an indentation of its own only where `indentless` holds. -/
def node (block indentless : Bool) : Nat → Parse Node
  | 0 => fail "did not find expected node content"
  | fuel + 1 => do
    match ← peek with
    | some (.alias name) =>
      let number ← findAnchor name
      advance
      return .alias number
    | _ =>
      let properties ← takeProperties
      let next ← peek
      if indentless && next == some .blockEntry then
        return .sequence properties (← indentlessItems fuel)
      else
        match next with
        | some (.scalar style text) =>
          advance
          return .scalar properties style text
        | some .flowSequenceStart =>
          advance
          return .sequence properties (← flowItems true fuel)
        | some .flowMappingStart =>
          advance
          return .mapping properties (← flowEntries true fuel)
        | some .blockSequenceStart =>
          if block then
            advance
            return .sequence properties (← blockItems fuel)
          else emptyOr properties "did not find expected node content"
        | some .blockMappingStart =>
          if block then
            advance
            return .mapping properties (← blockEntries fuel)
          else emptyOr properties "did not find expected node content"
        | _ => emptyOr properties "did not find expected node content"

/-- Properties alone stand for an empty scalar. -/
def emptyOr (properties : Properties) (problem : String) : Parse Node := do
  if properties.anchor.isSome || properties.tag.isSome then
    return .scalar properties .plain ""
  else fail problem

/-- A node that is left out before any of the given tokens. -/
def nodeUnless (ends : List Token) (block indentless : Bool) : Nat → Parse Node
  | 0 => fail "did not find expected node content"
  | fuel + 1 => do
    if isLeftOut ends (← peek) then return Node.empty else node block indentless fuel

def blockItems : Nat → Parse (List Node)
  | 0 => fail "did not find expected '-' indicator"
  | fuel + 1 => do
    match ← peek with
    | some .blockEntry =>
      advance
      let item ← nodeUnless [.blockEntry, .blockEnd] true false fuel
      return item :: (← blockItems fuel)
    | some .blockEnd => advance; return []
    | _ => fail "did not find expected '-' indicator"

def indentlessItems : Nat → Parse (List Node)
  | 0 => fail "did not find expected '-' indicator"
  | fuel + 1 => do
    match ← peek with
    | some .blockEntry =>
      advance
      let item ← nodeUnless [.blockEntry, .key, .value, .blockEnd] true false fuel
      return item :: (← indentlessItems fuel)
    | _ => return []

def blockEntries : Nat → Parse (List (Node × Node))
  | 0 => fail "did not find expected key"
  | fuel + 1 => do
    match ← peek with
    | some .key =>
      advance
      let key ← nodeUnless [.key, .value, .blockEnd] true true fuel
      let value ← valueUnless [.key, .value, .blockEnd] true fuel
      return (key, value) :: (← blockEntries fuel)
    | some .blockEnd => advance; return []
    | _ => fail "did not find expected key"

/-- The value after a key, empty where no value follows. -/
def valueUnless (ends : List Token) (block : Bool) : Nat → Parse Node
  | 0 => fail "did not find expected node content"
  | fuel + 1 => do
    match ← peek with
    | some .value =>
      advance
      nodeUnless ends block block fuel
    | _ => return Node.empty

def flowItems (first : Bool) : Nat → Parse (List Node)
  | 0 => fail "did not find expected ',' or ']'"
  | fuel + 1 => do
    if (← peek) == some .flowSequenceEnd then advance; return []
    else
      if !first then
        if (← peek) == some .flowEntry then advance
        else fail "did not find expected ',' or ']'"
      match ← peek with
      | some .flowSequenceEnd => advance; return []
      | some .key =>
        advance
        let pair ← singlePair fuel
        return .mapping ⟨none, none⟩ [pair] :: (← flowItems false fuel)
      | _ =>
        let item ← node false false fuel
        return item :: (← flowItems false fuel)

/-- A pair that stands in a flow sequence by itself. A key that is left out
takes the token after it along. -/
def singlePair : Nat → Parse (Node × Node)
  | 0 => fail "did not find expected node content"
  | fuel + 1 => do
    let key ←
      if isLeftOut [.value, .flowEntry, .flowSequenceEnd] (← peek) then advance; pure Node.empty
      else node false false fuel
    return (key, ← valueUnless [.flowEntry, .flowSequenceEnd] false fuel)

def flowEntries (first : Bool) : Nat → Parse (List (Node × Node))
  | 0 => fail "did not find expected ',' or '\x7d'"
  | fuel + 1 => do
    if (← peek) == some .flowMappingEnd then advance; return []
    else
      if !first then
        if (← peek) == some .flowEntry then advance
        else fail "did not find expected ',' or '\x7d'"
      match ← peek with
      | some .flowMappingEnd => advance; return []
      | some .key =>
        advance
        let key ← nodeUnless [.value, .flowEntry, .flowMappingEnd] false false fuel
        let value ← valueUnless [.flowEntry, .flowMappingEnd] false fuel
        return (key, value) :: (← flowEntries false fuel)
      | _ =>
        let key ← node false false fuel
        return (key, Node.empty) :: (← flowEntries false fuel)

end

/-- The directives before a document. -/
def directives (version : Bool) : Nat → Parse Unit
  | 0 => return
  | fuel + 1 => do
    match ← peek with
    | some (.versionDirective major minor) =>
      if version then fail "found duplicate %YAML directive"
      else if major != 1 || (minor != 1 && minor != 2) then
        fail "found incompatible YAML document"
      else
        advance
        directives true fuel
    | some (.tagDirective handle expansion) =>
      if ((← get).handles.lookup handle).isSome then fail "found duplicate %TAG directive"
      else
        modify fun state => { state with handles := (handle, expansion) :: state.handles }
        advance
        directives version fuel
    | _ => return

/-- The handles that need no directive. -/
def addStandardHandles : Parse Unit :=
  modify fun state => { state with
    handles := state.handles ++ [("!", Tag.mark), ("!!", Tag.standard "")] }

def isDirective : Token → Bool
  | .versionDirective .. => true
  | .tagDirective .. => true
  | _ => false

/-- Only marks of a document end may follow the document. -/
def endOfStream : Nat → Parse Unit
  | 0 => return
  | fuel + 1 => do
    match ← peek with
    | none => return
    | some .documentEnd => advance; endOfStream fuel
    | some _ => fail "found more than one document"

/-- The only document of a stream, or nothing when the stream has none. -/
def document (fuel : Nat) : Parse (Option Node) := do
  match ← peek with
  | none => return none
  | some first =>
    let root ←
      if isDirective first || first == .documentStart then do
        directives false fuel
        addStandardHandles
        if (← peek) != some .documentStart then fail "did not find expected <document start>"
        advance
        match ← peek with
        | none => pure Node.empty
        | some next =>
          if isDirective next || next == .documentStart || next == .documentEnd then
            pure Node.empty
          else node true false fuel
      else do
        addStandardHandles
        node true false fuel
    endOfStream fuel
    return some root

end Parse

/-- A document with its anchored nodes. -/
structure Document where
  /-- Absent when the text holds only blanks and comments. -/
  root : Option Node
  anchors : List (Nat × Node)
  /-- The number of marks of the document. -/
  size : Nat

/-- The node that an alias stands for: the last one with its number. -/
def Document.find? (document : Document) (anchor : Nat) : Option Node :=
  document.anchors.reverse.lookup anchor

/-- The document in a text. -/
def Document.ofText (text : String) : Except Problem Document := do
  let lexemes ← tokens text
  let (root, _) ← (Parse.document (4 * lexemes.length + 4)).run ⟨lexemes, [], []⟩
  return { root
           anchors := (root.map Node.anchored).getD []
           size := (root.map Node.size).getD 1 }

end TrackingPlan.Yaml
