import TrackingPlan.Yaml.Token.Quoted
import TrackingPlan.Yaml.Token.Plain
import TrackingPlan.Yaml.Token.Block
import TrackingPlan.Yaml.Token.Tag

/-!
# The tokens of a text

Indentation opens and closes block collections. What a word is turns on the
colon after it: a place where a key may start is kept, and when the colon
comes the key and, if the indentation grows, a mapping are put in there.
-/

namespace TrackingPlan.Yaml

/-- A place where a key without its own indicator may have started. -/
structure KeyPlace where
  /-- The number of tokens before it. -/
  tokenCount : Nat
  /-- Nothing but a key can stand there. -/
  required : Bool
  index : Nat
  line : Nat
  column : Nat

structure Scan where
  cursor : Cursor
  tokens : Array Lexeme
  /-- The columns of the open block collections, the innermost first. -/
  indents : List Nat
  /-- A place for a key in each open flow collection, the innermost first, and
  one for the block context below them. -/
  keys : List (Option KeyPlace)
  keyAllowed : Bool

namespace Scan

def start (text : List Char) : Scan :=
  { cursor := Cursor.ofText text, tokens := #[], indents := [], keys := [none], keyAllowed := true }

def inFlow (scan : Scan) : Bool := 1 < scan.keys.length

/-- One more than the column of the innermost block collection. -/
def base (scan : Scan) : Nat :=
  match scan.indents with
  | [] => 0
  | column :: _ => column + 1

def push (scan : Scan) (token : Token) : Scan :=
  { scan with tokens := scan.tokens.push ⟨token, scan.cursor.line, scan.cursor.column⟩ }

/-- The token, and its indicator of that many characters behind the cursor. -/
def pushIndicator (scan : Scan) (token : Token) (width : Nat) : Scan :=
  { scan.push token with cursor := scan.cursor.skip width }

/-- Close the block collections that are indented deeper than the column. -/
def closeBlocks (scan : Scan) (within : Nat → Bool) : Scan :=
  if scan.inFlow then scan
  else
    let closed := scan.indents.takeWhile (!within ·)
    { closed.foldl (fun scan _ => scan.push .blockEnd) scan with
      indents := scan.indents.drop closed.length }

/-- Open a block collection at the column unless one is open there. The tokens
after the given number belong to it. -/
def openBlock (scan : Scan) (column tokenCount : Nat) (token : Token) : Scan :=
  if scan.inFlow || column < scan.base then scan
  else
    { scan with
      indents := column :: scan.indents
      tokens := scan.tokens.insertIdxIfInBounds tokenCount
        ⟨token, scan.cursor.line, scan.cursor.column⟩ }

def setKey (scan : Scan) (place : Option KeyPlace) : Scan :=
  { scan with keys := place :: scan.keys.drop 1 }

def failAtKey {α : Type} (place : KeyPlace) : Except Problem α :=
  .error ⟨"could not find expected ':'", place.line, place.column⟩

/-- No key starts at the innermost place. -/
def dropKey (scan : Scan) : Except Problem Scan :=
  match scan.keys with
  | some place :: _ => if place.required then failAtKey place else .ok (scan.setKey none)
  | _ => .ok scan

/-- Keep the cursor as a place where a key may start, if one may. -/
def keepKey (scan : Scan) : Except Problem Scan :=
  if scan.keyAllowed then do
    let scan ← scan.dropKey
    return scan.setKey (some
      { tokenCount := scan.tokens.size
        required := !scan.inFlow && scan.indents.head? == some scan.cursor.column
        index := scan.cursor.index
        line := scan.cursor.line
        column := scan.cursor.column })
  else .ok scan

/-- A key without its own indicator stays on one line and within 1024 octets. -/
def dropStaleKeys (scan : Scan) : Except Problem Scan := do
  let keys ← scan.keys.mapM fun key => match key with
    | none => pure none
    | some place =>
      if place.line < scan.cursor.line || place.index + 1024 < scan.cursor.index then
        if place.required then failAtKey place else pure none
      else pure (some place)
  return { scan with keys }

/-- Past blanks, comments and line ends. -/
def skipToToken : Nat → Scan → Scan
  | 0, scan => scan
  | fuel + 1, scan =>
    let cursor := scan.cursor
    let cursor :=
      if cursor.column == 0 && cursor.startsWith (Char.ofNat 0xFEFF) then cursor.skip 1 else cursor
    let cursor := cursor.skipWhile fun c =>
      c == ' ' || ((scan.inFlow || !scan.keyAllowed) && c == '\t')
    let cursor := if cursor.startsWith '#' then cursor.skipWhile (!isBreak ·) else cursor
    match cursor.takeBreak with
    | ([], _) => { scan with cursor }
    | (_, next) =>
      skipToToken fuel { scan with cursor := next, keyAllowed := scan.keyAllowed || !scan.inFlow }

/-- A token that only stands outside of all block collections. -/
def outside (scan : Scan) : Except Problem Scan := do
  let scan ← (scan.closeBlocks fun _ => false).dropKey
  return { scan with keyAllowed := false }

def directive (scan : Scan) : Except Problem Scan := do
  let scan ← scan.outside
  let (token, cursor) ← scan.cursor.takeDirective
  return { scan.push token with cursor }

def documentMark (scan : Scan) (token : Token) : Except Problem Scan := do
  return (← scan.outside).pushIndicator token 3

def flowStart (scan : Scan) (token : Token) : Except Problem Scan := do
  let scan := (← scan.keepKey).pushIndicator token 1
  return { scan with keys := none :: scan.keys, keyAllowed := true }

def flowEnd (scan : Scan) (token : Token) : Except Problem Scan := do
  let scan := (← scan.dropKey).pushIndicator token 1
  return { scan with
    keys := if scan.inFlow then scan.keys.drop 1 else scan.keys
    keyAllowed := false }

def flowEntry (scan : Scan) : Except Problem Scan := do
  let scan ← scan.dropKey
  return { scan.pushIndicator .flowEntry 1 with keyAllowed := true }

/-- In a flow collection the entry is refused later, with its context. -/
def blockEntry (scan : Scan) : Except Problem Scan := do
  if !scan.inFlow && !scan.keyAllowed then
    scan.cursor.fail "block sequence entries are not allowed in this context"
  let scan := scan.openBlock scan.cursor.column scan.tokens.size .blockSequenceStart
  let scan ← scan.dropKey
  return { scan.pushIndicator .blockEntry 1 with keyAllowed := true }

def keyIndicator (scan : Scan) : Except Problem Scan := do
  if !scan.inFlow && !scan.keyAllowed then
    scan.cursor.fail "mapping keys are not allowed in this context"
  let scan := scan.openBlock scan.cursor.column scan.tokens.size .blockMappingStart
  let scan ← scan.dropKey
  return { scan.pushIndicator .key 1 with keyAllowed := !scan.inFlow }

def valueIndicator (scan : Scan) : Except Problem Scan := do
  match scan.keys.head?.join with
  | some place =>
    let tokens := scan.tokens.insertIdxIfInBounds place.tokenCount ⟨.key, place.line, place.column⟩
    let scan := { scan with tokens }.openBlock place.column place.tokenCount .blockMappingStart
    let scan := scan.setKey none
    return { scan.pushIndicator .value 1 with keyAllowed := false }
  | none =>
    if !scan.inFlow && !scan.keyAllowed then
      scan.cursor.fail "mapping values are not allowed in this context"
    let scan := scan.openBlock scan.cursor.column scan.tokens.size .blockMappingStart
    return { scan.pushIndicator .value 1 with keyAllowed := !scan.inFlow }

/-- A token that may start a key and after which none starts on the same line. -/
def keyPart (scan : Scan) (take : Cursor → Except Problem (Token × Cursor)) :
    Except Problem Scan := do
  let scan ← scan.keepKey
  let (token, cursor) ← take scan.cursor
  return { scan.push token with cursor, keyAllowed := false }

def quoted (scan : Scan) (single : Bool) : Except Problem Scan :=
  scan.keyPart fun cursor => do
    let (text, next) ← cursor.takeQuoted single
    return (.scalar (if single then .singleQuoted else .doubleQuoted) (String.ofList text), next)

def block (scan : Scan) (folded : Bool) : Except Problem Scan := do
  let scan ← scan.dropKey
  let (text, cursor) ← scan.cursor.takeBlock folded scan.base
  return { scan.push (.scalar (if folded then .folded else .literal) (String.ofList text)) with
    cursor, keyAllowed := true }

def plain (scan : Scan) : Except Problem Scan := do
  let scan ← scan.keepKey
  let scalar ← scan.cursor.takePlain scan.inFlow scan.base
  return { scan.push (.scalar .plain (String.ofList scalar.text)) with
    cursor := scalar.cursor, keyAllowed := scalar.endsLine }

/-- The marks that start no plain scalar, whatever follows them. -/
def isIndicator (c : Char) : Bool :=
  "-?:,[]\x7b\x7d#&*!|>'\"%@`".toList.contains c

/-- Whether a plain scalar starts at the cursor. -/
def startsPlain (scan : Scan) (c : Char) : Bool :=
  let cursor := scan.cursor
  !(isBlank c || isBreak c || isIndicator c) ||
    (c == '-' && !cursor.testAt 1 isBlank) ||
    (!scan.inFlow && (c == '?' || c == ':') && !cursor.endsWordAt 1)

/-- The token that starts with the character, which is at the cursor. -/
def token (scan : Scan) (c : Char) : Except Problem Scan :=
  let cursor := scan.cursor
  let endsWord := cursor.endsWordAt 1
  if cursor.column == 0 && c == '%' then scan.directive
  else if cursor.atIndicatorLine '-' then scan.documentMark .documentStart
  else if cursor.atIndicatorLine '.' then scan.documentMark .documentEnd
  else if c == '[' then scan.flowStart .flowSequenceStart
  else if c == '\x7b' then scan.flowStart .flowMappingStart
  else if c == ']' then scan.flowEnd .flowSequenceEnd
  else if c == '\x7d' then scan.flowEnd .flowMappingEnd
  else if c == ',' then scan.flowEntry
  else if c == '-' && endsWord then scan.blockEntry
  else if c == '?' && (scan.inFlow || endsWord) then scan.keyIndicator
  else if c == ':' && (scan.inFlow || endsWord) then scan.valueIndicator
  else if c == '*' then
    scan.keyPart fun cursor => do
      let (name, next) ← cursor.takeAnchorName
      return (.alias name, next)
  else if c == '&' then
    scan.keyPart fun cursor => do
      let (name, next) ← cursor.takeAnchorName
      return (.anchor name, next)
  else if c == '!' then scan.keyPart (Cursor.takeTag scan.inFlow)
  else if c == '|' && !scan.inFlow then scan.block false
  else if c == '>' && !scan.inFlow then scan.block true
  else if c == '\'' then scan.quoted true
  else if c == '"' then scan.quoted false
  else if scan.startsPlain c then scan.plain
  else cursor.fail "found character that cannot start any token"

/-- The tokens from the cursor on. -/
def run : Nat → Scan → Except Problem (Array Lexeme)
  | 0, scan => .ok scan.tokens
  | fuel + 1, scan => do
    let scan ← (skipToToken (fuel + 1) scan).dropStaleKeys
    let scan := scan.closeBlocks (· ≤ scan.cursor.column)
    match scan.cursor.rest with
    | [] => return (← scan.outside).tokens
    | c :: _ => run fuel (← scan.token c)

end Scan

/-- The tokens of a document. -/
def tokens (text : String) : Except Problem (List Lexeme) :=
  let chars := text.toList
  match chars.find? (!isPermitted ·) with
  | some _ => .error ⟨"control characters are not allowed", 0, 0⟩
  | none => do
    let found ← Scan.run (chars.length + 1) (Scan.start chars)
    return found.toList

end TrackingPlan.Yaml
