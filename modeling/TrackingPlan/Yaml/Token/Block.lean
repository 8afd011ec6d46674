import TrackingPlan.Yaml.Cursor

/-!
# Block scalars

A literal block keeps its line breaks; a folded block joins lines that neither
start with a blank nor follow such a line. The header may fix the indentation
and what happens to the line breaks at the end.
-/

namespace TrackingPlan.Yaml

/-- What happens to the line breaks at the end of a block scalar. -/
inductive Chomping where
  | strip
  | clip
  | keep

def chomping? (c : Char) : Option Chomping :=
  if c == '+' then some .keep else if c == '-' then some .strip else none

structure BlockHeader where
  chomping : Chomping
  /-- The indentation relative to the collection around the scalar. -/
  increment : Option Nat

/-- The digit of an indentation indicator, if one is next. -/
def Cursor.takeIncrement (cursor : Cursor) : Except Problem (Option Nat × Cursor) :=
  match cursor.rest with
  | c :: _ =>
    if c == '0' then cursor.fail "found an indentation indicator equal to 0"
    else if c.isDigit then .ok (some (c.toNat - '0'.toNat), cursor.skip 1)
    else .ok (none, cursor)
  | [] => .ok (none, cursor)

def Cursor.takeChomping (cursor : Cursor) : Option Chomping × Cursor :=
  match cursor.rest.head?.bind chomping? with
  | some chomping => (some chomping, cursor.skip 1)
  | none => (none, cursor)

/-- The two indicators of a header may stand in either order. -/
def Cursor.takeBlockHeader (cursor : Cursor) : Except Problem (BlockHeader × Cursor) :=
  match cursor.takeChomping with
  | (some chomping, cursor) => do
    let (increment, cursor) ← cursor.takeIncrement
    return (⟨chomping, increment⟩, ← cursor.finishLine)
  | (none, cursor) => do
    let (increment, cursor) ← cursor.takeIncrement
    let (chomping, cursor) := if increment.isSome then cursor.takeChomping else (none, cursor)
    return (⟨chomping.getD .clip, increment⟩, ← cursor.finishLine)

/-- The empty lines that are next and the indentation of the line after them.
`found` is the deepest indentation so far, `indent` the one to stop at. -/
def Cursor.takeEmptyLines (indent : Option Nat) :
    Nat → Nat → Cursor → Except Problem (List Char × Nat × Cursor)
  | 0, found, cursor => .ok ([], found, cursor)
  | fuel + 1, found, cursor =>
    let spaces := (cursor.rest.takeWhile (· == ' ')).length
    let cursor := cursor.skip (match indent with
      | some indent => min spaces (indent - cursor.column)
      | none => spaces)
    let found := max found cursor.column
    let short := match indent with
      | some indent => cursor.column < indent
      | none => true
    if short && cursor.startsWith '\t' then
      cursor.fail "found a tab character where an indentation space is expected"
    else
      match cursor.takeBreak with
      | ([], _) => .ok ([], found, cursor)
      | (kept, next) => do
        let (breaks, found, last) ← takeEmptyLines indent fuel found next
        return (kept ++ breaks, found, last)

/-- What precedes a line of a block scalar: the break of the line before it and
the breaks of the empty lines between them. -/
def blockJoint (folded : Bool) (lineBreak breaks : List Char) (blankBefore blankAfter : Bool) :
    List Char :=
  if folded && lineBreak.head? == some '\n' && !blankBefore && !blankAfter then
    if breaks.isEmpty then [' '] else breaks
  else lineBreak ++ breaks

/-- The lines of a block scalar from the cursor on. `lineBreak` and `breaks`
are the line breaks before it, not yet written. -/
def Cursor.takeBlockLines (folded : Bool) (chomping : Chomping) (indent : Nat) :
    Nat → List Char → List Char → Bool → Cursor → Except Problem (List Char × Cursor)
  | 0, _, _, _, cursor => .ok ([], cursor)
  | fuel + 1, lineBreak, breaks, blankBefore, cursor =>
    if cursor.column == indent && !cursor.rest.isEmpty then do
      let blank := cursor.testAt 0 isBlank
      let joint := blockJoint folded lineBreak breaks blankBefore blank
      let (line, next) := cursor.takeWhile (!isBreak ·)
      let (lineBreak, next) := next.takeBreak
      let (breaks, _, next) ← takeEmptyLines (some indent) (next.rest.length + 1) 0 next
      let (more, last) ← takeBlockLines folded chomping indent fuel lineBreak breaks blank next
      return (joint ++ line ++ more, last)
    else
      let tail := match chomping with
        | .strip => []
        | .clip => lineBreak
        | .keep => lineBreak ++ breaks
      .ok (tail, cursor)

/-- The block scalar at the cursor, which is on its indicator. The base is one
more than the indentation of the collection around it. -/
def Cursor.takeBlock (folded : Bool) (base : Nat) (cursor : Cursor) :
    Except Problem (List Char × Cursor) := do
  let (header, cursor) ← (cursor.skip 1).takeBlockHeader
  let fixed := header.increment.map (base - 1 + ·)
  let (breaks, found, cursor) ← cursor.takeEmptyLines fixed (cursor.rest.length + 1) 0
  let indent := fixed.getD (max found (max base 1))
  cursor.takeBlockLines folded header.chomping indent (cursor.rest.length + 1) [] breaks false

end TrackingPlan.Yaml
