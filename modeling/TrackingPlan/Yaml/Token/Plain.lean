import TrackingPlan.Yaml.Cursor

/-!
# Plain scalars

A plain scalar ends before a colon that ends a word, before a comment and, in
flow collections, before any of their marks. Outside of flow collections it
goes on over lines that are indented deeper than the collection around it.
-/

namespace TrackingPlan.Yaml

def isFlowMark (c : Char) : Bool :=
  c == ',' || c == '[' || c == ']' || c == '\x7b' || c == '\x7d'

/-- The characters up to the end of the word or of the scalar. -/
def Cursor.takePlainWord (inFlow : Bool) : Nat → Cursor → Except Problem (List Char × Cursor)
  | 0, cursor => .ok ([], cursor)
  | fuel + 1, cursor =>
    match cursor.rest with
    | [] => .ok ([], cursor)
    | c :: _ =>
      if isBlank c || isBreak c then .ok ([], cursor)
      else if inFlow && c == ':' && cursor.testAt 1 (fun c => isFlowMark c || c == '?') then
        cursor.fail "found unexpected ':'"
      else if (c == ':' && cursor.endsWordAt 1) || (inFlow && isFlowMark c) then .ok ([], cursor)
      else do
        let (word, last) ← takePlainWord inFlow fuel (cursor.skip 1)
        return (c :: word, last)

/-- A plain scalar that was read. -/
structure PlainScalar where
  text : List Char
  /-- The cursor is at the start of a later line, where only blanks precede it. -/
  endsLine : Bool
  cursor : Cursor

/-- The rest of a plain scalar, after a gap that belongs to it only if a word follows. -/
def Cursor.takePlainRest (inFlow : Bool) (indent : Nat) :
    Nat → Gap → Cursor → Except Problem PlainScalar
  | 0, gap, cursor => .ok ⟨[], !gap.breaks.isEmpty, cursor⟩
  | fuel + 1, gap, cursor =>
    if cursor.atDocumentMark || cursor.startsWith '#' then
      .ok ⟨[], !gap.breaks.isEmpty, cursor⟩
    else do
      let (word, next) ← cursor.takePlainWord inFlow fuel
      if word.isEmpty then
        return ⟨[], !gap.breaks.isEmpty, next⟩
      else if !(next.testAt 0 fun c => isBlank c || isBreak c) then
        return ⟨gap.text ++ word, false, next⟩
      else
        let (nextGap, next) ← next.takeGap indent
        if !inFlow && next.column < indent then
          return ⟨gap.text ++ word, !nextGap.breaks.isEmpty, next⟩
        else
          let more ← takePlainRest inFlow indent fuel nextGap next
          return { more with text := gap.text ++ word ++ more.text }

/-- The plain scalar at the cursor. -/
def Cursor.takePlain (inFlow : Bool) (indent : Nat) (cursor : Cursor) :
    Except Problem PlainScalar :=
  cursor.takePlainRest inFlow indent (cursor.rest.length + 1) ⟨[], []⟩

end TrackingPlan.Yaml
