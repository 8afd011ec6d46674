import TrackingPlan.Yaml.Cursor
import TrackingPlan.Yaml.Tag
import TrackingPlan.Yaml.Token
import TrackingPlan.Yaml.Token.Quoted

/-!
# Tags, anchors and directives

A tag is a handle and a suffix; directives say what the handles stand for.
-/

namespace TrackingPlan.Yaml

/-- The characters of a tag; in a tag between angle brackets three marks more. -/
def isTagChar (verbatim : Bool) (c : Char) : Bool :=
  isNameChar c || ";/?:@&=+$.%!~*'()".toList.contains c || (verbatim && ",[]".toList.contains c)

/-- The number of octets of a character's encoding, by the first one. -/
def octetCount? (first : Nat) : Option Nat :=
  if first < 0x80 then some 1
  else if 0xC0 ≤ first && first < 0xE0 then some 2
  else if 0xE0 ≤ first && first < 0xF0 then some 3
  else if 0xF0 ≤ first && first < 0xF8 then some 4
  else none

/-- The octet of an escape in a tag. -/
def Cursor.takeOctet (cursor : Cursor) : Except Problem (Nat × Cursor) :=
  match cursor.rest with
  | '%' :: high :: low :: _ =>
    if isHexDigit high && isHexDigit low then
      .ok (hexValue high * 16 + hexValue low, cursor.skip 3)
    else cursor.fail "did not find URI escaped octet"
  | _ => cursor.fail "did not find URI escaped octet"

def Cursor.takeTrailingOctets : Nat → Cursor → Except Problem (List UInt8 × Cursor)
  | 0, cursor => .ok ([], cursor)
  | count + 1, cursor => do
    let (octet, next) ← cursor.takeOctet
    if octet / 64 != 2 then cursor.fail "found an incorrect trailing UTF-8 octet"
    else do
      let (more, last) ← takeTrailingOctets count next
      return (octet.toUInt8 :: more, last)

/-- Escaped octets, as many as the first one announces. What they encode is
not looked at, so they may stand for no character. -/
def Cursor.takeEscapedOctets (cursor : Cursor) : Except Problem (List UInt8 × Cursor) := do
  let (first, next) ← cursor.takeOctet
  match octetCount? first with
  | none => cursor.fail "found an incorrect leading UTF-8 octet"
  | some count =>
    let (more, last) ← next.takeTrailingOctets (count - 1)
    return (first.toUInt8 :: more, last)

/-- The octets of a tag, with escapes resolved. -/
def Cursor.takeTagOctets (verbatim : Bool) :
    Nat → Cursor → Except Problem (List UInt8 × Cursor)
  | 0, cursor => .ok ([], cursor)
  | fuel + 1, cursor =>
    match cursor.rest with
    | [] => .ok ([], cursor)
    | c :: _ =>
      if !isTagChar verbatim c then .ok ([], cursor)
      else do
        let (octets, next) ←
          if c == '%' then cursor.takeEscapedOctets
          else pure (String.utf8EncodeChar c, cursor.skip 1)
        let (more, last) ← takeTagOctets verbatim fuel next
        return (octets ++ more, last)

/-- A part of a tag. It may be empty only where the tag has something in front
of it, which is taken along. -/
def Cursor.takeTagPart (verbatim : Bool) (front : Option (List Char)) (cursor : Cursor) :
    Except Problem (Tag × Cursor) := do
  let (octets, next) ← cursor.takeTagOctets verbatim cursor.rest.length
  if octets.isEmpty && front.isNone then cursor.fail "did not find expected tag URI"
  else return (.ofOctets ((front.getD []).flatMap String.utf8EncodeChar ++ octets), next)

/-- An exclamation mark, a name and, if it is next, another exclamation mark. -/
def Cursor.takeTagHandle (cursor : Cursor) : Except Problem (List Char × Cursor) :=
  if cursor.startsWith '!' then
    let (name, next) := (cursor.skip 1).takeWhile isNameChar
    if next.startsWith '!' then .ok ('!' :: (name ++ ['!']), next.skip 1)
    else .ok ('!' :: name, next)
  else cursor.fail "did not find expected '!'"

/-- The tag at the cursor. A name after a single mark is part of the suffix, and
a mark alone is a tag written in full. -/
def Cursor.takeTag (inFlow : Bool) (cursor : Cursor) : Except Problem (Token × Cursor) := do
  let (tag, next) ←
    if cursor.testAt 1 (· == '<') then do
      let (suffix, next) ← (cursor.skip 2).takeTagPart true none
      if next.startsWith '>' then pure (Token.tag "" suffix, next.skip 1)
      else next.fail "did not find the expected '>'"
    else do
      let (handle, next) ← cursor.takeTagHandle
      if 1 < handle.length && handle.getLast? == some '!' then do
        let (suffix, next) ← next.takeTagPart false none
        pure (Token.tag (String.ofList handle) suffix, next)
      else do
        let (suffix, next) ← next.takeTagPart false (some (handle.drop 1))
        if suffix.isEmpty then pure (Token.tag "" Tag.mark, next)
        else pure (Token.tag "!" suffix, next)
  if next.endsWordAt 0 || (inFlow && next.startsWith ',') then return (tag, next)
  else next.fail "did not find expected whitespace or line break"

/-- The name of an anchor or an alias, after its indicator. -/
def Cursor.takeAnchorName (cursor : Cursor) : Except Problem (String × Cursor) :=
  let (name, next) := (cursor.skip 1).takeWhile isNameChar
  if !name.isEmpty && (next.endsWordAt 0 || next.testAt 0 "?:,]\x7d%@`".toList.contains) then
    .ok (String.ofList name, next)
  else next.fail "did not find expected alphabetic or numeric character"

/-- A number of a version; long ones are refused. -/
def Cursor.takeVersionNumber (cursor : Cursor) : Except Problem (Nat × Cursor) :=
  let (digits, next) := cursor.takeWhile Char.isDigit
  if digits.isEmpty then cursor.fail "did not find expected version number"
  else if 9 < digits.length then cursor.fail "found extremely long version number"
  else .ok (digits.foldl (fun value c => value * 10 + hexValue c) 0, next)

/-- The directive at the cursor, with the rest of its line. -/
def Cursor.takeDirective (cursor : Cursor) : Except Problem (Token × Cursor) := do
  let (name, next) := (cursor.skip 1).takeWhile isNameChar
  if name.isEmpty then next.fail "could not find expected directive name"
  else if !next.endsWordAt 0 then next.fail "found unexpected non-alphabetical character"
  else
    let next := next.skipWhile isBlank
    let (token, next) ← match String.ofList name with
      | "YAML" => do
        let (major, next) ← next.takeVersionNumber
        if next.startsWith '.' then do
          let (minor, next) ← (next.skip 1).takeVersionNumber
          pure (Token.versionDirective major minor, next)
        else next.fail "did not find expected digit or '.' character"
      | "TAG" => do
        let (handle, after) ← next.takeTagHandle
        if 1 < handle.length && handle.getLast? != some '!' then
          next.fail "did not find expected '!'"
        else if !(after.testAt 0 isBlank) then
          after.fail "did not find expected whitespace"
        else
          let (expansion, after) ← (after.skipWhile isBlank).takeTagPart true none
          if after.endsWordAt 0 then
            pure (Token.tagDirective (String.ofList handle) expansion, after)
          else after.fail "did not find expected whitespace or line break"
      | _ => next.fail "found unknown directive name"
    return (token, ← next.finishLine)

end TrackingPlan.Yaml
