import TrackingPlan.Yaml.Cursor

/-!
# Quoted scalars

Between single quotes only a doubled quote is special. Between double quotes a
backslash starts an escape, and a backslash at the end of a line joins it to
the next one. Line breaks fold as in plain scalars.
-/

namespace TrackingPlan.Yaml

def isHexDigit (c : Char) : Bool :=
  c.isDigit || ('a' ≤ c && c ≤ 'f') || ('A' ≤ c && c ≤ 'F')

def hexValue (c : Char) : Nat :=
  if c.isDigit then c.toNat - '0'.toNat
  else if 'a' ≤ c then c.toNat - 'a'.toNat + 10
  else c.toNat - 'A'.toNat + 10

/-- The character of an escape that is a single letter. -/
def namedEscape? (c : Char) : Option Char :=
  match c with
  | '0' => some (Char.ofNat 0)
  | 'a' => some (Char.ofNat 0x07)
  | 'b' => some (Char.ofNat 0x08)
  | 't' | '\t' => some '\t'
  | 'n' => some '\n'
  | 'v' => some (Char.ofNat 0x0B)
  | 'f' => some (Char.ofNat 0x0C)
  | 'r' => some '\r'
  | 'e' => some (Char.ofNat 0x1B)
  | ' ' => some ' '
  | '"' => some '"'
  | '/' => some '/'
  | '\\' => some '\\'
  | 'N' => some (Char.ofNat 0x85)
  | '_' => some (Char.ofNat 0xA0)
  | 'L' => some (Char.ofNat 0x2028)
  | 'P' => some (Char.ofNat 0x2029)
  | _ => none

/-- The number of hexadecimal digits after the letter of an escape. -/
def escapeWidth? (c : Char) : Option Nat :=
  match c with
  | 'x' => some 2
  | 'u' => some 4
  | 'U' => some 8
  | _ => none

/-- The escape at the cursor, which is on a backslash. -/
def Cursor.takeEscape (cursor : Cursor) : Except Problem (Char × Cursor) :=
  match cursor.rest with
  | _ :: letter :: digits =>
    match namedEscape? letter, escapeWidth? letter with
    | some c, _ => .ok (c, cursor.skip 2)
    | none, some width =>
      let digits := digits.take width
      if digits.length < width || !digits.all isHexDigit then
        cursor.fail "did not find expected hexdecimal number"
      else
        let code := digits.foldl (fun value digit => value * 16 + hexValue digit) 0
        if (0xD800 ≤ code && code ≤ 0xDFFF) || 0x10FFFF < code then
          cursor.fail "found invalid Unicode character escape code"
        else .ok (Char.ofNat code, cursor.skip (2 + width))
    | none, none => cursor.fail "found unknown escape character"
  | _ => cursor.fail "found unknown escape character"

/-- How a word between quotes ends. -/
inductive WordEnd where
  /-- At the closing quote, a blank, a line break or the end of the document. -/
  | open
  /-- At an escaped line break, which is past. -/
  | joined

/-- The characters up to the next blank, line break or closing quote. -/
def Cursor.takeQuotedWord (single : Bool) :
    Nat → Cursor → Except Problem (List Char × WordEnd × Cursor)
  | 0, cursor => .ok ([], .open, cursor)
  | fuel + 1, cursor =>
    match cursor.rest with
    | [] => .ok ([], .open, cursor)
    | c :: rest =>
      if isBlank c || isBreak c then .ok ([], .open, cursor)
      else if single && c == '\'' && rest.head? == some '\'' then do
        let (word, stop, last) ← takeQuotedWord single fuel (cursor.skip 2)
        return ('\'' :: word, stop, last)
      else if c == (if single then '\'' else '"') then .ok ([], .open, cursor)
      else if !single && c == '\\' then
        if cursor.testAt 1 isBreak then .ok ([], .joined, (cursor.skip 1).takeBreak.2)
        else do
          let (escaped, next) ← cursor.takeEscape
          let (word, stop, last) ← takeQuotedWord single fuel next
          return (escaped :: word, stop, last)
      else do
        let (word, stop, last) ← takeQuotedWord single fuel (cursor.skip 1)
        return (c :: word, stop, last)

/-- The rest of a quoted scalar, past the closing quote. -/
def Cursor.takeQuotedRest (single : Bool) : Nat → Cursor → Except Problem (List Char × Cursor)
  | 0, cursor => cursor.fail "found unexpected end of stream"
  | fuel + 1, cursor =>
    if cursor.atDocumentMark then cursor.fail "found unexpected document indicator"
    else if cursor.rest.isEmpty then cursor.fail "found unexpected end of stream"
    else do
      let (word, stop, next) ← cursor.takeQuotedWord single fuel
      if next.startsWith (if single then '\'' else '"') then
        return (word, next.skip 1)
      else
        let (gap, next) ← match stop with
          | .joined => takeBreaks 0 next.rest.length next
          | .open => do
            let (gap, next) ← next.takeGap 0
            pure (gap.text, next)
        let (more, last) ← takeQuotedRest single fuel next
        return (word ++ gap ++ more, last)

/-- The quoted scalar at the cursor. -/
def Cursor.takeQuoted (single : Bool) (cursor : Cursor) : Except Problem (List Char × Cursor) :=
  (cursor.skip 1).takeQuotedRest single cursor.rest.length

end TrackingPlan.Yaml
