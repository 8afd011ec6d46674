/-!
# Positions in a document

A cursor is the text that is left with the place where it starts. Lines end at
a line feed, a carriage return, both together, a next-line character or one of
the two Unicode separators.
-/

namespace TrackingPlan.Yaml

/-- What is wrong with a document, and where: lines and columns count from zero. -/
structure Problem where
  what : String
  line : Nat
  column : Nat
  deriving DecidableEq, Repr, Inhabited

def Problem.message (problem : Problem) : String :=
  problem.what ++ " at line " ++ toString (problem.line + 1) ++ " column " ++
    toString (problem.column + 1)

/-- A blank inside a line. -/
def isBlank (c : Char) : Bool := c == ' ' || c == '\t'

def isBreak (c : Char) : Bool :=
  c == '\n' || c == '\r' || c.toNat == 0x85 || c.toNat == 0x2028 || c.toNat == 0x2029

/-- The characters of names of anchors, tag handles and directives. -/
def isNameChar (c : Char) : Bool := c.isAlphanum || c == '_' || c == '-'

/-- The characters that a document may hold. -/
def isPermitted (c : Char) : Bool :=
  let code := c.toNat
  code == 0x09 || code == 0x0A || code == 0x0D || (0x20 ≤ code && code ≤ 0x7E) ||
    code == 0x85 || (0xA0 ≤ code && code ≤ 0xD7FF) || (0xE000 ≤ code && code ≤ 0xFFFD) ||
    (0x10000 ≤ code && code ≤ 0x10FFFF)

/-- The number of octets that encode the characters. -/
def octetCount (chars : List Char) : Nat :=
  chars.foldl (fun count c => count + c.utf8Size) 0

/-- The text that is left, with the number of octets, lines and columns before
it. A column is a character. -/
structure Cursor where
  rest : List Char
  index : Nat
  line : Nat
  column : Nat
  deriving Inhabited

namespace Cursor

def ofText (text : List Char) : Cursor := ⟨text, 0, 0, 0⟩

def fail {α : Type} (cursor : Cursor) (what : String) : Except Problem α :=
  .error ⟨what, cursor.line, cursor.column⟩

/-- Whether the text that is left starts with the character. -/
def startsWith (cursor : Cursor) (c : Char) : Bool := cursor.rest.head? == some c

/-- Whether the character at the offset satisfies the test. -/
def testAt (cursor : Cursor) (offset : Nat) (test : Char → Bool) : Bool :=
  match cursor.rest[offset]? with
  | some c => test c
  | none => false

/-- Whether a blank, a line break or the end is at the offset. -/
def endsWordAt (cursor : Cursor) (offset : Nat) : Bool :=
  match cursor.rest[offset]? with
  | some c => isBlank c || isBreak c
  | none => true

/-- Whether a line break or the end is next. -/
def atLineEnd (cursor : Cursor) : Bool :=
  match cursor.rest with
  | [] => true
  | c :: _ => isBreak c

/-- Past some characters of the same line. -/
def skip (cursor : Cursor) (count : Nat) : Cursor :=
  { cursor with
    rest := cursor.rest.drop count
    index := cursor.index + octetCount (cursor.rest.take count)
    column := cursor.column + count }

/-- Past the line break that is next, with the character it is kept as; a
separator is kept as itself, all other breaks as a line feed. -/
def takeBreak (cursor : Cursor) : List Char × Cursor :=
  let next (taken rest : List Char) : Cursor :=
    ⟨rest, cursor.index + octetCount taken, cursor.line + 1, 0⟩
  match cursor.rest with
  | '\r' :: '\n' :: rest => (['\n'], next ['\r', '\n'] rest)
  | c :: rest =>
    if c == '\n' || c == '\r' || c.toNat == 0x85 then (['\n'], next [c] rest)
    else if isBreak c then ([c], next [c] rest)
    else ([], cursor)
  | [] => ([], cursor)

/-- The longest run of characters that satisfy the test, all of one line. -/
def takeWhile (cursor : Cursor) (test : Char → Bool) : List Char × Cursor :=
  let taken := cursor.rest.takeWhile test
  (taken, cursor.skip taken.length)

def skipWhile (cursor : Cursor) (test : Char → Bool) : Cursor := (cursor.takeWhile test).2

/-- Past the rest of a line that holds nothing, or blanks and a comment. -/
def finishLine (cursor : Cursor) : Except Problem Cursor :=
  let cursor := cursor.skipWhile isBlank
  let cursor := if cursor.startsWith '#' then cursor.skipWhile (!isBreak ·) else cursor
  if cursor.atLineEnd then .ok cursor.takeBreak.2
  else cursor.fail "did not find expected comment or line break"

/-- Whether a line starts with three of the character and no more of a word. -/
def atIndicatorLine (cursor : Cursor) (c : Char) : Bool :=
  cursor.column == 0 && cursor.startsWith c && cursor.testAt 1 (· == c) &&
    cursor.testAt 2 (· == c) && cursor.endsWordAt 3

/-- Whether a line starts with the mark that opens or closes a document. -/
def atDocumentMark (cursor : Cursor) : Bool :=
  cursor.atIndicatorLine '-' || cursor.atIndicatorLine '.'

/-- The line breaks that are next, with the blanks around them left out. A tab
left of the given column is refused. -/
def takeBreaks (indent : Nat) : Nat → Cursor → Except Problem (List Char × Cursor)
  | 0, cursor => .ok ([], cursor)
  | fuel + 1, cursor =>
    let (blanks, after) := cursor.takeWhile isBlank
    if (blanks.take (indent - cursor.column)).contains '\t' then
      cursor.fail "found a tab character that violates indentation"
    else
      match after.takeBreak with
      | ([], _) => .ok ([], after)
      | (kept, next) => do
        let (breaks, last) ← takeBreaks indent fuel next
        return (kept ++ breaks, last)

/-- What is between two words of a scalar. -/
structure Gap where
  blanks : List Char
  breaks : List Char

/-- One line break between words is a space, more are one less; blanks around
line breaks are left out. -/
def Gap.text (gap : Gap) : List Char :=
  match gap.breaks with
  | [] => gap.blanks
  | ['\n'] => [' ']
  | '\n' :: more => more
  | breaks => breaks

/-- The blanks and line breaks that are next. -/
def takeGap (indent : Nat) (cursor : Cursor) : Except Problem (Gap × Cursor) :=
  let (blanks, after) := cursor.takeWhile isBlank
  match after.takeBreak with
  | ([], _) => .ok (⟨blanks, []⟩, after)
  | (kept, next) => do
    let (breaks, last) ← takeBreaks indent next.rest.length next
    return (⟨blanks, kept ++ breaks⟩, last)

end Cursor

end TrackingPlan.Yaml
