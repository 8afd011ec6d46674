import TrackingPlan.Toml.Value
import TrackingPlan.Toml.Numeral
import TrackingPlan.Toml.DateTable

/-!
# Reading configuration texts

A text is a sequence of settings, headers and comments, one a line. Values nest
less than eighty deep, and so do keys.
-/

namespace TrackingPlan.Toml

/-- A reading of the characters that are left. -/
abbrev Read := StateT (List Char) (Except String)

namespace Read

def fail {α : Type} (problem : String) : Read α := throw problem

def peek : Read (Option Char) := return (← get).head?

def startsWith (start : List Char) : Read Bool := return start.isPrefixOf (← get)

def skip (count : Nat) : Read Unit := modify (·.drop count)

def takeWhile (test : Char → Bool) : Read (List Char) := do
  let taken := (← get).takeWhile test
  skip taken.length
  return taken

/-- Past the character, if it is next. -/
def accept (c : Char) : Read Bool := do
  if (← peek) == some c then
    skip 1
    return true
  else return false

def expect (c : Char) : Read Unit := do
  if !(← accept c) then fail ("expected `" ++ String.singleton c ++ "`")

def isBlank (c : Char) : Bool := c == ' ' || c == '\t'

/-- The characters of comments and of texts, as far as they are no marks there. -/
def isPrintable (c : Char) : Bool := c == '\t' || (0x20 ≤ c.toNat && c.toNat != 0x7F)

def skipBlanks : Read Unit := discard (takeWhile isBlank)

/-- Past a line end, if one is next. -/
def acceptLineEnd : Read Bool := do
  match ← get with
  | '\n' :: rest => set rest; return true
  | '\r' :: '\n' :: rest => set rest; return true
  | _ => return false

def skipComment : Read Unit := do
  if (← peek) == some '#' then discard (takeWhile isPrintable)

/-- The end of a line, with a comment before it or not. -/
def finishLine : Read Unit := do
  skipBlanks
  skipComment
  if !(← get).isEmpty && !(← acceptLineEnd) then fail "expected newline, `#`"

/-- Past blanks, comments and line ends. -/
def skipLines : Nat → Read Unit
  | 0 => return
  | fuel + 1 => do
    skipBlanks
    skipComment
    if ← acceptLineEnd then skipLines fuel

/-! ## Texts -/

/-- A character by the hexadecimal digits of its code point. -/
def codePoint (width : Nat) : Read Char := do
  let digits := (← get).take width
  let code := groupedValue 16 digits
  if digits.length < width || !digits.all isHexDigit || 0x10FFFF < code ||
      (0xD800 ≤ code && code ≤ 0xDFFF) then
    fail "invalid unicode escape"
  else
    skip width
    return Char.ofNat code

/-- The character of an escape, after its backslash. -/
def escape : Read Char := do
  let letter ← peek
  skip 1
  match letter with
  | some 'b' => return Char.ofNat 0x08
  | some 't' => return '\t'
  | some 'n' => return '\n'
  | some 'f' => return Char.ofNat 0x0C
  | some 'r' => return '\r'
  | some '"' => return '"'
  | some '\\' => return '\\'
  | some 'u' => codePoint 4
  | some 'U' => codePoint 8
  | _ => fail "invalid escape sequence"

/-- The rest of a text between double quotes on one line. -/
def basicText : Nat → Read (List Char)
  | 0 => fail "invalid basic string"
  | fuel + 1 => do
    match ← get with
    | '"' :: rest => set rest; return []
    | '\\' :: rest =>
      set rest
      let c ← escape
      return c :: (← basicText fuel)
    | c :: rest =>
      if isPrintable c then
        set rest
        return c :: (← basicText fuel)
      else fail "invalid basic string"
    | [] => fail "invalid basic string"

/-- The rest of a text between single quotes on one line. -/
def literalText : Read (List Char) := do
  let text ← takeWhile fun c => isPrintable c && c != '\''
  if ← accept '\'' then return text else fail "invalid literal string"

/-- Quotes inside a text of several lines. Three end it, and up to two more in
front of those belong to it. -/
def quoteRun (quote : Char) : Read (List Char × Bool) := do
  let count := ((← get).takeWhile (· == quote)).length
  if count < 3 then
    skip count
    return (List.replicate count quote, false)
  else
    let kept := min (count - 3) 2
    skip (kept + 3)
    return (List.replicate kept quote, true)

/-- Past blanks and line ends. -/
def skipBlankLines : Nat → Read Unit
  | 0 => return
  | fuel + 1 => do
    skipBlanks
    if ← acceptLineEnd then skipBlankLines fuel

/-- Past the line ends that a backslash joins, if it is the last mark of its line. -/
def acceptJoin : Read Bool := do
  let before ← get
  skipBlanks
  if ← acceptLineEnd then
    skipBlankLines before.length
    return true
  else
    set before
    return false

/-- The rest of a text of several lines. -/
def multilineText (quote : Char) : Nat → Read (List Char)
  | 0 => fail "invalid multiline string"
  | fuel + 1 => do
    if (← peek) == some quote then
      let (quotes, closed) ← quoteRun quote
      if closed then return quotes else return quotes ++ (← multilineText quote fuel)
    else if ← acceptLineEnd then
      return '\n' :: (← multilineText quote fuel)
    else
      match ← get with
      | [] => fail "invalid multiline string"
      | c :: rest =>
        if c == '\\' && quote == '"' then
          set rest
          if ← acceptJoin then multilineText quote fuel
          else
            let c ← escape
            return c :: (← multilineText quote fuel)
        else if isPrintable c then
          set rest
          return c :: (← multilineText quote fuel)
        else fail "invalid multiline string"

/-- A text, which is next; keys have one line only. -/
def quotedText (quote : Char) (mayHaveLines : Bool) : Read String := do
  let fuel := (← get).length + 1
  if mayHaveLines && (← startsWith [quote, quote, quote]) then
    skip 3
    discard acceptLineEnd
    return String.ofList (← multilineText quote fuel)
  else
    skip 1
    return String.ofList (← if quote == '"' then basicText fuel else literalText)

/-! ## Keys -/

def isKeyChar (c : Char) : Bool := c.isAlphanum || c == '_' || c == '-'

def simpleKey : Read String := do
  match ← peek with
  | some '"' => quotedText '"' false
  | some '\'' => quotedText '\'' false
  | _ =>
    let name ← takeWhile isKeyChar
    if name.isEmpty then fail "invalid key" else return String.ofList name

/-- A key with its dotted parts. -/
def dottedKey : Nat → Read (List String)
  | 0 => fail "recursion limit exceeded"
  | fuel + 1 => do
    skipBlanks
    let part ← simpleKey
    skipBlanks
    if ← accept '.' then return part :: (← dottedKey fuel) else return [part]

/-- The limit on the parts of a key and on nested values. -/
def nestingLimit : Nat := 79

/-- The parts of a key before the last one, and the last one. -/
def key : Read (List String × String) := do
  let parts ← dottedKey nestingLimit
  return (parts.dropLast, parts.getLast?.getD "")

/-! ## Values -/

def isWordChar (c : Char) : Bool := c.isAlphanum || "_+-.:".toList.contains c

/-- A word that is no text: a truth value, a number, a date or a time. A date
may be followed by a blank and a time. -/
def word : Read Value := do
  let first ← takeWhile isWordChar
  let first ←
    if dropDate? first == some [] && (← peek) == some ' ' &&
        ((fixedNumber? 2 0 23 ((← get).drop 1)).bind fun (_, rest) =>
          dropMark? (· == ':') rest).isSome then do
      skip 1
      pure (first ++ ' ' :: (← takeWhile isWordChar))
    else pure first
  match String.ofList first with
  | "true" => return .boolean true
  | "false" => return .boolean false
  | _ =>
    if isInteger first || isFloat first || isDateTime first then return .other
    else fail "invalid value"

mutual

/-- A value, with as many more levels inside as given by `depth`. -/
def value : Nat → Nat → Read Value
  | _, 0 => fail "recursion limit exceeded"
  | depth, fuel + 1 => do
    match ← peek with
    | some '"' => return .string (← quotedText '"' true)
    | some '\'' => return .string (← quotedText '\'' true)
    | some '[' =>
      skip 1
      if depth = 0 then fail "recursion limit exceeded"
      return .array (← arrayItems (depth - 1) fuel)
    | some '\x7b' =>
      skip 1
      if depth = 0 then fail "recursion limit exceeded"
      skipBlanks
      if ← accept '\x7d' then return .inlineTable false []
      else return .inlineTable false (← inlineEntries (depth - 1) fuel [])
    | _ => word

/-- The rest of an array; a comma may follow the last item. -/
def arrayItems : Nat → Nat → Read (List Value)
  | _, 0 => fail "invalid array"
  | depth, fuel + 1 => do
    skipLines ((← get).length + 1)
    if ← accept ']' then return []
    else
      let item ← value depth fuel
      skipLines ((← get).length + 1)
      if ← accept ',' then return item :: (← arrayItems depth fuel)
      else
        expect ']'
        return [item]

/-- The rest of an inline table after some entries; it stays on one line. -/
def inlineEntries : Nat → Nat → List (String × Value) → Read (List (String × Value))
  | _, 0, _ => fail "invalid inline table"
  | depth, fuel + 1, entries => do
    let (path, name) ← key
    expect '='
    skipBlanks
    let item ← value depth fuel
    skipBlanks
    let entries ← insertInline item name path entries
    if ← accept ',' then inlineEntries depth fuel entries
    else
      expect '\x7d'
      return entries

end

/-! ## Lines -/

/-- The lines from here on, given the header before them and the table so far. -/
def lines : Nat → List String → Level → Read Level
  | 0, _, root => return root
  | fuel + 1, header, root => do
    skipBlanks
    match ← get with
    | [] => return root
    | '#' :: _ => finishLine; lines fuel header root
    | '[' :: '[' :: rest =>
      set rest
      let (path, name) ← key
      expect ']'
      expect ']'
      finishLine
      lines fuel (path ++ [name]) (← openArrayTable path name root)
    | '[' :: rest =>
      set rest
      let (path, name) ← key
      expect ']'
      finishLine
      lines fuel (path ++ [name]) (← openTable path name root)
    | _ =>
      if ← acceptLineEnd then lines fuel header root
      else
        let (path, name) ← key
        expect '='
        skipBlanks
        let item ← value nestingLimit ((← get).length + 1)
        finishLine
        lines fuel header (← addSetting header path name item root)

end Read

/-- The table that a text describes, or the date that the table stands for. A
byte order mark may precede it. -/
def Value.ofText (text : String) : Except String Value := do
  let chars := text.toList
  let chars := if chars.head? == some (Char.ofNat 0xFEFF) then chars.drop 1 else chars
  let (root, _) ← (Read.lines (chars.length + 1) [] ⟨.explicit, []⟩).run chars
  (Value.table root.kind root.entries).withDates

end TrackingPlan.Toml
