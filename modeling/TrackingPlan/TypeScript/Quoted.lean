/-!
# Quoted text

Text inside a double-quoted literal, and names as property keys. No control
character and no line separator stands in a literal as itself.
-/

namespace TrackingPlan.TypeScript

/-- The lowercase hexadecimal digit of a number below sixteen. -/
def hexDigit (digit : Nat) : Char :=
  if digit < 10 then Char.ofNat ('0'.toNat + digit) else Char.ofNat ('a'.toNat + (digit - 10))

/-- An escape by code point; only for characters below `0x10000`. -/
def unicodeEscape (c : Char) : List Char :=
  let code := c.toNat
  ['\\', 'u', hexDigit (code / 4096 % 16), hexDigit (code / 256 % 16),
    hexDigit (code / 16 % 16), hexDigit (code % 16)]

def isControl (c : Char) : Bool :=
  c.toNat < 0x20 || c.toNat == 0x7F

/-- The two characters beyond ASCII that end a line of a program. -/
def isLineSeparator (c : Char) : Bool :=
  c.toNat == 0x2028 || c.toNat == 0x2029

def escapeChar (c : Char) : List Char :=
  if c = '\\' then ['\\', '\\']
  else if c = '"' then ['\\', '"']
  else if c = '\n' then ['\\', 'n']
  else if c = '\r' then ['\\', 'r']
  else if c = '\t' then ['\\', 't']
  else if isControl c || isLineSeparator c then unicodeEscape c
  else [c]

/-- What stands between the quotes of a literal. -/
def escape (text : String) : String :=
  String.ofList (text.toList.flatMap escapeChar)

def quote (text : String) : String := "\"" ++ escape text ++ "\""

def isIdentifierStart (c : Char) : Bool := c.isAlpha || c == '_' || c == '$'

def isIdentifierPart (c : Char) : Bool := c.isAlphanum || c == '_' || c == '$'

/-- An identifier of ASCII characters; keywords count. -/
def isIdentifier (name : String) : Bool :=
  match name.toList with
  | [] => false
  | first :: rest => isIdentifierStart first && rest.all isIdentifierPart

/-- A property key: the bare name where that is an identifier. -/
def key (name : String) : String :=
  if isIdentifier name then name else quote name

end TrackingPlan.TypeScript
