import TrackingPlan.Decimal.Binary64

/-!
# Numbers, dates and times

What a word that is neither a text nor a truth value may be. Digits may be
grouped by single underscores; whole numbers fit 64 bits with a sign, and a
number may not be too large to be finite, unless it is negative.
-/

namespace TrackingPlan.Toml

def isHexDigit (c : Char) : Bool :=
  c.isDigit || ('a' ≤ c && c ≤ 'f') || ('A' ≤ c && c ≤ 'F')

def hexValue (c : Char) : Nat :=
  if c.isDigit then c.toNat - '0'.toNat
  else if 'a' ≤ c then c.toNat - 'a'.toNat + 10
  else c.toNat - 'A'.toNat + 10

/-- The value of digits in a base up to sixteen, underscores left out. -/
def groupedValue (base : Nat) (digits : List Char) : Nat :=
  (digits.filter (· != '_')).foldl (fun value c => value * base + hexValue c) 0

/-- Digits after a first one: an underscore stands only between two of them. -/
def isGroupedRest (isDigit : Char → Bool) : List Char → Bool
  | [] => true
  | '_' :: c :: rest => isDigit c && isGroupedRest isDigit rest
  | c :: rest => isDigit c && isGroupedRest isDigit rest

def isGrouped (isDigit : Char → Bool) : List Char → Bool
  | [] => false
  | c :: rest => isDigit c && isGroupedRest isDigit rest

def dropSign : List Char → Bool × List Char
  | '-' :: rest => (true, rest)
  | '+' :: rest => (false, rest)
  | word => (false, word)

/-- Decimal digits without a leading zero, underscores allowed. -/
def isWhole (digits : List Char) : Bool :=
  isGrouped Char.isDigit digits && (digits.head? != some '0' || digits.length == 1)

/-- One more than the greatest whole number. -/
def integerBound : Nat := 0x8000000000000000

def isInteger (word : List Char) : Bool :=
  match word with
  | '0' :: 'x' :: digits => isGrouped isHexDigit digits && groupedValue 16 digits < integerBound
  | '0' :: 'o' :: digits =>
    isGrouped (fun c => '0' ≤ c && c ≤ '7') digits && groupedValue 8 digits < integerBound
  | '0' :: 'b' :: digits =>
    isGrouped (fun c => c == '0' || c == '1') digits && groupedValue 2 digits < integerBound
  | _ =>
    let (negative, digits) := dropSign word
    isWhole digits && groupedValue 10 digits < integerBound + (if negative then 1 else 0)

/-- Whether digits end in an exponent, or in nothing if that is allowed. -/
def isExponent : List Char → Bool
  | mark :: rest => (mark == 'e' || mark == 'E') && isGrouped Char.isDigit (dropSign rest).2
  | [] => false

def isFloat (word : List Char) : Bool :=
  let (_, unsigned) := dropSign word
  if unsigned == "inf".toList || unsigned == "nan".toList then true
  else
    let isPart (c : Char) : Bool := c.isDigit || c == '_'
    let whole := unsigned.takeWhile isPart
    let wellFormed := isWhole whole && match unsigned.dropWhile isPart with
      | '.' :: rest =>
        let exponent := rest.dropWhile isPart
        isGrouped Char.isDigit (rest.takeWhile isPart) && (exponent.isEmpty || isExponent exponent)
      | exponent => isExponent exponent
    wellFormed &&
      Binary64.ofText? (String.ofList (word.filter (· != '_'))) != some (.infinite false)

/-- A number of exactly that many digits between two bounds, and the rest. -/
def fixedNumber? (width least greatest : Nat) (word : List Char) : Option (Nat × List Char) :=
  let digits := word.take width
  let value := groupedValue 10 digits
  if digits.length = width && digits.all Char.isDigit && least ≤ value && value ≤ greatest then
    some (value, word.drop width)
  else none

def isLeapYear (year : Nat) : Bool := year % 4 == 0 && (year % 100 != 0 || year % 400 == 0)

def daysInMonth (year month : Nat) : Nat :=
  if month = 2 then if isLeapYear year then 29 else 28
  else if [4, 6, 9, 11].contains month then 30
  else 31

/-- The rest of a word after a mark. -/
def dropMark? (isMark : Char → Bool) : List Char → Option (List Char)
  | c :: rest => if isMark c then some rest else none
  | [] => none

/-- The rest of a word after a date. -/
def dropDate? (word : List Char) : Option (List Char) := do
  let (year, rest) ← fixedNumber? 4 0 9999 word
  let (month, rest) ← fixedNumber? 2 1 12 (← dropMark? (· == '-') rest)
  let (_, rest) ← fixedNumber? 2 1 (daysInMonth year month) (← dropMark? (· == '-') rest)
  return rest

/-- The rest of a word after a time of day. -/
def dropTime? (greatestHour : Nat) (word : List Char) : Option (List Char) := do
  let (_, rest) ← fixedNumber? 2 0 greatestHour word
  let (_, rest) ← fixedNumber? 2 0 59 (← dropMark? (· == ':') rest)
  let (_, rest) ← fixedNumber? 2 0 60 (← dropMark? (· == ':') rest)
  match rest with
  | '.' :: fraction =>
    let digits := fraction.takeWhile Char.isDigit
    if digits.isEmpty then none else return fraction.drop digits.length
  | rest => return rest

/-- Nothing, the mark of an offset of zero, or a signed offset whose hours and
minutes satisfy the test. -/
def isOffset (isPermitted : Nat → Nat → Bool) : List Char → Bool
  | [] => true
  | [c] => c == 'Z' || c == 'z'
  | sign :: rest =>
    (sign == '+' || sign == '-') && ((do
      let (hours, rest) ← fixedNumber? 2 0 99 rest
      let (minutes, rest) ← fixedNumber? 2 0 99 (← dropMark? (· == ':') rest)
      return rest.isEmpty && isPermitted hours minutes).getD false)

/-- How far the parts of a time go. -/
structure ClockRange where
  greatestHour : Nat
  isOffset : Nat → Nat → Bool

/-- A date, a time, or both with or without an offset. -/
def isDateTimeIn (range : ClockRange) (word : List Char) : Bool :=
  match dropDate? word with
  | some [] => true
  | some rest =>
    match dropMark? (fun c => c == 'T' || c == 't' || c == ' ') rest >>=
        dropTime? range.greatestHour with
    | some offset => isOffset range.isOffset offset
    | none => false
  | none => dropTime? range.greatestHour word == some []

/-- A date, a time, or both as they stand for themselves. -/
def isDateTime (word : List Char) : Bool :=
  isDateTimeIn ⟨23, fun hours minutes => hours ≤ 23 && minutes ≤ 59⟩ word

/-- A date, a time, or both inside of a text. The hour may be 24, and the offset
goes up to a day whatever its minutes are. -/
def isQuotedDateTime (word : List Char) : Bool :=
  isDateTimeIn ⟨24, fun hours minutes => hours * 60 + minutes ≤ 24 * 60⟩ word

end TrackingPlan.Toml
