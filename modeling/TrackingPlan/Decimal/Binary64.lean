/-!
# Binary floating point by value

A number of the 64-bit binary format is kept as its sign, mantissa and exponent
instead of as a machine word, so that rounding and comparison are exact
arithmetic on `Nat`. The canonical form has a mantissa below `2 ^ 53`, and
either a mantissa of at least `2 ^ 52` or the least exponent.
-/

namespace TrackingPlan

/-- A value of the 64-bit binary floating point format. The two zeros are
different values; all NaNs are one. -/
inductive Binary64 where
  | finite (negative : Bool) (mantissa : Nat) (exponent : Int)
  | infinite (negative : Bool)
  | nan
  deriving DecidableEq, Repr, Inhabited

namespace Binary64

/-- The exponent of the numbers nearest to zero. -/
def leastExponent : Int := -1074

/-- The exponent of the numbers farthest from zero. -/
def greatestExponent : Int := 971

def isFinite : Binary64 → Bool
  | finite .. => true
  | _ => false

/-- The quotient rounded to the nearest integer, a half to the even neighbour. -/
def roundHalfEven (numerator denominator : Nat) : Nat :=
  let quotient := numerator / denominator
  let remainder := numerator % denominator
  if 2 * remainder < denominator then quotient
  else if denominator < 2 * remainder then quotient + 1
  else quotient + quotient % 2

/-- The ratio `numerator / denominator / 2 ^ exponent` with a numerator and a
denominator in `Nat`. -/
def scaleDown (numerator denominator : Nat) (exponent : Int) : Nat × Nat :=
  if 0 ≤ exponent then (numerator, denominator * Nat.pow 2 exponent.toNat)
  else (numerator * Nat.pow 2 (-exponent).toNat, denominator)

/-- The greatest `e` with `2 ^ e ≤ numerator / denominator`, for positive arguments. -/
def binaryOrder (numerator denominator : Nat) : Int :=
  let estimate : Int := (numerator.log2 : Int) - denominator.log2
  let (n, d) := scaleDown numerator denominator estimate
  if d ≤ n then estimate else estimate - 1

/-- The nearest number to `numerator / denominator`; a number past the greatest
one rounds to infinity. -/
def ofRatio (negative : Bool) (numerator denominator : Nat) : Binary64 :=
  if numerator = 0 then finite negative 0 leastExponent
  else
    let exponent := max leastExponent (binaryOrder numerator denominator - 52)
    let (n, d) := scaleDown numerator denominator exponent
    let mantissa := roundHalfEven n d
    let (mantissa, exponent) :=
      if mantissa = 0x20000000000000 then (0x10000000000000, exponent + 1) else (mantissa, exponent)
    if greatestExponent < exponent then infinite negative
    else finite negative mantissa exponent

def ofInt (value : Int) : Binary64 := ofRatio (value < 0) value.natAbs 1

/-- The nearest number to `digits * 10 ^ exponent`. Orders of magnitude outside
the format's range are decided without computing the power. -/
def ofDecimal (negative : Bool) (digits : Nat) (exponent : Int) : Binary64 :=
  if digits = 0 then ofRatio negative 0 1
  else
    let order := (Nat.toDigits 10 digits).length + exponent
    if 310 < order then infinite negative
    else if order < -330 then ofRatio negative 0 1
    else if 0 ≤ exponent then ofRatio negative (digits * Nat.pow 10 exponent.toNat) 1
    else ofRatio negative digits (Nat.pow 10 (-exponent).toNat)

/-- The value of a run of decimal digits. -/
def digitsValue (digits : List Char) : Nat :=
  digits.foldl (fun value digit => value * 10 + (digit.toNat - '0'.toNat)) 0

/-- The exponent part of a numeral, `0` when there is none. -/
def readExponent? : List Char → Option Int
  | [] => some 0
  | mark :: rest =>
    if mark = 'e' ∨ mark = 'E' then
      let (negative, digits) : Bool × List Char :=
        match rest with
        | '-' :: digits => (true, digits)
        | '+' :: digits => (false, digits)
        | digits => (false, digits)
      if digits ≠ [] ∧ digits.all Char.isDigit then
        some (if negative then -(digitsValue digits : Int) else digitsValue digits)
      else none
    else none

/-- An unsigned decimal numeral: digits with an optional point, at least one
digit, and an optional exponent. -/
def readUnsigned? (negative : Bool) (text : List Char) : Option Binary64 :=
  let whole := text.takeWhile Char.isDigit
  let rest := text.dropWhile Char.isDigit
  let (fraction, rest) :=
    match rest with
    | '.' :: rest => (rest.takeWhile Char.isDigit, rest.dropWhile Char.isDigit)
    | rest => ([], rest)
  if whole = [] ∧ fraction = [] then none
  else (readExponent? rest).map fun exponent =>
    ofDecimal negative (digitsValue (whole ++ fraction)) (exponent - fraction.length)

/-- A signed numeral, or a name of infinity or of NaN in either case. -/
def ofText? (text : String) : Option Binary64 :=
  let (negative, unsigned) : Bool × List Char :=
    match text.toList with
    | '-' :: rest => (true, rest)
    | '+' :: rest => (false, rest)
    | rest => (false, rest)
  let name := String.ofList (unsigned.map Char.toLower)
  if name = "inf" ∨ name = "infinity" then some (infinite negative)
  else if name = "nan" then some nan
  else readUnsigned? negative unsigned

end Binary64

end TrackingPlan
