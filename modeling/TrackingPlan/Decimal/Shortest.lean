import TrackingPlan.Decimal.Binary64

/-!
# Shortest decimals

The decimal text of a floating point number has the fewest digits that read
back as the same number, and of those the digits nearest to it. It is always
positional, and a whole number has no point.
-/

namespace TrackingPlan.Binary64

/-- A decimal number `digits * 10 ^ exponent`. -/
structure Decimal where
  digits : Nat
  exponent : Int
  deriving DecidableEq, Repr, Inhabited

/-- The real numbers that round to one floating point number, as multiples of
`2 ^ exponent`; the ends belong to it when `closed` holds. -/
structure RoundingInterval where
  low : Nat
  value : Nat
  high : Nat
  exponent : Int
  closed : Bool

/-- Below a power of two the neighbours are twice as dense as above it. -/
def roundingInterval (mantissa : Nat) (exponent : Int) : RoundingInterval where
  low := 4 * mantissa -
    (if mantissa = 0x10000000000000 ∧ leastExponent < exponent then 1 else 2)
  value := 4 * mantissa
  high := 4 * mantissa + 2
  exponent := exponent - 2
  closed := mantissa % 2 = 0

/-- The greatest `k` with `10 ^ k ≤ numerator / denominator`, for positive arguments. -/
def decimalOrder (numerator denominator : Nat) : Int :=
  if denominator ≤ numerator then
    (Nat.toDigits 10 (numerator / denominator)).length - 1
  else
    let width := (Nat.toDigits 10 (denominator / numerator)).length
    if numerator * Nat.pow 10 (width - 1) = denominator then -((width : Int) - 1)
    else -(width : Int)

/-- The point of a decimal grid that stands for the number: one of its two
neighbours on the grid `10 ^ exponent` that lies in the interval, the nearer
of two, and the upper one when both are equally near. -/
def gridPoint? (interval : RoundingInterval) (exponent : Int) : Option Nat :=
  let (unit, step) : Nat × Nat :=
    if 0 ≤ exponent then (1, Nat.pow 10 exponent.toNat) else (Nat.pow 10 (-exponent).toNat, 1)
  let (unit, step) : Nat × Nat :=
    if 0 ≤ interval.exponent then (unit * Nat.pow 2 interval.exponent.toNat, step)
    else (unit, step * Nat.pow 2 (-interval.exponent).toNat)
  let below := interval.value * unit / step
  let above := below + 1
  let rest := interval.value * unit % step
  let belowIn :=
    if interval.closed then interval.low * unit ≤ below * step
    else interval.low * unit < below * step
  let aboveIn :=
    if interval.closed then above * step ≤ interval.high * unit
    else above * step < interval.high * unit
  if belowIn ∧ aboveIn then some (if 2 * rest < step then below else above)
  else if belowIn then some below
  else if aboveIn then some above
  else none

/-- The first grid with a point for the number, from the coarsest one on. A
point that rounds up to the next power of ten is that power. -/
def shortestFrom (interval : RoundingInterval) (order : Int) : Nat → Nat → Decimal
  | 0, digits => ⟨0, order - digits⟩
  | fuel + 1, digits =>
    let exponent := order + 1 - digits
    match gridPoint? interval exponent with
    | some point => if point = Nat.pow 10 digits then ⟨1, order + 1⟩ else ⟨point, exponent⟩
    | none => shortestFrom interval order fuel (digits + 1)

/-- Seventeen digits tell all numbers of the format apart. -/
def shortest (mantissa : Nat) (exponent : Int) : Decimal :=
  let interval := roundingInterval mantissa exponent
  let (n, d) := scaleDown mantissa 1 (-exponent)
  shortestFrom interval (decimalOrder n d) 17 1

/-- Positional notation, without a point for whole numbers. -/
def Decimal.toText (decimal : Decimal) : String :=
  let digits := Nat.toDigits 10 decimal.digits
  if 0 ≤ decimal.exponent then
    String.ofList (digits ++ List.replicate decimal.exponent.toNat '0')
  else
    let places := (-decimal.exponent).toNat
    let padded := List.replicate (places + 1 - digits.length) '0' ++ digits
    let whole := padded.length - places
    String.ofList (padded.take whole ++ '.' :: padded.drop whole)

/-- The text of a number: its shortest decimal, or a name for infinity and NaN. -/
def toText : Binary64 → String
  | nan => "NaN"
  | infinite negative => if negative then "-inf" else "inf"
  | finite negative mantissa exponent =>
    let unsigned := if mantissa = 0 then "0" else (shortest mantissa exponent).toText
    if negative then "-" ++ unsigned else unsigned

end TrackingPlan.Binary64
