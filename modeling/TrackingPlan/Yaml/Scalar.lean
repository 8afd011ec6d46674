import TrackingPlan.Decimal.Binary64

/-!
# Scalars without a declared type

A plain scalar is null, a truth value, a number or else a text. Digits behind a
leading zero are a text, and so is a number too large to be finite.
-/

namespace TrackingPlan.Yaml

inductive Scalar where
  | null
  | boolean (value : Bool)
  /-- A whole number that fits 64 bits, signed or unsigned. -/
  | integer (value : Int)
  | real (value : Binary64)
  | string (value : String)
  deriving DecidableEq, Repr, Inhabited

namespace Scalar

def isNull (text : String) : Bool := ["null", "Null", "NULL", "~"].contains text

def boolean? (text : String) : Option Bool :=
  if ["true", "True", "TRUE"].contains text then some true
  else if ["false", "False", "FALSE"].contains text then some false
  else none

/-- The text without one sign, and whether the sign was a minus. -/
def splitSign : List Char → Bool × List Char
  | '-' :: rest => (true, rest)
  | '+' :: rest => (false, rest)
  | text => (false, text)

/-- Digits that are no number because of a leading zero. -/
def hasLeadingZero (text : List Char) : Bool :=
  match (splitSign text).2 with
  | '0' :: next :: rest => (next :: rest).all Char.isDigit
  | _ => false

/-- The value of a digit in a base up to sixteen. -/
def digit? (base : Nat) (c : Char) : Option Nat :=
  let value? : Option Nat :=
    if c.isDigit then some (c.toNat - '0'.toNat)
    else if 'a' ≤ c ∧ c ≤ 'f' then some (c.toNat - 'a'.toNat + 10)
    else if 'A' ≤ c ∧ c ≤ 'F' then some (c.toNat - 'A'.toNat + 10)
    else none
  value?.filter (· < base)

/-- The value of one or more digits. -/
def natural? (base : Nat) : List Char → Option Nat
  | [] => none
  | digits => digits.foldlM (fun value c => (digit? base c).map (value * base + ·)) 0

/-- A whole number of any size: decimal, or in base 16, 8 or 2 behind a mark. -/
def whole? (text : List Char) : Option Int :=
  let (negative, body) := splitSign text
  let value? := match body with
    | '0' :: 'x' :: digits => natural? 16 digits
    | '0' :: 'o' :: digits => natural? 8 digits
    | '0' :: 'b' :: digits => natural? 2 digits
    | digits => if hasLeadingZero text then none else natural? 10 digits
  value?.map fun value => if negative then -(value : Int) else value

def fits64 (value : Int) : Bool := -0x8000000000000000 ≤ value && value < 0x10000000000000000

def fits128 (value : Int) : Bool :=
  -0x80000000000000000000000000000000 ≤ value && value < 0x100000000000000000000000000000000

/-- A finite decimal number, or one of the names of infinity and NaN. -/
def real? (text : String) : Option Binary64 :=
  let (explicit, unsigned) : Bool × List Char :=
    match text.toList with
    | '+' :: rest => (true, rest)
    | rest => (false, rest)
  if explicit && (unsigned.head? == some '+' || unsigned.head? == some '-') then none
  else if [".inf", ".Inf", ".INF"].contains (String.ofList unsigned) then some (.infinite false)
  else if ["-.inf", "-.Inf", "-.INF"].contains text then some (.infinite true)
  else if [".nan", ".NaN", ".NAN"].contains text then some .nan
  else (Binary64.ofText? (String.ofList unsigned)).filter Binary64.isFinite

/-- What a plain scalar stands for. A whole number of more than 64 bits that
fits 128 stands for nothing; a larger one is taken as a real number. -/
def ofPlain? (text : String) : Option Scalar :=
  if text.isEmpty || isNull text then some null
  else
    match boolean? text with
    | some value => some (boolean value)
    | none =>
      let real := match real? text with
        | some value => if hasLeadingZero text.toList then string text else real value
        | none => string text
      match whole? text.toList with
      | some value =>
        if fits64 value then some (integer value)
        else if fits128 value then none
        else some real
      | none => some real

end Scalar

end TrackingPlan.Yaml
