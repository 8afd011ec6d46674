import TrackingPlan.Decimal.Shortest

/-!
# Literals

The values that can stand in a list of allowed values, in a constant and in
generated code. Whole numbers of 64 bits are kept exactly.
-/

namespace TrackingPlan

inductive Literal where
  | string (value : String)
  | integer (value : Int64)
  | float (value : Binary64)
  | boolean (value : Bool)
  deriving DecidableEq, Repr, Inhabited

/-- One more than the greatest whole number of 64 bits with a sign. -/
def Literal.integerBound : Int := 0x8000000000000000

end TrackingPlan
