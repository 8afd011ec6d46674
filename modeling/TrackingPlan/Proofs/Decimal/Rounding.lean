import TrackingPlan.Proofs.Decimal.Numerals

/-!
# Rounding to the format

A ratio is scaled down until its whole part has 53 bits, so that the mantissa it
is rounded to fits the format. Whole numbers of 64 bits do not come near the
greatest exponent.
-/

namespace TrackingPlan.Binary64

theorem lt_zpow_binaryOrder (numerator : Nat) {denominator : Nat} (hdenominator : 0 < denominator) :
    (numerator : ℚ) / denominator < 2 ^ (binaryOrder numerator denominator + 1) := by
  have hpositive : (0 : ℚ) < denominator := Nat.cast_pos.mpr hdenominator
  have hnumerator : (numerator : ℚ) < 2 ^ ((numerator.log2 : Int) + 1) := by
    exact_mod_cast Nat.lt_log2_self
  have hlog : (2 : ℚ) ^ (denominator.log2 : Int) ≤ denominator := by
    exact_mod_cast Nat.log2_self_le hdenominator.ne'
  unfold binaryOrder
  dsimp only
  generalize hestimate : (numerator.log2 : Int) - denominator.log2 = estimate
  have hratio := scaleDown_ratio numerator hdenominator estimate
  split
  next hle =>
    have hsplit : (2 : ℚ) ^ ((numerator.log2 : Int) + 1) =
        2 ^ (estimate + 1) * 2 ^ (denominator.log2 : Int) := by
      rw [← zpow_add₀ two_ne_zero]
      congr 1
      omega
    rw [div_lt_iff₀ hpositive]
    calc (numerator : ℚ) < 2 ^ (estimate + 1) * 2 ^ (denominator.log2 : Int) := hsplit ▸ hnumerator
      _ ≤ 2 ^ (estimate + 1) * denominator := by gcongr
  next hlt =>
    have hscaled : ((scaleDown numerator denominator estimate).1 : ℚ) /
        (scaleDown numerator denominator estimate).2 < 1 := by
      rw [Nat.not_le] at hlt
      rw [div_lt_one (Nat.cast_pos.mpr (Nat.zero_lt_of_lt hlt))]
      exact_mod_cast hlt
    rw [hratio, zpow_neg, mul_inv_lt_iff₀ (by positivity), one_mul] at hscaled
    rwa [sub_add_cancel]

/-- Rounding does not go past a whole number above the ratio. -/
theorem roundHalfEven_le {numerator denominator bound : Nat} (hdenominator : 0 < denominator)
    (hlt : numerator < bound * denominator) : roundHalfEven numerator denominator ≤ bound := by
  have hquotient := (Nat.div_lt_iff_lt_mul hdenominator).mpr hlt
  have hparity := Nat.mod_lt (numerator / denominator) (by decide : 0 < 2)
  unfold roundHalfEven
  dsimp only
  split
  · omega
  · split <;> omega

/-- A ratio that is scaled down far enough has a whole part of 53 bits. -/
theorem scaleDown_lt {numerator denominator : Nat} (hnumerator : 0 < numerator)
    (hdenominator : 0 < denominator) {exponent : Int}
    (hexponent : binaryOrder numerator denominator - 52 ≤ exponent) :
    (scaleDown numerator denominator exponent).1 <
      0x20000000000000 * (scaleDown numerator denominator exponent).2 := by
  have hscaled := scaleDown_ratio numerator hdenominator exponent
  have hpositive := (scaleDown_pos hnumerator hdenominator exponent).2
  have hpower : (2 : ℚ) ^ (binaryOrder numerator denominator + 1) ≤
      2 ^ (53 : Int) * 2 ^ exponent := by
    rw [← zpow_add₀ two_ne_zero]
    exact zpow_le_zpow_right₀ one_le_two (by omega)
  have hlt : ((scaleDown numerator denominator exponent).1 : ℚ) /
      (scaleDown numerator denominator exponent).2 < 2 ^ (53 : Int) := by
    rw [hscaled, zpow_neg, mul_inv_lt_iff₀ (by positivity)]
    exact (lt_zpow_binaryOrder numerator hdenominator).trans_le hpower
  rw [div_lt_iff₀ (Nat.cast_pos.mpr hpositive)] at hlt
  exact_mod_cast hlt

/-- A ratio below the greatest numbers of the format is rounded to a number of the format. -/
theorem isNumber_ofRatio (negative : Bool) {numerator denominator : Nat}
    (hdenominator : 0 < denominator) (horder : binaryOrder numerator denominator ≤ 1022) :
    (ofRatio negative numerator denominator).IsNumber := by
  by_cases hzero : numerator = 0
  · rw [ofRatio, if_pos hzero]
    exact (by decide : 0 < 0x20000000000000)
  have hnumerator := Nat.pos_of_ne_zero hzero
  rw [ofRatio, if_neg hzero]
  dsimp only
  generalize hexponent : max leastExponent (binaryOrder numerator denominator - 52) = exponent
  have hpositive := (scaleDown_pos hnumerator hdenominator exponent).2
  have hmantissa := roundHalfEven_le hpositive
    (scaleDown_lt hnumerator hdenominator (by omega : _ ≤ exponent))
  unfold leastExponent at hexponent
  unfold greatestExponent
  split
  next hfull =>
    rw [if_neg (by omega)]
    exact (by decide : 0x10000000000000 < 0x20000000000000)
  next hfull =>
    rw [if_neg (by omega)]
    exact Nat.lt_of_le_of_ne hmantissa hfull

/-- Whole numbers of 64 bits are in the range of the format. -/
theorem isNumber_ofInt {value : Int} (hvalue : value.natAbs < 0x10000000000000000) :
    (ofInt value).IsNumber := by
  refine isNumber_ofRatio _ Nat.one_pos ?_
  have hlog : value.natAbs.log2 ≤ 64 := by
    by_cases hzero : value.natAbs = 0
    · rw [hzero]
      decide
    · exact ((Nat.log2_lt hzero).mpr hvalue).le
  unfold binaryOrder
  have hone : Nat.log2 1 = 0 := by decide
  dsimp only
  rw [hone]
  split <;> omega

end TrackingPlan.Binary64
