import Mathlib.Algebra.Order.Field.Power
import Mathlib.Data.Nat.Cast.Order.Field
import Mathlib.Tactic.FieldSimp
import Mathlib.Tactic.Linarith
import Mathlib.Tactic.Positivity
import Mathlib.Tactic.Ring
import TrackingPlan.Decimal.Shortest

/-!
# Shortest decimals are found

The search for a shortest decimal ends at one of seventeen grids, because the
last of them is finer than the interval of any number is wide. No point that it
finds is zero.
-/

namespace TrackingPlan.Binary64

section Order

theorem pow_length_toDigits_le {n : Nat} (hn : 0 < n) :
    10 ^ ((Nat.toDigits 10 n).length - 1) ≤ n := by
  by_cases hlength : (Nat.toDigits 10 n).length - 1 = 0
  · rw [hlength]
    exact hn
  · by_contra hlt
    have hle := (Nat.length_toDigits_le_iff (by decide) (Nat.pos_of_ne_zero hlength)).mpr
      (Nat.not_le.mp hlt)
    omega

theorem lt_pow_length_toDigits (n : Nat) : n < 10 ^ (Nat.toDigits 10 n).length :=
  (Nat.length_toDigits_le_iff (by decide) Nat.length_toDigits_pos).mp le_rfl

/-- The order of magnitude of a ratio does not exceed the ratio. -/
theorem zpow_decimalOrder_le {numerator denominator : Nat} (hnumerator : 0 < numerator)
    (hdenominator : 0 < denominator) :
    (10 : ℚ) ^ decimalOrder numerator denominator ≤ numerator / denominator := by
  have hd : (0 : ℚ) < denominator := Nat.cast_pos.mpr hdenominator
  unfold decimalOrder
  split
  next hle =>
    have hlength : 0 < (Nat.toDigits 10 (numerator / denominator)).length :=
      Nat.length_toDigits_pos
    obtain ⟨length, heq⟩ := Nat.exists_eq_succ_of_ne_zero hlength.ne'
    have hpow := pow_length_toDigits_le (Nat.div_pos hle hdenominator)
    rw [heq, Nat.succ_sub_one] at hpow
    have hexponent : ((length.succ : Nat) : Int) - 1 = (length : Nat) := by omega
    rw [heq, hexponent, zpow_natCast]
    calc (10 : ℚ) ^ length = ((10 ^ length : Nat) : ℚ) := by push_cast; rfl
      _ ≤ ((numerator / denominator : Nat) : ℚ) := Nat.cast_le.mpr hpow
      _ ≤ numerator / denominator := Nat.cast_div_le
  next hlt =>
    dsimp only
    have hwidth : 0 < (Nat.toDigits 10 (denominator / numerator)).length :=
      Nat.length_toDigits_pos
    obtain ⟨width, heq⟩ := Nat.exists_eq_succ_of_ne_zero hwidth.ne'
    rw [heq, Nat.succ_sub_one]
    split
    next hexact =>
      have hexponent : -(((width.succ : Nat) : Int) - 1) = -(width : Nat) := by omega
      have hratio : (denominator : ℚ) = numerator * 10 ^ width := by
        rw [← hexact]
        exact (Nat.cast_mul _ _).trans (congrArg _ (Nat.cast_pow 10 width))
      have hn : (0 : ℚ) < numerator := Nat.cast_pos.mpr hnumerator
      rw [hexponent, zpow_neg, zpow_natCast, hratio]
      exact le_of_eq (by field_simp)
    next =>
      have hpow := lt_pow_length_toDigits (denominator / numerator)
      rw [heq, Nat.div_lt_iff_lt_mul hnumerator] at hpow
      have hcast : (denominator : ℚ) < 10 ^ width.succ * numerator := by exact_mod_cast hpow
      rw [zpow_neg, zpow_natCast, inv_eq_one_div, div_le_div_iff₀ (by positivity) hd]
      linarith

end Order

section Grid

/-- The choice among the two points next to the number, on a grid of steps in
the unit of the interval. -/
def nearestPoint? (interval : RoundingInterval) (unit step : Nat) : Option Nat :=
  let below := interval.value * unit / step
  let above := below + 1
  let rest := interval.value * unit % step
  let belowIn :=
    if interval.closed then interval.low * unit ≤ below * step
    else interval.low * unit < below * step
  let aboveIn :=
    if interval.closed then above * step ≤ interval.high * unit
    else above * step < interval.high * unit
  if belowIn ∧ aboveIn then some (if 2 * rest < step then below else above)
  else if belowIn then some below
  else if aboveIn then some above
  else none

theorem gridPoint?_eq (interval : RoundingInterval) (exponent : Int) :
    gridPoint? interval exponent =
      nearestPoint? interval (Nat.pow 10 (-exponent).toNat * Nat.pow 2 interval.exponent.toNat)
        (Nat.pow 10 exponent.toNat * Nat.pow 2 (-interval.exponent).toNat) := by
  have hnegative : ∀ exponent : Int, 0 ≤ exponent → (-exponent).toNat = 0 := by omega
  have hpositive : ∀ exponent : Int, ¬ 0 ≤ exponent → exponent.toNat = 0 := by omega
  have hone : ∀ base : Nat, Nat.pow base 0 = 1 := fun _ => rfl
  have hten : (if 0 ≤ exponent then ((1, Nat.pow 10 exponent.toNat) : Nat × Nat)
      else (Nat.pow 10 (-exponent).toNat, 1)) =
        (Nat.pow 10 (-exponent).toNat, Nat.pow 10 exponent.toNat) := by
    split
    next h => rw [hnegative _ h, hone]
    next h => rw [hpositive _ h, hone]
  have htwo : ∀ unit step : Nat,
      (if 0 ≤ interval.exponent then (unit * Nat.pow 2 interval.exponent.toNat, step)
        else (unit, step * Nat.pow 2 (-interval.exponent).toNat)) =
          (unit * Nat.pow 2 interval.exponent.toNat,
            step * Nat.pow 2 (-interval.exponent).toNat) := by
    intro unit step
    split
    next h => rw [hnegative _ h, hone, Nat.mul_one]
    next h => rw [hpositive _ h, hone, Nat.mul_one]
  unfold gridPoint?
  rw [hten]
  dsimp only
  rw [htwo]
  rfl

theorem zpow_mul_pow_toNat (base : ℚ) (hbase : base ≠ 0) (exponent : Int) :
    base ^ exponent * base ^ (-exponent).toNat = base ^ exponent.toNat := by
  rw [← zpow_natCast, ← zpow_natCast, ← zpow_add₀ hbase]
  congr 1
  omega

/-- A grid has steps of `10 ^ exponent`. -/
theorem exists_nearestPoint? (interval : RoundingInterval) (exponent : Int) :
    ∃ unit step : Nat, 0 < unit ∧ 0 < step ∧
      (step : ℚ) * 2 ^ interval.exponent = unit * 10 ^ exponent ∧
      gridPoint? interval exponent = nearestPoint? interval unit step := by
  have hpositive : ∀ first second : Nat, 0 < Nat.pow 10 first * Nat.pow 2 second :=
    fun first second => Nat.mul_pos (Nat.pow_pos (by decide)) (Nat.pow_pos (by decide))
  have hcast : ∀ base count : Nat, ((Nat.pow base count : Nat) : ℚ) = (base : ℚ) ^ count :=
    Nat.cast_pow
  have hten := zpow_mul_pow_toNat 10 (by norm_num) exponent
  have htwo := zpow_mul_pow_toNat 2 (by norm_num) interval.exponent
  refine ⟨_, _, hpositive _ _, hpositive _ _, ?_, gridPoint?_eq interval exponent⟩
  push_cast [hcast]
  rw [← hten, ← htwo]
  ring

theorem step_le_of_zpow_le {interval : RoundingInterval} {exponent : Int} {unit step size : Nat}
    (hscale : (step : ℚ) * 2 ^ interval.exponent = unit * 10 ^ exponent)
    (hle : (10 : ℚ) ^ exponent ≤ size * 2 ^ interval.exponent) : step ≤ size * unit := by
  have hpower : (0 : ℚ) < 2 ^ interval.exponent := by positivity
  have hunit : (0 : ℚ) ≤ unit := Nat.cast_nonneg unit
  have hsteps : (step : ℚ) * 2 ^ interval.exponent ≤
      (size * unit : Nat) * 2 ^ interval.exponent := by
    rw [hscale]
    push_cast
    nlinarith
  exact_mod_cast le_of_mul_le_mul_right hsteps hpower

theorem eq_below_or_above_of_nearestPoint? {interval : RoundingInterval} {unit step point : Nat}
    (hpoint : nearestPoint? interval unit step = some point) :
    point = interval.value * unit / step ∨ point = interval.value * unit / step + 1 := by
  unfold nearestPoint? at hpoint
  dsimp only at hpoint
  generalize interval.value * unit / step = below at hpoint ⊢
  cases hclosed : interval.closed <;>
  · simp only [hclosed, Bool.false_eq_true, if_false, if_true] at hpoint
    split at hpoint
    · obtain rfl := Option.some.inj hpoint
      split
      · exact .inl rfl
      · exact .inr rfl
    · split at hpoint
      · exact .inl (Option.some.inj hpoint).symm
      · split at hpoint
        · exact .inr (Option.some.inj hpoint).symm
        · cases hpoint

/-- On a grid whose steps do not exceed the number, no point of it is zero. -/
theorem gridPoint?_ne_zero {interval : RoundingInterval} {exponent : Int} {point : Nat}
    (hle : (10 : ℚ) ^ exponent ≤ interval.value * 2 ^ interval.exponent)
    (hpoint : gridPoint? interval exponent = some point) : point ≠ 0 := by
  obtain ⟨unit, step, -, hstep, hscale, heq⟩ := exists_nearestPoint? interval exponent
  have hbelow : 0 < interval.value * unit / step :=
    Nat.div_pos (step_le_of_zpow_le hscale hle) hstep
  rcases eq_below_or_above_of_nearestPoint? (heq.symm.trans hpoint) with rfl | rfl
  · exact hbelow.ne'
  · exact Nat.succ_ne_zero _

/-- A grid with steps smaller than the interval has a point in it. -/
theorem gridPoint?_ne_none {interval : RoundingInterval} {exponent : Int} {width : Nat}
    (hwidth : interval.low + width = interval.high)
    (hlt : (10 : ℚ) ^ exponent < width * 2 ^ interval.exponent) :
    gridPoint? interval exponent ≠ none := by
  obtain ⟨unit, step, hunit, -, hscale, heq⟩ := exists_nearestPoint? interval exponent
  have hstep : step < width * unit := by
    have hpower : (0 : ℚ) < 2 ^ interval.exponent := by positivity
    have hunit : (0 : ℚ) < unit := Nat.cast_pos.mpr hunit
    have hsteps : (step : ℚ) * 2 ^ interval.exponent <
        (width * unit : Nat) * 2 ^ interval.exponent := by
      rw [hscale]
      push_cast
      nlinarith
    exact_mod_cast lt_of_mul_lt_mul_right hsteps hpower.le
  have hhigh : interval.high * unit = interval.low * unit + width * unit := by
    rw [← hwidth, Nat.add_mul]
  rw [heq]
  unfold nearestPoint?
  dsimp only
  generalize interval.value * unit / step = below
  have habove : (below + 1) * step = below * step + step := Nat.succ_mul below step
  -- The two points are a step apart and would have the interval between them.
  cases interval.closed <;>
  · simp only [Bool.false_eq_true, if_false, if_true]
    split
    · exact Option.some_ne_none _
    · split
      · exact Option.some_ne_none _
      · split
        · exact Option.some_ne_none _
        · omega

end Grid

section Search

variable {interval : RoundingInterval} {order : Int}

/-- A search that comes to a grid with a point finds a decimal that is not zero. -/
theorem shortestFrom_digits_ne_zero (last : Nat)
    (hpoint : ∀ digits point, 1 ≤ digits →
      gridPoint? interval (order + 1 - (digits : Nat)) = some point → point ≠ 0)
    (hlast : gridPoint? interval (order + 1 - (last : Nat)) ≠ none) {fuel digits : Nat}
    (hdigits : 1 ≤ digits) (hle : digits ≤ last) (hfuel : last < digits + fuel) :
    (shortestFrom interval order fuel digits).digits ≠ 0 := by
  induction fuel generalizing digits with
  | zero => omega
  | succ fuel ih =>
      rw [shortestFrom]
      cases hgrid : gridPoint? interval (order + 1 - (digits : Nat)) with
      | some point =>
          dsimp only
          split
          · exact Nat.one_ne_zero
          · exact hpoint digits point hdigits hgrid
      | none =>
          have hne : digits ≠ last := by
            rintro rfl
            exact hlast hgrid
          exact ih (by omega) (by omega) (by omega)

theorem scaleDown_pos {numerator denominator : Nat} (hnumerator : 0 < numerator)
    (hdenominator : 0 < denominator) (exponent : Int) :
    0 < (scaleDown numerator denominator exponent).1 ∧
      0 < (scaleDown numerator denominator exponent).2 := by
  unfold scaleDown
  split
  · exact ⟨hnumerator, Nat.mul_pos hdenominator (Nat.pow_pos (by decide))⟩
  · exact ⟨Nat.mul_pos hnumerator (Nat.pow_pos (by decide)), hdenominator⟩

theorem scaleDown_ratio (numerator : Nat) {denominator : Nat} (hdenominator : 0 < denominator)
    (exponent : Int) :
    ((scaleDown numerator denominator exponent).1 : ℚ) /
        (scaleDown numerator denominator exponent).2 =
      numerator / denominator * 2 ^ (-exponent) := by
  have hd : (denominator : ℚ) ≠ 0 := Nat.cast_ne_zero.mpr hdenominator.ne'
  have hcast : ∀ count : Nat, ((Nat.pow 2 count : Nat) : ℚ) = 2 ^ count := Nat.cast_pow 2
  unfold scaleDown
  split
  next hexponent =>
    obtain ⟨count, rfl⟩ := Int.eq_ofNat_of_zero_le hexponent
    rw [Int.toNat_natCast, zpow_neg, zpow_natCast]
    push_cast [hcast]
    field_simp
  next hexponent =>
    obtain ⟨count, hcount⟩ :=
      Int.eq_ofNat_of_zero_le (Int.neg_nonneg.mpr (Int.not_le.mp hexponent).le)
    rw [hcount, Int.toNat_natCast, zpow_natCast]
    push_cast [hcast]
    ring

/-- Seventeen digits are enough for every number of the format, and the digits are not zero. -/
theorem shortest_digits_ne_zero {mantissa : Nat} (hpositive : 0 < mantissa)
    (hbound : mantissa < 0x20000000000000) (exponent : Int) :
    (shortest mantissa exponent).digits ≠ 0 := by
  have hfour : (2 : ℚ) ^ exponent = 2 ^ (exponent - 2) * 4 := by
    have hsplit := zpow_add₀ (two_ne_zero : (2 : ℚ) ≠ 0) (exponent - 2) 2
    rw [sub_add_cancel] at hsplit
    rw [hsplit]
    norm_num
  have hvalue : ((roundingInterval mantissa exponent).value : ℚ) *
      2 ^ (roundingInterval mantissa exponent).exponent = mantissa * 2 ^ exponent := by
    simp only [roundingInterval]
    rw [hfour]
    push_cast
    ring
  obtain ⟨width, hwidth, hwide⟩ : ∃ width, (roundingInterval mantissa exponent).low + width =
      (roundingInterval mantissa exponent).high ∧ 4 * mantissa < 10 ^ 16 * width := by
    simp only [roundingInterval]
    split
    next htop => exact ⟨3, by omega, by omega⟩
    next => exact ⟨4, by omega, by omega⟩
  generalize hscaled : scaleDown mantissa 1 (-exponent) = scaled
  have hratio := scaleDown_ratio mantissa Nat.one_pos (-exponent)
  rw [hscaled, neg_neg, Nat.cast_one, div_one] at hratio
  have hscaledPositive := scaleDown_pos hpositive Nat.one_pos (-exponent)
  rw [hscaled] at hscaledPositive
  have horder := zpow_decimalOrder_le hscaledPositive.1 hscaledPositive.2
  rw [hratio, ← hvalue] at horder
  have hshortest : shortest mantissa exponent = shortestFrom (roundingInterval mantissa exponent)
      (decimalOrder scaled.1 scaled.2) 17 1 := by
    rw [shortest, hscaled]
  rw [hshortest]
  generalize decimalOrder scaled.1 scaled.2 = order at horder
  refine shortestFrom_digits_ne_zero 17 ?_ (gridPoint?_ne_none hwidth ?_) le_rfl
    (by decide) (by decide)
  · intro digits point hdigits hpoint
    refine gridPoint?_ne_zero (le_trans ?_ horder) hpoint
    exact zpow_le_zpow_right₀ (by norm_num) (by omega)
  · -- The grid is finer than the number by sixteen orders of magnitude.
    have hfine : (10 : ℚ) ^ order = 10 ^ (order + 1 - (17 : Nat)) * 10 ^ 16 := by
      rw [← zpow_natCast (10 : ℚ) 16, ← zpow_add₀ (by norm_num)]
      congr 1
      omega
    have hpower : (0 : ℚ) < 2 ^ (roundingInterval mantissa exponent).exponent := by positivity
    have hcast : ((roundingInterval mantissa exponent).value : ℚ) < 10 ^ 16 * width := by
      have hle : (roundingInterval mantissa exponent).value = 4 * mantissa := rfl
      rw [hle]
      exact_mod_cast hwide
    rw [hfine] at horder
    nlinarith

end Search

end TrackingPlan.Binary64
