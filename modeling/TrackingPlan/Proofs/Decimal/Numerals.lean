import TrackingPlan.Proofs.Decimal.Shortest

/-!
# Numerals of a program

A printed number is a decimal numeral of a program, with a sign in front if it
is negative: digits that do not start with a superfluous zero, and perhaps a
point with digits behind it.
-/

namespace TrackingPlan

/-- Digits of a whole number; a zero in front is the only digit. -/
structure IsWhole (chars : List Char) : Prop where
  ne_nil : chars ≠ []
  digits : ∀ c ∈ chars, c.isDigit = true
  no_zero : chars.head? = some '0' → chars = ['0']

/-- A numeral without a sign. -/
inductive IsNumeral : List Char → Prop where
  | whole {chars : List Char} (hwhole : IsWhole chars) : IsNumeral chars
  | fraction {chars places : List Char} (hwhole : IsWhole chars) (hne : places ≠ [])
      (hplaces : ∀ c ∈ places, c.isDigit = true) : IsNumeral (chars ++ '.' :: places)

/-- A numeral, or one behind a minus sign. -/
def IsSigned (chars : List Char) : Prop :=
  ∃ numeral, IsNumeral numeral ∧ (chars = numeral ∨ chars = '-' :: numeral)

theorem isDigit_toDigits {n : Nat} : ∀ c ∈ Nat.toDigits 10 n, c.isDigit = true :=
  fun _ hc => Nat.isDigit_of_mem_toDigits (by decide) (by decide) hc

theorem head?_toDigits_ne_zero {n : Nat} (hn : n ≠ 0) :
    (Nat.toDigits 10 n).head? ≠ some '0' := by
  induction n using Nat.strongRecOn with
  | _ n ih =>
      by_cases hlt : n < 10
      · have hdigits : ∀ n < 10, n ≠ 0 → (Nat.toDigits 10 n).head? ≠ some '0' := by decide
        exact hdigits n hlt hn
      · rw [Nat.toDigits_of_base_le (by decide) (Nat.not_lt.mp hlt),
          List.head?_append_of_ne_nil _ Nat.toDigits_ne_nil]
        exact ih (n / 10) (by omega) (by omega)

theorem isWhole_toDigits (n : Nat) : IsWhole (Nat.toDigits 10 n) where
  ne_nil := Nat.toDigits_ne_nil
  digits := isDigit_toDigits
  no_zero := fun hzero => by
    by_cases hn : n = 0
    · rw [hn, Nat.toDigits_zero]
    · exact absurd hzero (head?_toDigits_ne_zero hn)

theorem isSigned_toString (value : Int) : IsSigned (toString value).toList := by
  cases value with
  | ofNat n =>
      refine ⟨Nat.toDigits 10 n, .whole (isWhole_toDigits n), .inl ?_⟩
      change (toString n).toList = _
      rw [Nat.toString_eq_ofList_toDigits, String.toList_ofList]
  | negSucc n =>
      refine ⟨Nat.toDigits 10 (n + 1), .whole (isWhole_toDigits (n + 1)), .inr ?_⟩
      change ("-" ++ toString (n + 1)).toList = _
      rw [Nat.toString_eq_ofList_toDigits]
      simp only [String.toList_append, String.toList_ofList]
      rfl

namespace Binary64

theorem isNumeral_of_decimal {decimal : Decimal} (hdigits : decimal.digits ≠ 0) :
    IsNumeral decimal.toText.toList := by
  have hhead := head?_toDigits_ne_zero hdigits
  have hne : Nat.toDigits 10 decimal.digits ≠ [] := Nat.toDigits_ne_nil
  have hall : ∀ c ∈ Nat.toDigits 10 decimal.digits, c.isDigit = true := isDigit_toDigits
  unfold Decimal.toText
  generalize Nat.toDigits 10 decimal.digits = digits at hhead hne hall
  have hzeros : ∀ count : Nat, ∀ c ∈ List.replicate count '0', c.isDigit = true := by
    intro count c hc
    obtain rfl := (List.mem_replicate.mp hc).2
    rfl
  dsimp only
  split
  next hexponent =>
    rw [String.toList_ofList]
    refine .whole ⟨List.append_ne_nil_of_left_ne_nil hne _, ?_, fun hzero => ?_⟩
    · intro c hc
      rcases List.mem_append.mp hc with hc | hc
      · exact hall c hc
      · exact hzeros _ c hc
    · rw [List.head?_append_of_ne_nil _ hne] at hzero
      exact absurd hzero hhead
  next hexponent =>
    have hplaces : 0 < (-decimal.exponent).toNat := by omega
    generalize (-decimal.exponent).toNat = places at hplaces
    rw [String.toList_ofList]
    by_cases hlong : places < digits.length
    · have hpadding : places + 1 - digits.length = 0 := by omega
      rw [hpadding, List.replicate_zero, List.nil_append]
      have htake : digits.take (digits.length - places) ≠ [] := by
        rw [ne_eq, List.take_eq_nil_iff, not_or]
        exact ⟨by omega, hne⟩
      refine .fraction ⟨htake, fun c hc => hall c (List.mem_of_mem_take hc), fun hzero => ?_⟩ ?_
        fun c hc => hall c (List.mem_of_mem_drop hc)
      · rw [List.head?_take, if_neg (by omega)] at hzero
        exact absurd hzero hhead
      · rw [ne_eq, List.drop_eq_nil_iff]
        omega
    · -- A number below one has a single zero before the point.
      obtain ⟨zeros, hzero⟩ : ∃ zeros, places + 1 - digits.length = zeros + 1 :=
        ⟨places - digits.length, by omega⟩
      have hlength : (List.replicate (zeros + 1) '0' ++ digits).length - places = 1 := by
        rw [List.length_append, List.length_replicate]
        omega
      rw [hzero, hlength, List.replicate_succ, List.cons_append, List.take_succ_cons,
        List.take_zero, List.drop_succ_cons, List.drop_zero]
      refine .fraction ⟨List.cons_ne_nil _ _, List.forall_mem_singleton.mpr rfl, fun _ => rfl⟩
        (List.append_ne_nil_of_right_ne_nil _ hne) fun c hc => ?_
      rcases List.mem_append.mp hc with hc | hc
      · exact hzeros _ c hc
      · exact hall c hc

/-- A finite number of the format: it has a mantissa of at most 53 bits. -/
def IsNumber : Binary64 → Prop
  | finite _ mantissa _ => mantissa < 0x20000000000000
  | _ => False

theorem IsNumber.isFinite {float : Binary64} (hnumber : float.IsNumber) :
    float.isFinite = true := by
  cases float with
  | finite => rfl
  | infinite | nan => exact hnumber.elim

theorem isSigned_toText {float : Binary64} (hnumber : float.IsNumber) :
    IsSigned float.toText.toList := by
  cases float with
  | infinite negative => exact hnumber.elim
  | nan => exact hnumber.elim
  | finite negative mantissa exponent =>
      have hunsigned : IsNumeral
          (if mantissa = 0 then "0" else (shortest mantissa exponent).toText).toList := by
        split
        · exact .whole (isWhole_toDigits 0)
        next hzero =>
          exact isNumeral_of_decimal
            (shortest_digits_ne_zero (Nat.pos_of_ne_zero hzero) hnumber exponent)
      refine ⟨_, hunsigned, ?_⟩
      cases negative with
      | false => exact .inl rfl
      | true =>
          refine .inr ?_
          rw [toText, if_pos rfl, String.toList_append]
          rfl

end Binary64

end TrackingPlan
