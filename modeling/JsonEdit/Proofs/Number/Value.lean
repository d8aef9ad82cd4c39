import JsonEdit.Number.Decimal
import JsonEdit.Proofs.Number.Equality
import Mathlib.Algebra.Order.Field.Rat
import Mathlib.Tactic.FieldSimp
import Mathlib.Tactic.Linarith

/-!
# The values of forms and decimals

Scientific forms and decimals stand for values. The normal form of a decimal has the value of the
decimal, and it is the form of the number that the decimal writes. Zeros at the end of a significand can
be traded for places.
-/

namespace JsonEdit

namespace Scientific

def value (form : Scientific) : ℚ :=
  (if form.negative then -1 else 1) * Digit.value form.digits *
    10 ^ (form.exponent - form.digits.length)

/-- A zero at the end of the significand is one place more. -/
theorem ofScaled_mul_ten (negative : Bool) (significand : Nat) (scale : Int) :
    ofScaled negative (significand * 10) scale = ofScaled negative significand (scale + 1) := by
  unfold ofScaled
  by_cases hzero : significand = 0
  · simp [hzero]
  · rw [if_neg (by omega), if_neg hzero]
    simp only [Digit.ofNat_mul_ten hzero, Digit.dropTrailingZeros_concat_zero, List.length_append,
      List.length_singleton]
    congr 1
    omega

theorem ofScaled_mul_pow (negative : Bool) (significand count : Nat) (scale : Int) :
    ofScaled negative (significand * 10 ^ count) scale =
      ofScaled negative significand (scale + count) := by
  induction count generalizing significand with
  | zero => simp
  | succ count ih =>
      rw [pow_succ', ← mul_assoc, ih, ofScaled_mul_ten]
      congr 1
      omega

theorem value_ofScaled (negative : Bool) (significand : Nat) (scale : Int) :
    (ofScaled negative significand scale).value =
      (if negative then -1 else 1) * significand * 10 ^ scale := by
  unfold ofScaled value
  split
  · rename_i hzero
    simp [zero, hzero]
  · obtain ⟨count, hcount⟩ := Digit.exists_dropTrailingZeros_append (Digit.ofNat significand)
    have hlength := congrArg List.length hcount
    have hvalue := congrArg Digit.value hcount
    rw [List.length_append, List.length_replicate] at hlength
    rw [Digit.value_append, Digit.value_replicate_zero, List.length_replicate, Digit.value_ofNat,
      add_zero] at hvalue
    have hpower : (10 : ℚ) ^ ((Digit.ofNat significand).length + scale -
        (Digit.dropTrailingZeros (Digit.ofNat significand)).length) = 10 ^ count * 10 ^ scale := by
      rw [← zpow_natCast (10 : ℚ) count, ← zpow_add₀ (by norm_num)]
      congr 1
      omega
    simp only
    rw [hpower, ← mul_assoc, mul_assoc _ _ ((10 : ℚ) ^ count)]
    congr 2
    exact_mod_cast hvalue

end Scientific

namespace Decimal

def value (decimal : Decimal) : ℚ := decimal.coefficient / 10 ^ decimal.places

def scientific (decimal : Decimal) : Scientific :=
  .ofScaled (decimal.coefficient < 0) decimal.coefficient.natAbs (-decimal.places)

/-- The normal form of a decimal has its value. -/
theorem value_scientific (decimal : Decimal) : decimal.scientific.value = decimal.value := by
  have hsign : ((if decimal.coefficient < 0 then -1 else 1 : ℤ) * decimal.coefficient.natAbs) =
      decimal.coefficient := by
    split <;> omega
  rw [scientific, Scientific.value_ofScaled, value, zpow_neg, zpow_natCast, div_eq_mul_inv]
  congr 1
  rw [← Int.cast_natCast decimal.coefficient.natAbs]
  conv_rhs => rw [← hsign]
  push_cast
  simp

theorem value_eq_iff {left right : Decimal} :
    left.value = right.value ↔
      left.coefficient * 10 ^ right.places = right.coefficient * 10 ^ left.places := by
  rw [value, value, div_eq_div_iff (by positivity) (by positivity)]
  exact_mod_cast Iff.rfl

theorem coefficient_eq_zero_iff {decimal : Decimal} :
    decimal.coefficient = 0 ↔ decimal.value = 0 := by
  simp [value]

theorem significand_toNumber (decimal : Decimal) :
    decimal.toNumber.significand = decimal.coefficient.natAbs := by
  rw [Number.significand, toNumber, Digit.length_lastDigits, Digit.value_lastDigits, pow10_eq]
  exact Nat.div_add_mod' _ _

theorem scientific_toNumber (decimal : Decimal) : decimal.toNumber.scientific = decimal.scientific := by
  rw [Number.scientific, Scientific.ofNumber_eq, significand_toNumber, scientific]
  simp [toNumber]

end Decimal

end JsonEdit
