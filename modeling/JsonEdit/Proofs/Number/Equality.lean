import JsonEdit.Number.Scientific
import JsonEdit.Proofs.Number.Digits

/-!
# Forms that compare as equal are the same

Of all scientific forms only `zero` may have no digits; a form that keeps to that is proper, and the
form of a number always is. Proper forms compare as equal exactly when they are the same.

The form of a number is made from its written digits. These are the digits of one significand, so the
form can also be made from that.
-/

namespace JsonEdit

namespace Scientific

/-- Only zero has no digits. -/
def Proper (value : Scientific) : Prop := value.digits = [] → value = zero

theorem sign_eq_zero_iff {value : Scientific} : value.sign = 0 ↔ value.digits = [] := by
  unfold sign
  cases hdigits : value.digits <;> cases value.negative <;> simp

theorem negative_eq_of_sign_eq {left right : Scientific} (hsign : left.sign = right.sign)
    (hleft : left.digits ≠ []) : left.negative = right.negative := by
  have hright : right.digits ≠ [] := by
    rwa [ne_eq, ← sign_eq_zero_iff, ← hsign, sign_eq_zero_iff]
  unfold sign at hsign
  cases hl : left.negative <;> cases hr : right.negative <;> simp_all

theorem compareMagnitude_eq_iff {left right : Scientific} :
    left.compareMagnitude right = .eq ↔
      left.exponent = right.exponent ∧ left.digits = right.digits := by
  rw [compareMagnitude, Ordering.then_eq_eq, Std.compare_eq_iff_eq, Std.compare_eq_iff_eq]

/-- Proper forms compare as equal only if they are the same. -/
theorem compare_eq_iff {left right : Scientific} (hleft : left.Proper) (hright : right.Proper) :
    Ord.compare left right = .eq ↔ left = right := by
  change left.compare right = .eq ↔ left = right
  rw [compare, Ordering.then_eq_eq, Std.compare_eq_iff_eq]
  constructor
  · rintro ⟨hsign, hrest⟩
    by_cases hzero : left.sign = 0
    · rw [hleft (sign_eq_zero_iff.mp hzero), hright (sign_eq_zero_iff.mp (hsign ▸ hzero))]
    · have hnegative := negative_eq_of_sign_eq hsign (mt sign_eq_zero_iff.mpr hzero)
      have hmagnitude : left.compareMagnitude right = .eq := by
        rw [if_neg hzero] at hrest
        split at hrest
        · exact Ordering.swap_eq_eq.mp hrest
        · exact hrest
      obtain ⟨hexponent, hdigits⟩ := compareMagnitude_eq_iff.mp hmagnitude
      cases left
      cases right
      simp_all
  · rintro rfl
    have hmagnitude : left.compareMagnitude left = .eq := compareMagnitude_eq_iff.mpr ⟨rfl, rfl⟩
    simp [hmagnitude]

/-! ### Forms by significand -/

/-- The form of a value whose digits are those of `significand` and end at `10 ^ scale`. -/
def ofScaled (negative : Bool) (significand : Nat) (scale : Int) : Scientific :=
  if significand = 0 then zero
  else
    let digits := Digit.ofNat significand
    ⟨negative, digits.length + scale, Digit.dropTrailingZeros digits⟩

/-- Digits before and after a point are those of one number, except for zeros at the front. -/
theorem ofDigits_eq (negative : Bool) (whole fraction : List Digit) (exponent : Int) :
    ofDigits negative whole fraction exponent =
      ofScaled negative (Digit.value (whole ++ fraction)) (exponent - fraction.length) := by
  unfold ofDigits ofScaled
  by_cases hzero : Digit.value (whole ++ fraction) = 0
  · rw [Digit.dropLeadingZeros_of_value_eq hzero, if_pos hzero]
    rfl
  · have hlength : (Digit.ofNat (Digit.value (whole ++ fraction))).length ≤
        (whole ++ fraction).length := by
      rw [← Digit.dropLeadingZeros_of_value_ne hzero]
      exact (List.dropWhile_suffix _).length_le
    have hne : (Digit.dropTrailingZeros (Digit.ofNat (Digit.value (whole ++ fraction)))).isEmpty =
        false := by
      rw [List.isEmpty_eq_false_iff]
      exact Digit.dropTrailingZeros_ne_nil (by rwa [Digit.value_ofNat])
    rw [Digit.dropLeadingZeros_of_value_ne hzero, if_neg hzero]
    simp only [hne, Bool.false_eq_true, if_false]
    congr 1
    rw [List.length_append] at hlength ⊢
    omega

theorem ofNumber_eq (number : Number) :
    ofNumber number = ofScaled number.negative number.significand
      ((number.exponent.map boundedExponent).getD 0 - number.fraction.length) := by
  rw [ofNumber, ofDigits_eq, Digit.value_append, Digit.value_ofNat, Number.significand, pow10_eq]

theorem proper_ofScaled (negative : Bool) (significand : Nat) (scale : Int) :
    (ofScaled negative significand scale).Proper := by
  unfold ofScaled
  split
  · exact fun _ => rfl
  · rename_i hne
    intro hnil
    exact absurd hnil (Digit.dropTrailingZeros_ne_nil (by rwa [Digit.value_ofNat]))

end Scientific

namespace Number

theorem proper_scientific (number : Number) : number.scientific.Proper := by
  rw [scientific, Scientific.ofNumber_eq]
  exact Scientific.proper_ofScaled _ _ _

end Number

end JsonEdit
