import JsonEdit.Proofs.Number.Value

/-!
# A number that has a decimal is equal to it

Reading a decimal from a number moves the point and drops zeros at the end, and neither changes the
value. So the number has the normal form of its decimal.
-/

namespace JsonEdit

namespace Decimal

theorem of_make? {coefficient : Int} {places : Nat} {decimal : Decimal}
    (hmake : make? coefficient places = some decimal) :
    decimal.coefficient = coefficient ∧ decimal.places = places := by
  unfold make? at hmake
  split at hmake
  · cases hmake
    exact ⟨rfl, rfl⟩
  · cases hmake

theorem make?_self (decimal : Decimal) :
    make? decimal.coefficient decimal.places = some decimal := by
  rw [make?, dif_pos ⟨decimal.coefficient_lt, decimal.places_le⟩]

theorem exists_make? {coefficient : Int} {places : Nat} (hcoefficient : coefficient.natAbs < pow2 96)
    (hplaces : places ≤ 28) : ∃ decimal, make? coefficient places = some decimal := by
  rw [make?, dif_pos ⟨hcoefficient, hplaces⟩]
  exact ⟨_, rfl⟩

theorem coefficientAt_div_pow (decimal : Decimal) {places : Nat}
    (hplaces : decimal.places ≤ places) :
    (decimal.coefficientAt places : ℚ) / 10 ^ places = decimal.value := by
  obtain ⟨extra, rfl⟩ := Nat.exists_eq_add_of_le hplaces
  rw [coefficientAt, value, Nat.add_sub_cancel_left, pow10_eq, pow_add]
  push_cast
  field_simp

end Decimal

/-- No more than eighteen digits count. -/
def Exponent.Short (exponent : Exponent) : Prop :=
  (Digit.dropLeadingZeros exponent.digits).length ≤ 18

/-- A short exponent is not cut off. -/
theorem Scientific.boundedExponent_of_short {exponent : Exponent} (hshort : exponent.Short) :
    boundedExponent exponent = exponent.value :=
  if_neg (Nat.not_lt.mpr hshort)

namespace Number

def signed (negative : Bool) (significand : Nat) : Int :=
  if negative then -(significand : Int) else significand

theorem ofScaled_signed (negative : Bool) (significand : Nat) (scale : Int) :
    Scientific.ofScaled (signed negative significand < 0) (signed negative significand).natAbs scale =
      Scientific.ofScaled negative significand scale := by
  unfold signed
  by_cases hzero : significand = 0
  · simp [hzero, Scientific.ofScaled]
  · cases negative
    · simp [Int.not_lt.mpr (Int.natCast_nonneg significand)]
    · have hpos : 0 < significand := by omega
      simp [hpos]

theorem signed_mul (negative : Bool) (significand factor : Nat) :
    signed negative (significand * factor) = signed negative significand * factor := by
  unfold signed
  split <;> push_cast <;> ring

theorem of_reducedDecimal? {negative : Bool} {significand places : Nat} {decimal : Decimal}
    (hreduced : reducedDecimal? negative significand places = some decimal) :
    ∃ count rest, significand = rest * 10 ^ count ∧ places = decimal.places + count ∧
      decimal.coefficient = signed negative rest := by
  induction places generalizing significand with
  | zero =>
      obtain ⟨hcoefficient, hplaces⟩ := Decimal.of_make? hreduced
      exact ⟨0, significand, by simp, hplaces.symm, hcoefficient⟩
  | succ places ih =>
      unfold reducedDecimal? at hreduced
      split at hreduced
      · rename_i hplain
        cases hreduced
        obtain ⟨hcoefficient, hplaces⟩ := Decimal.of_make? hplain
        exact ⟨0, significand, by simp, hplaces.symm, hcoefficient⟩
      · split at hreduced
        · obtain ⟨count, rest, hrest, hplaces, hcoefficient⟩ := ih hreduced
          refine ⟨count + 1, rest, ?_, by omega, hcoefficient⟩
          rw [pow_succ, ← mul_assoc, ← hrest]
          omega
        · cases hreduced

theorem of_shiftedDecimal? {decimal shifted : Decimal} {exponent : Int}
    (hshifted : shiftedDecimal? decimal exponent = some shifted) :
    exponent.natAbs ≤ 28 ∧ ∃ count : Nat, shifted.coefficient = decimal.coefficient * 10 ^ count ∧
      -(shifted.places : Int) + count = exponent - decimal.places := by
  unfold shiftedDecimal? at hshifted
  split at hshifted
  · cases hshifted
  · rename_i hbound
    refine ⟨by omega, ?_⟩
    split at hshifted
    · obtain ⟨hcoefficient, hplaces⟩ := Decimal.of_make? hshifted
      exact ⟨0, by simpa using hcoefficient, by omega⟩
    · obtain ⟨hcoefficient, hplaces⟩ := Decimal.of_make? hshifted
      refine ⟨(exponent - decimal.places).toNat, ?_, by omega⟩
      rw [hcoefficient, pow10_eq]
      push_cast
      rfl

theorem short_of_natAbs_le {exponent : Exponent} (hbound : exponent.value.natAbs ≤ 28) :
    exponent.Short := by
  by_contra hlong
  have hlarge := Digit.le_value_of_length (Nat.not_le.mp hlong)
  unfold Exponent.value at hbound
  split at hbound <;> omega

theorem decimal?_eq_none_of_long {number : Number} (hexponent : number.exponent = none)
    (hlong : 28 < number.fraction.length) : number.decimal? = none := by
  rw [decimal?, hexponent]
  exact dif_neg fun hlimits => by omega

/-- A number that has a decimal has the normal form of the decimal. -/
theorem scientific_of_decimal? {number : Number} {decimal : Decimal}
    (hdecimal : number.decimal? = some decimal) : number.scientific = decimal.scientific := by
  unfold decimal? at hdecimal
  rw [scientific, Scientific.ofNumber_eq, Decimal.scientific]
  split at hdecimal
  · rename_i hexponent
    obtain ⟨hcoefficient, hplaces⟩ := Decimal.of_make? hdecimal
    rw [hcoefficient, hplaces, hexponent]
    rw [← signed, ofScaled_signed]
    simp
  · rename_i exponent hexponent
    obtain ⟨reduced, hreduced, hshifted⟩ := Option.bind_eq_some_iff.mp hdecimal
    obtain ⟨dropped, rest, hsignificand, hplaces, hrest⟩ := of_reducedDecimal? hreduced
    obtain ⟨hbound, moved, hcoefficient, hscale⟩ := of_shiftedDecimal? hshifted
    have hmoved : decimal.coefficient = signed number.negative (rest * 10 ^ moved) := by
      rw [hcoefficient, hrest, signed_mul]
      push_cast
      rfl
    rw [hmoved, ofScaled_signed, Scientific.ofScaled_mul_pow, hsignificand,
      Scientific.ofScaled_mul_pow, hexponent, Option.map_some, Option.getD_some,
      Scientific.boundedExponent_of_short (short_of_natAbs_le hbound)]
    congr 1
    omega

end Number

end JsonEdit
