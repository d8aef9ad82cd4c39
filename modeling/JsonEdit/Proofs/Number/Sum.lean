import JsonEdit.Proofs.Number.Order

/-!
# Sums by value

A sum of decimals depends on the values of its sides only. So numbers that are equal, and that both have
decimals, give equal sums with any number.
-/

namespace JsonEdit

namespace Number

/-- Zeros at the end do not change what a number is equal to. -/
theorem beq_append_zeros (number : Number) (count : Nat) :
    { number with fraction := number.fraction ++ List.replicate count 0 } == number := by
  have hsignificand :
      significand { number with fraction := number.fraction ++ List.replicate count 0 } =
        number.significand * 10 ^ count := by
    rw [significand, significand, Digit.value_append, Digit.value_replicate_zero, List.length_append,
      List.length_replicate, pow10_eq, pow10_eq, pow_add]
    ring
  rw [beq_iff, scientific, scientific, Scientific.ofNumber_eq, Scientific.ofNumber_eq, hsignificand,
    Scientific.ofScaled_mul_pow, List.length_append, List.length_replicate]
  congr 1
  push_cast
  ring

end Number

/-! ### A sum depends on the values of its sides -/

namespace Decimal

theorem roundedQuotient_mul_right (n d : Nat) {factor : Nat} (hfactor : 0 < factor) :
    roundedQuotient (n * factor) (d * factor) = roundedQuotient n d := by
  have hbelow : 2 * (n % d * factor) < d * factor ↔ 2 * (n % d) < d := by
    rw [← mul_assoc, Nat.mul_lt_mul_right hfactor]
  have habove : d * factor < 2 * (n % d * factor) ↔ d < 2 * (n % d) := by
    rw [← mul_assoc, Nat.mul_lt_mul_right hfactor]
  simp only [roundedQuotient, Nat.mul_div_mul_right n d hfactor, Nat.mul_mod_mul_right, hbelow,
    habove]

/-- Zeros at the end are the first to be given up. -/
theorem rounded_mul_pow (coefficient : Int) (more dropped : Nat) :
    fit?.rounded (coefficient * 10 ^ more) (dropped + more) = fit?.rounded coefficient dropped := by
  have hsign : (coefficient * 10 ^ more).sign = coefficient.sign := by
    rw [Int.sign_mul, Int.sign_eq_one_of_pos (a := 10 ^ more) (by positivity), mul_one]
  have habs : (coefficient * 10 ^ more).natAbs = coefficient.natAbs * 10 ^ more := by
    rw [Int.natAbs_mul, Int.natAbs_pow]
    rfl
  rw [fit?.rounded, fit?.rounded, hsign, habs, pow10_eq, pow10_eq, pow_add,
    roundedQuotient_mul_right _ _ (by positivity)]

theorem rounded_zero (coefficient : Int) : fit?.rounded coefficient 0 = coefficient := by
  have hquotient : roundedQuotient coefficient.natAbs 1 = coefficient.natAbs := by
    simp [roundedQuotient, Nat.mod_one]
  rw [fit?.rounded, pow10_eq, pow_zero, hquotient, Int.sign_mul_natAbs]

/-- With no more places kept than there were before the zeros, the zeros make no difference. -/
theorem fit?_mul_pow (coefficient : Int) (places more kept : Nat) (hkept : kept ≤ places) :
    fit? (coefficient * 10 ^ more) (places + more) kept = fit? coefficient places kept := by
  induction kept with
  | zero => rw [fit?, fit?, rounded_mul_pow]
  | succ kept ih =>
      have hdropped : places + more - (kept + 1) = places - (kept + 1) + more := by omega
      rw [fit?, fit?, hdropped, rounded_mul_pow, ih (by omega)]

/-- While only zeros are given up the value stays. -/
theorem map_value_fit?_add (coefficient : Int) (places more extra : Nat) (hextra : extra ≤ more) :
    (fit? (coefficient * 10 ^ more) (places + more) (places + extra)).map value =
      (fit? coefficient places places).map value := by
  induction extra with
  | zero => rw [add_zero, fit?_mul_pow coefficient places more places le_rfl]
  | succ extra ih =>
      have hexact : fit?.rounded (coefficient * 10 ^ more) (places + more - (places + (extra + 1))) =
          coefficient * 10 ^ (extra + 1) := by
        obtain ⟨dropped, hdropped⟩ := Nat.exists_eq_add_of_le hextra
        have hpower : coefficient * 10 ^ more = coefficient * 10 ^ (extra + 1) * 10 ^ dropped := by
          rw [hdropped, pow_add, mul_assoc]
        have hplaces : places + more - (places + (extra + 1)) = 0 + dropped := by omega
        rw [hpower, hplaces, rounded_mul_pow, rounded_zero]
      rw [← add_assoc, fit?, add_assoc, hexact]
      split
      · rename_i decimal hmake
        obtain ⟨hcoefficient, hplaces⟩ := of_make? hmake
        -- what fits with the zeros fits without them
        have hfits : ∃ smaller, make? coefficient places = some smaller := by
          refine exists_make? (lt_of_le_of_lt ?_ decimal.coefficient_lt) ?_
          · rw [hcoefficient, Int.natAbs_mul]
            exact Nat.le_mul_of_pos_right _ (by positivity)
          · have hbound := decimal.places_le
            omega
        obtain ⟨smaller, hsmaller⟩ := hfits
        have hfit : fit? coefficient places places = some smaller := by
          cases places with
          | zero => rw [fit?, rounded_zero, hsmaller]
          | succ places => rw [fit?, Nat.sub_self, rounded_zero, hsmaller]
        obtain ⟨hcoefficient', hplaces'⟩ := of_make? hsmaller
        rw [hfit, Option.map_some, Option.map_some, Option.some_inj, value_eq_iff, hcoefficient,
          hplaces, hcoefficient', hplaces', pow_add]
        ring
      · exact ih (by omega)

/-- The nearest decimal that fits depends on the value only. -/
theorem map_value_fit?_eq {coefficient coefficient' : Int} {places places' : Nat}
    (hvalue : coefficient * 10 ^ places' = coefficient' * 10 ^ places) :
    (fit? coefficient places places).map value =
      (fit? coefficient' places' places').map value := by
  wlog hle : places ≤ places' generalizing coefficient coefficient' places places'
  · exact (this hvalue.symm (by omega)).symm
  obtain ⟨more, hmore⟩ := Nat.exists_eq_add_of_le hle
  have hcoefficient : coefficient' = coefficient * 10 ^ more := by
    rw [hmore, pow_add, mul_comm (10 ^ places), ← mul_assoc] at hvalue
    exact (mul_right_cancel₀ (by positivity) hvalue).symm
  rw [hcoefficient, hmore, map_value_fit?_add coefficient places more more le_rfl]

/-- **A sum by value.** Sides of the same value, added to the same decimal, give sums of the same
value, or none at all. -/
theorem map_value_add?_eq {left left' : Decimal} (right : Decimal) (hvalue : left.value = left'.value) :
    (left.add? right).map value = (left'.add? right).map value := by
  have hzero : left.coefficient = 0 ↔ left'.coefficient = 0 := by
    rw [coefficient_eq_zero_iff, coefficient_eq_zero_iff, hvalue]
  unfold add?
  by_cases hleft : left.coefficient = 0
  · rw [if_pos hleft, if_pos (hzero.mp hleft)]
  · rw [if_neg hleft, if_neg (mt hzero.mpr hleft)]
    by_cases hright : right.coefficient = 0
    · rw [if_pos hright, if_pos hright, Option.map_some, Option.map_some, hvalue]
    · rw [if_neg hright, if_neg hright]
      refine map_value_fit?_eq ?_
      have hsum : ∀ side : Decimal, side.value = left'.value →
          ((side.coefficientAt (max side.places right.places) +
            right.coefficientAt (max side.places right.places) : Int) : ℚ) /
            10 ^ max side.places right.places = left'.value + right.value := by
        intro side hside
        push_cast
        rw [add_div, coefficientAt_div_pow side (le_max_left _ _),
          coefficientAt_div_pow right (le_max_right _ _), hside]
      have heq := (hsum left hvalue).trans (hsum left' rfl).symm
      rw [div_eq_div_iff (by positivity) (by positivity)] at heq
      exact_mod_cast heq

end Decimal

namespace Number

theorem add?_eq_some_iff {left right sum : Number} :
    left.add? right = some sum ↔ ∃ leftDecimal rightDecimal decimal,
      left.decimal? = some leftDecimal ∧ right.decimal? = some rightDecimal ∧
        leftDecimal.add? rightDecimal = some decimal ∧ decimal.toNumber = sum := by
  simp [add?, bind, Option.bind_eq_some_iff]

theorem sub?_eq_some_iff {left right difference : Number} :
    left.sub? right = some difference ↔ ∃ leftDecimal rightDecimal decimal,
      left.decimal? = some leftDecimal ∧ right.decimal? = some rightDecimal ∧
        leftDecimal.sub? rightDecimal = some decimal ∧ decimal.toNumber = difference := by
  simp [sub?, bind, Option.bind_eq_some_iff]

/-- **Equal numbers have equal sums**, if both have decimals. -/
theorem add?_of_beq {left left' amount sum : Number} (hequal : left == left')
    (hsum : left.add? amount = some sum) (hdecimal : left'.decimal?.isSome) :
    ∃ sum', left'.add? amount = some sum' ∧ sum' == sum := by
  obtain ⟨decimal, amountDecimal, total, hleft, hamount, htotal, rfl⟩ := add?_eq_some_iff.mp hsum
  obtain ⟨decimal', hleft'⟩ := Option.isSome_iff_exists.mp hdecimal
  have hvalue := Decimal.map_value_add?_eq amountDecimal ((beq_iff_value_eq hleft hleft').mp hequal)
  rw [htotal, Option.map_some] at hvalue
  obtain ⟨total', htotal', hvalue'⟩ := Option.map_eq_some_iff.mp hvalue.symm
  refine ⟨total'.toNumber, add?_eq_some_iff.mpr
    ⟨decimal', amountDecimal, total', hleft', hamount, htotal', rfl⟩, ?_⟩
  rw [beq_iff, Decimal.scientific_toNumber, Decimal.scientific_toNumber, Decimal.scientific_eq_iff,
    hvalue']

end Number

end JsonEdit
