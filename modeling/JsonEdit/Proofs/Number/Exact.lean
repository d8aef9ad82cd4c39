import JsonEdit.Proofs.Number.Order

/-!
# Numbers are compared by what is written

The value of a number is that of its text: a sign, the digits before and after the point, and a power of
ten. If the exponent is short enough not to be cut off, the normal form of the number has this value. So
numbers with short exponents are compared exactly, however long their digits are.
-/

namespace JsonEdit.Number

def value (number : Number) : ℚ :=
  (if number.negative then -1 else 1) * (number.whole + Digit.fraction number.fraction) *
    10 ^ (number.exponent.map Exponent.value).getD 0

def Short (number : Number) : Prop := ∀ exponent ∈ number.exponent, exponent.Short

variable {number : Number}

theorem value_eq_significand (number : Number) :
    number.value = (if number.negative then -1 else 1) * number.significand * 10 ^ number.scale := by
  rw [value, significand, scale, Digit.fraction, pow10_eq, zpow_sub₀ (by norm_num), zpow_natCast]
  push_cast
  field_simp

theorem Short.boundedExponent_eq (hshort : number.Short) :
    number.exponent.map Scientific.boundedExponent = number.exponent.map Exponent.value :=
  Option.map_congr fun exponent hexponent =>
    Scientific.boundedExponent_of_short (hshort exponent hexponent)

/-- The normal form has the value that is written, as long as the exponent is not cut off. -/
theorem Short.value_scientific (hshort : number.Short) : number.scientific.value = number.value := by
  rw [scientific, Scientific.ofNumber_eq, hshort.boundedExponent_eq, Scientific.value_ofScaled,
    value_eq_significand, scale]

/-- Numbers of one value have one fingerprint, however they are written. -/
theorem fingerprint_eq_of_value_eq {left right : Number} (hleft : left.Short) (hright : right.Short)
    (hvalue : left.value = right.value) : left.fingerprint = right.fingerprint := by
  rw [← hleft.value_scientific, ← hright.value_scientific] at hvalue
  rw [fingerprint, fingerprint,
    Scientific.eq_of_value_eq left.normal_scientific right.normal_scientific hvalue]

/-- **Numbers are compared exactly.** The texts of two numbers with short exponents are read, and the
numbers are in the order of the values that are written, whether both, one or neither has a decimal. If
the values are the same the fingerprints are too. -/
theorem compare_parse?_text {left right : Number} (hleft : left.Short) (hright : right.Short) :
    parse? left.text = some left ∧ parse? right.text = some right ∧
      compare left right = compare left.value right.value ∧
        (left == right ↔ left.value = right.value) ∧
          (left.value = right.value → left.fingerprint = right.fingerprint) := by
  have hcompare := compare_eq_compare_value left right
  rw [hleft.value_scientific, hright.value_scientific] at hcompare
  refine ⟨parse?_eq_some_iff.mpr rfl, parse?_eq_some_iff.mpr rfl, hcompare, ?_,
    fingerprint_eq_of_value_eq hleft hright⟩
  change (compare left right == .eq) = true ↔ left.value = right.value
  rw [beq_iff_eq, hcompare, compare_eq_iff_eq]

/-- One with thirty zeros behind it has no decimal, and a tenth of ten has one. -/
theorem compare_parse?_text_thirty_zeros :
    let long : Number := { whole := 1, fraction := List.replicate 30 0 }
    let tenth : Number :=
      { whole := 10, exponent := some ⟨false, some .minus, [0, 1], List.cons_ne_nil 0 [1]⟩ }
    long.decimal? = none ∧ tenth.decimal?.isSome ∧ long.Short ∧ tenth.Short ∧
      parse? "1.000000000000000000000000000000" = some long ∧ parse? "10e-01" = some tenth ∧
        compare long tenth = .eq ∧ long.fingerprint = tenth.fingerprint := by
  intro long tenth
  have hlong : long.Short := fun exponent hexponent => by cases hexponent
  have htenth : tenth.Short := by
    intro exponent hexponent
    cases hexponent
    unfold Exponent.Short
    decide
  have hvalue : long.value = tenth.value := by
    have hdigits : Digit.fraction long.fraction = 0 := by
      rw [Digit.fraction, Digit.value_replicate_zero, Nat.cast_zero, zero_div]
    rw [value, hdigits]
    norm_num [long, tenth, value, Exponent.value, Digit.value]
  have htext : long.text = "1.000000000000000000000000000000" := by decide +kernel
  have htext' : tenth.text = "10e-01" := by decide +kernel
  obtain ⟨hparse, hparse', hcompare, -, hfingerprint⟩ := compare_parse?_text hlong htenth
  rw [htext] at hparse
  rw [htext'] at hparse'
  exact ⟨decimal?_eq_none_of_long rfl (by decide), by decide +kernel, hlong, htenth, hparse, hparse',
    hcompare.trans (compare_eq_iff_eq.mpr hvalue), hfingerprint hvalue⟩

end JsonEdit.Number
