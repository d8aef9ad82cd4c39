import JsonEdit.Proofs.Number.Arithmetic

/-!
# Numbers as integers

A number is narrowed to an integer through its decimal. Whatever the number looks like, the integer that
comes out has its value; and if the number has a decimal, the integer of its value does come out. A number
may have an integer value and no decimal, because it is written with more places or with a larger exponent
than decimals have.
-/

namespace JsonEdit

namespace Decimal

theorem integer?_eq_some_iff {decimal : Decimal} {n : Int} :
    decimal.integer? = some n ↔ decimal.value = n := by
  refine ⟨fun hinteger => (of_integer? hinteger).1, fun hvalue => ?_⟩
  have hcoefficient : decimal.coefficient = n * (pow10 decimal.places : Nat) := by
    rw [value, div_eq_iff (by positivity)] at hvalue
    rw [pow10_eq]
    exact_mod_cast hvalue
  have hpower : 0 < pow10 decimal.places := by
    rw [pow10_eq]
    positivity
  rw [integer?, hcoefficient, Int.natAbs_mul, Int.natAbs_natCast, if_pos (Nat.mul_mod_left _ _),
    Int.mul_tdiv_cancel _ (by omega)]

end Decimal

namespace Number

variable {number other : Number} {kind : IntegerKind}

theorem integer?_eq_some_iff {n : Int} :
    number.integer? = some n ↔ number.decimal?.isSome ∧ number.value = n := by
  rw [integer?, Option.bind_eq_some_iff]
  constructor
  · rintro ⟨decimal, hdecimal, hinteger⟩
    rw [hdecimal, value_of_decimal? hdecimal, ← Decimal.integer?_eq_some_iff]
    exact ⟨rfl, hinteger⟩
  · rintro ⟨hsome, hvalue⟩
    obtain ⟨decimal, hdecimal⟩ := Option.isSome_iff_exists.mp hsome
    rw [value_of_decimal? hdecimal] at hvalue
    exact ⟨decimal, hdecimal, Decimal.integer?_eq_some_iff.mpr hvalue⟩

/-- The integer of a number is exact, and it is found if the number has a decimal. -/
theorem integerOf?_eq_some_iff {k : kind.Value} :
    number.integerOf? kind = some k ↔ number.decimal?.isSome ∧ number.value = k.val := by
  rw [integerOf?, Option.bind_eq_some_iff]
  simp only [IntegerKind.value?_eq_some_iff, exists_eq_right]
  exact integer?_eq_some_iff

/-- **Narrowing is exact for numbers that have decimals.** A number narrows to an integer of a kind if and
only if it has a decimal and this integer is its value. So numbers of one value that both have decimals
narrow alike. -/
theorem integerOf?_exact (kind : IntegerKind) (number : Number) :
    (∀ k : kind.Value,
      number.integerOf? kind = some k ↔ number.decimal?.isSome ∧ number.value = k.val) ∧
    ∀ other : Number, other.value = number.value →
      other.decimal?.isSome = number.decimal?.isSome →
        other.integerOf? kind = number.integerOf? kind := by
  refine ⟨fun k => integerOf?_eq_some_iff, fun other hvalue hsome => ?_⟩
  ext k
  rw [integerOf?_eq_some_iff, integerOf?_eq_some_iff, hvalue, hsome]

/-- One, written with a tenth and an exponent. -/
theorem integerOf?_exact_tenth :
    let one : Number := { whole := 1, fraction := [0] }
    let tenth : Number :=
      { whole := 0, fraction := [1, 0], exponent := some ⟨true, none, [0, 1], List.cons_ne_nil 0 [1]⟩ }
    tenth.text = "0.10E01" ∧ tenth.value = one.value ∧
      tenth.decimal?.isSome = one.decimal?.isSome ∧
        tenth.integerOf? .u64 = one.integerOf? .u64 ∧
          one.integerOf? .u64 = some ⟨1, by decide⟩ := by
  intro one tenth
  have htext : tenth.text = "0.10E01" := by decide +kernel
  have hone : one.value = 1 := by simp [one, value, Digit.fraction, Digit.value]
  have htenth : tenth.value = 1 := by
    have hexponent : (tenth.exponent.map Exponent.value).getD 0 = 1 := rfl
    rw [value, hexponent]
    norm_num [tenth, Digit.fraction, Digit.value]
  have hsome : tenth.decimal?.isSome = true ∧ one.decimal?.isSome = true := by decide +kernel
  refine ⟨htext, htenth.trans hone.symm, hsome.1.trans hsome.2.symm, ?_, ?_⟩
  · exact (integerOf?_exact .u64 one).2 tenth (htenth.trans hone.symm) (hsome.1.trans hsome.2.symm)
  · exact ((integerOf?_exact .u64 one).1 ⟨1, by decide⟩).mpr ⟨hsome.2, by rw [hone]; rfl⟩

/-- One with twenty-nine zeros behind it is an integer, and does not narrow to it. -/
theorem not_forall_integerOf?_exact :
    ¬∀ (number : Number) (k : IntegerKind.i64.Value),
      number.integerOf? .i64 = some k ↔ number.value = k.val := by
  intro hexact
  have hsome := (hexact { whole := 1, fraction := List.replicate 29 0 } ⟨1, by decide⟩).mpr
    (by rw [value_whole]; rfl)
  have hdecimal := (integerOf?_eq_some_iff.mp hsome).1
  rw [decimal?_eq_none_of_long rfl (by decide)] at hdecimal
  cases hdecimal

end Number

end JsonEdit
