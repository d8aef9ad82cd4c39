import JsonEdit.Proofs.Number.Sum

/-!
# Numbers that can stand for one another

Numbers are added by their decimals, so equal numbers have equal sums only if both have a decimal or
neither has one. Then they can stand for one another, and so can their sums. A number whose decimal shows
that it is an integer can always be replaced by the integer, written without a point or an exponent.
-/

namespace JsonEdit

namespace Decimal

/-! ### Decimals and integers as numbers -/

/-- What a decimal writes has that decimal. -/
theorem decimal?_toNumber (decimal : Decimal) : decimal.toNumber.decimal? = some decimal := by
  have hcoefficient : Number.signed (decimal.coefficient < 0) decimal.coefficient.natAbs =
      decimal.coefficient := by
    unfold Number.signed
    by_cases hnegative : decimal.coefficient < 0
    · rw [if_pos (decide_eq_true hnegative)]
      omega
    · rw [if_neg (by simpa using hnegative)]
      omega
  have hplaces : decimal.toNumber.fraction.length = decimal.places :=
    Digit.length_lastDigits decimal.places decimal.coefficient.natAbs
  have hplain : decimal.toNumber.decimal? =
      make? (Number.signed (decimal.coefficient < 0) decimal.toNumber.significand)
        decimal.toNumber.fraction.length := rfl
  rw [hplain, significand_toNumber, hcoefficient, hplaces, make?_self]

/-- A decimal that is known to be an integer has its value, and no larger coefficient is needed. -/
theorem of_integer? {decimal : Decimal} {n : Int} (hinteger : decimal.integer? = some n) :
    decimal.value = n ∧ n.natAbs < pow2 96 := by
  unfold integer? at hinteger
  split at hinteger
  · rename_i hmod
    have hquotient : n * (pow10 decimal.places : Int) = decimal.coefficient := by
      rw [← Option.some.inj hinteger]
      exact Int.tdiv_mul_cancel (Int.natCast_dvd.mpr (Nat.dvd_of_mod_eq_zero hmod))
    constructor
    · rw [value, ← hquotient, pow10_eq]
      push_cast
      field_simp
    · calc n.natAbs ≤ n.natAbs * pow10 decimal.places :=
          Nat.le_mul_of_pos_right _ (by rw [pow10_eq]; positivity)
        _ = decimal.coefficient.natAbs := by rw [← hquotient, Int.natAbs_mul, Int.natAbs_natCast]
        _ < pow2 96 := decimal.coefficient_lt
  · cases hinteger

/-! ### Sums by the values of both sides -/

theorem map_value_add?_comm (left right : Decimal) :
    (left.add? right).map value = (right.add? left).map value := by
  unfold add?
  by_cases hleft : left.coefficient = 0
  · by_cases hright : right.coefficient = 0
    · rw [if_pos hleft, if_pos hright, Option.map_some, Option.map_some,
        coefficient_eq_zero_iff.mp hleft, coefficient_eq_zero_iff.mp hright]
    · rw [if_pos hleft, if_neg hright, if_pos hleft]
  · by_cases hright : right.coefficient = 0
    · rw [if_neg hleft, if_pos hright, if_pos hright]
    · rw [if_neg hleft, if_neg hright, if_neg hright, if_neg hleft, max_comm]
      exact congrArg (fun sum => (fit? sum _ _).map value) (add_comm _ _)

theorem map_value_add?_congr {left left' right right' : Decimal} (hleft : left.value = left'.value)
    (hright : right.value = right'.value) :
    (left.add? right).map value = (left'.add? right').map value :=
  calc (left.add? right).map value = (left'.add? right).map value := map_value_add?_eq right hleft
    _ = (right.add? left').map value := map_value_add?_comm left' right
    _ = (right'.add? left').map value := map_value_add?_eq left' hright
    _ = (left'.add? right').map value := map_value_add?_comm right' left'

end Decimal

theorem IntegerKind.value?_eq_some_iff {kind : IntegerKind} {n : Int} {k : kind.Value} :
    kind.value? n = some k ↔ n = k.val := by
  unfold value?
  constructor
  · intro hfits
    split at hfits
    · exact congrArg Subtype.val (Option.some.inj hfits)
    · cases hfits
  · rintro rfl
    exact dif_pos k.property

namespace Number

theorem ofInt_eq_toNumber {n : Int} (hn : n.natAbs < pow2 96) :
    ofInt n = Decimal.toNumber ⟨n, 0, hn, Nat.zero_le _⟩ := by
  rw [ofInt, Decimal.toNumber, pow10_eq, pow_zero, Nat.div_one]
  rfl

theorem decimal?_ofInt {n : Int} (hn : n.natAbs < pow2 96) :
    (ofInt n).decimal? = some ⟨n, 0, hn, Nat.zero_le _⟩ := by
  rw [ofInt_eq_toNumber hn, Decimal.decimal?_toNumber]

/-- An integer is read back from the number that writes it. -/
theorem integerOf?_ofInt {kind : IntegerKind} {n : Int} (hn : n.natAbs < pow2 96)
    (hfits : kind.holds n) : (ofInt n).integerOf? kind = some ⟨n, hfits⟩ := by
  have hinteger : (ofInt n).integer? = some n := by
    rw [integer?, decimal?_ofInt hn, Option.bind_some, Decimal.integer?, pow10_eq, pow_zero,
      if_pos (Nat.mod_one _), Nat.cast_one, Int.tdiv_one]
  rw [integerOf?, hinteger, Option.bind_some, IntegerKind.value?, dif_pos hfits]

/-! ### Numbers that can stand for one another -/

/-- The numbers are equal, and both have a decimal or neither. -/
def Alike (left right : Number) : Prop :=
  left == right ∧ (left.decimal?.isSome ↔ right.decimal?.isSome)

theorem Alike.refl (number : Number) : Alike number number := ⟨beq_iff.mpr rfl, Iff.rfl⟩

theorem alike_of_value_eq {left right : Number} {leftDecimal rightDecimal : Decimal}
    (hleft : left.decimal? = some leftDecimal) (hright : right.decimal? = some rightDecimal)
    (hvalue : leftDecimal.value = rightDecimal.value) : Alike left right := by
  refine ⟨(beq_iff_value_eq hleft hright).mpr hvalue, ?_⟩
  rw [hleft, hright]
  exact Iff.rfl

/-- An integer that a number is equal to can stand for it. -/
theorem alike_ofInt {number : Number} {kind : IntegerKind} {n : kind.Value}
    (hinteger : number.integerOf? kind = some n) : Alike number (.ofInt n.val) := by
  obtain ⟨m, hm, hfits⟩ := Option.bind_eq_some_iff.mp hinteger
  obtain ⟨decimal, hdecimal, hdecimalInteger⟩ := Option.bind_eq_some_iff.mp hm
  have hval : n.val = m := (IntegerKind.value?_eq_some_iff.mp hfits).symm
  obtain ⟨hvalue, hbound⟩ := Decimal.of_integer? hdecimalInteger
  rw [hval]
  refine alike_of_value_eq hdecimal (decimal?_ofInt hbound) ?_
  rw [hvalue, Decimal.value, pow_zero, div_one]

/-- Related numbers have related sums, or none. -/
def Additive (related : Number → Number → Prop) : Prop :=
  ∀ ⦃left left' right right' : Number⦄, related left left' → related right right' →
    Option.Rel related (left.add? right) (left'.add? right')

/-- Either both numbers have decimals, of the same value, or neither has one. -/
theorem Alike.decimals {left right : Number} (halike : Alike left right) :
    Option.Rel (fun decimal other => Decimal.value decimal = other.value) left.decimal?
      right.decimal? := by
  obtain ⟨hequal, hsome⟩ := halike
  cases hleft : left.decimal? with
  | none =>
      have hright : right.decimal? = none := by simpa [hleft] using hsome
      rw [hright]
      exact .none
  | some decimal =>
      obtain ⟨other, hright⟩ : ∃ other, right.decimal? = some other := by
        simpa [hleft, Option.isSome_iff_exists] using hsome
      rw [hright]
      exact .some ((beq_iff_value_eq hleft hright).mp hequal)

/-- **Numbers that can stand for one another have sums that can.** -/
theorem additive_alike : Additive Alike := by
  intro left left' right right' hleft hright
  have hsides := hleft.decimals
  have hamounts := hright.decimals
  unfold add?
  generalize left.decimal? = side, left'.decimal? = side' at hsides
  generalize right.decimal? = amount, right'.decimal? = amount' at hamounts
  cases hsides with
  | none => exact .none
  | @some side side' hside =>
      cases hamounts with
      | none => exact .none
      | @some amount amount' hamount =>
          have htotal := Decimal.map_value_add?_congr hside hamount
          change Option.Rel Alike ((side.add? amount).bind fun total => some total.toNumber)
            ((side'.add? amount').bind fun total => some total.toNumber)
          generalize side.add? amount = total, side'.add? amount' = total' at htotal
          match total, total' with
          | none, none => exact .none
          | some total, some total' =>
              exact .some (alike_of_value_eq (Decimal.decimal?_toNumber total)
                (Decimal.decimal?_toNumber total') (Option.some.inj htotal))

end Number

end JsonEdit
