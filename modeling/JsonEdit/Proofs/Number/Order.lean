import JsonEdit.Proofs.Number.Decimal
import JsonEdit.Proofs.Number.Reader
import Mathlib.Algebra.Order.Field.Power
import Mathlib.Order.Compare

/-!
# The order of numbers is the order of their values

Scientific forms are compared by sign, exponent and digits. That is the order of the values, because the
digits have no zeros at either end. The first digit then says that a smaller exponent is a smaller value
whatever the digits are, and the last digit says that a digit string is smaller than its continuations.

Two numbers with decimals are compared by these. Decimals and scientific forms have the same values, so
it makes no difference which of the two is compared, and comparing by either is one order.
-/

namespace JsonEdit

namespace Digit

def fraction (digits : List Digit) : ℚ := value digits / 10 ^ digits.length

@[simp]
theorem fraction_nil : fraction [] = 0 := by simp [fraction]

theorem fraction_cons (first : Digit) (rest : List Digit) :
    fraction (first :: rest) = (first.val + fraction rest) / 10 := by
  rw [fraction, fraction, value_cons, List.length_cons, pow_succ]
  push_cast
  field_simp

theorem fraction_nonneg (digits : List Digit) : 0 ≤ fraction digits :=
  div_nonneg (Nat.cast_nonneg _) (by positivity)

theorem fraction_lt_one (digits : List Digit) : fraction digits < 1 := by
  induction digits with
  | nil => simp
  | cons first rest ih =>
      have hfirst : (first.val : ℚ) ≤ 9 := by exact_mod_cast Nat.le_of_lt_succ first.isLt
      rw [fraction_cons]
      linarith

theorem le_fraction {digits : List Digit} (hne : digits ≠ []) (hfirst : digits.head? ≠ some 0) :
    1 / 10 ≤ fraction digits := by
  cases digits with
  | nil => exact absurd rfl hne
  | cons first rest =>
      have hpos : (1 : ℚ) ≤ first.val := by
        have hzero : first ≠ 0 := fun heq => hfirst (congrArg some heq)
        exact_mod_cast Nat.one_le_iff_ne_zero.mpr fun hval => hzero (Fin.ext hval)
      have hrest := fraction_nonneg rest
      rw [fraction_cons]
      linarith

theorem fraction_pos {digits : List Digit} (hne : digits ≠ []) (hlast : digits.getLast? ≠ some 0) :
    0 < fraction digits := by
  induction digits with
  | nil => exact absurd rfl hne
  | cons first rest ih =>
      rw [fraction_cons]
      cases rest with
      | nil =>
          have hzero : first ≠ 0 := fun heq => hlast (congrArg some heq)
          have hpos : (1 : ℚ) ≤ first.val := by
            exact_mod_cast Nat.one_le_iff_ne_zero.mpr fun hval => hzero (Fin.ext hval)
          rw [fraction_nil]
          linarith
      | cons second more =>
          have hpos := ih (List.cons_ne_nil second more) (by rwa [List.getLast?_cons_cons] at hlast)
          have hfirst : (0 : ℚ) ≤ first.val := Nat.cast_nonneg _
          linarith

theorem fraction_cons_lt {first other : Digit} (hlt : first.val < other.val)
    (rest more : List Digit) : fraction (first :: rest) < fraction (other :: more) := by
  have hdigits : (first.val : ℚ) + 1 ≤ other.val := by exact_mod_cast hlt
  have habove := fraction_lt_one rest
  have hbelow := fraction_nonneg more
  rw [fraction_cons, fraction_cons]
  linarith

/-- Digit strings without a zero at the end are compared like the values that they have after a
point. -/
theorem compares_fraction {left right : List Digit} (hleft : left.getLast? ≠ some 0)
    (hright : right.getLast? ≠ some 0) :
    (compare left right).Compares (fraction left) (fraction right) := by
  induction left generalizing right with
  | nil =>
      cases right with
      | nil => rfl
      | cons first rest =>
          rw [fraction_nil]
          exact fraction_pos (List.cons_ne_nil first rest) hright
  | cons first rest ih =>
      cases right with
      | nil =>
          rw [fraction_nil]
          exact fraction_pos (List.cons_ne_nil first rest) hleft
      | cons other more =>
          rw [List.compare_eq_compareLex, List.compareLex_cons_cons, ← List.compare_eq_compareLex]
          cases hfirst : compare first other with
          | lt => exact fraction_cons_lt (Nat.compare_eq_lt.mp hfirst) rest more
          | gt => exact fraction_cons_lt (Nat.compare_eq_gt.mp hfirst) more rest
          | eq =>
              have hmono : StrictMono fun tail : ℚ => (other.val + tail) / 10 := by
                intro lower upper hlt
                simp only
                linarith
              rw [Std.compare_eq_iff_eq.mp hfirst, fraction_cons, fraction_cons]
              exact hmono.compares.mpr (ih (getLast?_tail hleft) (getLast?_tail hright))
where
  getLast?_tail {digit : Digit} {digits : List Digit} (hlast : (digit :: digits).getLast? ≠ some 0) :
      digits.getLast? ≠ some 0 := by
    intro hzero
    rw [List.getLast?_cons, hzero] at hlast
    exact hlast rfl

end Digit

/-! ### Scientific forms -/

namespace Scientific

/-- The form of zero, or digits without a zero at either end. -/
structure Normal (form : Scientific) : Prop where
  proper : form.Proper
  head_ne : form.digits.head? ≠ some 0
  last_ne : form.digits.getLast? ≠ some 0

theorem normal_ofScaled (negative : Bool) (significand : Nat) (scale : Int) :
    (ofScaled negative significand scale).Normal := by
  have hproper := proper_ofScaled negative significand scale
  by_cases hzero : significand = 0
  · rw [ofScaled, if_pos hzero] at hproper ⊢
    exact ⟨hproper, by simp [zero], by simp [zero]⟩
  · rw [ofScaled, if_neg hzero] at hproper ⊢
    obtain ⟨first, rest, hdigits, hfirst⟩ := Digit.exists_ofNat_cons hzero
    obtain ⟨count, hcount⟩ := Digit.exists_dropTrailingZeros_append (Digit.ofNat significand)
    have hne : Digit.dropTrailingZeros (Digit.ofNat significand) ≠ [] :=
      Digit.dropTrailingZeros_ne_nil (by rwa [Digit.value_ofNat])
    have hhead := congrArg List.head? hcount
    rw [List.head?_append_of_ne_nil _ hne, hdigits, List.head?_cons] at hhead
    exact ⟨hproper, by simpa [hdigits, hhead] using hfirst, Digit.getLast?_dropTrailingZeros_ne _⟩

def magnitude (form : Scientific) : ℚ := Digit.fraction form.digits * 10 ^ form.exponent

theorem value_eq (form : Scientific) :
    form.value = (if form.negative then -1 else 1) * form.magnitude := by
  rw [value, magnitude, Digit.fraction, zpow_sub₀ (by norm_num), zpow_natCast]
  ring

variable {left right form : Scientific}

/-- The exponent of a form tells how large its value is. -/
theorem Normal.magnitude_bounds (hform : form.Normal) (hne : form.digits ≠ []) :
    10 ^ (form.exponent - 1) ≤ form.magnitude ∧ form.magnitude < 10 ^ form.exponent := by
  have hpower : (0 : ℚ) < 10 ^ form.exponent := by positivity
  have hlow := Digit.le_fraction hne hform.head_ne
  have hhigh := Digit.fraction_lt_one form.digits
  rw [magnitude, zpow_sub₀ (by norm_num), zpow_one]
  constructor
  · calc (10 : ℚ) ^ form.exponent / 10 = 1 / 10 * 10 ^ form.exponent := by ring
      _ ≤ Digit.fraction form.digits * 10 ^ form.exponent := by gcongr
  · calc Digit.fraction form.digits * 10 ^ form.exponent < 1 * 10 ^ form.exponent := by gcongr
      _ = 10 ^ form.exponent := one_mul _

theorem Normal.magnitude_pos (hform : form.Normal) (hne : form.digits ≠ []) : 0 < form.magnitude :=
  lt_of_lt_of_le (by positivity) (hform.magnitude_bounds hne).1

theorem magnitude_lt_of_exponent_lt (hleft : left.Normal) (hright : right.Normal)
    (hleftNe : left.digits ≠ []) (hrightNe : right.digits ≠ []) (hlt : left.exponent < right.exponent) :
    left.magnitude < right.magnitude :=
  calc left.magnitude < 10 ^ left.exponent := (hleft.magnitude_bounds hleftNe).2
    _ ≤ 10 ^ (right.exponent - 1) := zpow_le_zpow_right₀ (by norm_num) (by omega)
    _ ≤ right.magnitude := (hright.magnitude_bounds hrightNe).1

theorem compares_magnitude (hleft : left.Normal) (hright : right.Normal)
    (hleftNe : left.digits ≠ []) (hrightNe : right.digits ≠ []) :
    (left.compareMagnitude right).Compares left.magnitude right.magnitude := by
  rw [compareMagnitude]
  cases hexponent : Ord.compare left.exponent right.exponent with
  | lt =>
      exact magnitude_lt_of_exponent_lt hleft hright hleftNe hrightNe (compare_lt_iff_lt.mp hexponent)
  | gt =>
      exact magnitude_lt_of_exponent_lt hright hleft hrightNe hleftNe (compare_gt_iff_gt.mp hexponent)
  | eq =>
      have hmono : StrictMono fun fraction : ℚ => fraction * 10 ^ right.exponent :=
        strictMono_mul_right_of_pos (by positivity)
      rw [magnitude, magnitude, compare_eq_iff_eq.mp hexponent]
      exact hmono.compares.mpr (Digit.compares_fraction hleft.last_ne hright.last_ne)

theorem Normal.value_of_sign (hform : form.Normal) :
    form.sign = 0 ∧ form.value = 0 ∨ form.sign = 1 ∧ 0 < form.value ∨
      form.sign = -1 ∧ form.value < 0 := by
  rw [value_eq]
  by_cases hnil : form.digits = []
  · exact .inl ⟨sign_eq_zero_iff.mpr hnil, by simp [magnitude, hnil]⟩
  · have hpos := hform.magnitude_pos hnil
    have hempty : form.digits.isEmpty = false := by simpa using hnil
    rw [sign, hempty]
    cases form.negative <;> simp [hpos]

theorem value_lt_of_sign_lt (hleft : left.Normal) (hright : right.Normal)
    (hlt : left.sign < right.sign) : left.value < right.value := by
  rcases hleft.value_of_sign with ⟨hsign, hvalue⟩ | ⟨hsign, hvalue⟩ | ⟨hsign, hvalue⟩ <;>
    rcases hright.value_of_sign with ⟨hsign', hvalue'⟩ | ⟨hsign', hvalue'⟩ | ⟨hsign', hvalue'⟩ <;>
    first | omega | linarith

/-- **Normal forms are compared by value.** -/
theorem compares_value (hleft : left.Normal) (hright : right.Normal) :
    (Ord.compare left right).Compares left.value right.value := by
  change (left.compare right).Compares left.value right.value
  rw [compare]
  cases hsign : Ord.compare left.sign right.sign with
  | lt => exact value_lt_of_sign_lt hleft hright (compare_lt_iff_lt.mp hsign)
  | gt => exact value_lt_of_sign_lt hright hleft (compare_gt_iff_gt.mp hsign)
  | eq =>
      have hsame := compare_eq_iff_eq.mp hsign
      rw [Ordering.eq_then]
      by_cases hzero : left.sign = 0
      · rw [if_pos hzero, hleft.proper (sign_eq_zero_iff.mp hzero),
          hright.proper (sign_eq_zero_iff.mp (hsame ▸ hzero))]
        rfl
      · have hleftNe := mt sign_eq_zero_iff.mpr hzero
        have hrightNe := mt sign_eq_zero_iff.mpr (hsame ▸ hzero)
        have hmagnitude := compares_magnitude hleft hright hleftNe hrightNe
        rw [if_neg hzero, value_eq, value_eq, ← negative_eq_of_sign_eq hsame hleftNe]
        cases left.negative with
        | false => simpa using hmagnitude
        | true =>
            have hanti : StrictAnti fun magnitude : ℚ => -1 * magnitude := by
              intro lower upper hlt
              simp only
              linarith
            exact hanti.compares.mpr (Ordering.compares_swap.mpr hmagnitude)

theorem eq_of_value_eq (hleft : left.Normal) (hright : right.Normal)
    (hvalue : left.value = right.value) : left = right :=
  (compare_eq_iff hleft.proper hright.proper).mp ((compares_value hleft hright).eq_eq.mpr hvalue)

end Scientific

/-! ### Decimals and numbers -/

theorem Decimal.scientific_eq_iff {left right : Decimal} :
    left.scientific = right.scientific ↔ left.value = right.value := by
  rw [← left.value_scientific, ← right.value_scientific]
  exact ⟨congrArg Scientific.value, Scientific.eq_of_value_eq
    (Scientific.normal_ofScaled _ _ _) (Scientific.normal_ofScaled _ _ _)⟩

theorem Decimal.compares_value (left right : Decimal) :
    (Ord.compare left right).Compares left.value right.value := by
  let places := max left.places right.places
  have hmono : StrictMono fun coefficient : Int => (coefficient : ℚ) / 10 ^ places := by
    intro lower upper hlt
    have hcast : (lower : ℚ) < upper := by exact_mod_cast hlt
    simp only
    gcongr
  rw [← left.coefficientAt_div_pow (le_max_left left.places right.places),
    ← right.coefficientAt_div_pow (le_max_right left.places right.places)]
  exact hmono.compares.mpr ((compare_iff _ _).mp rfl)

namespace Number

theorem normal_scientific (number : Number) : number.scientific.Normal := by
  rw [scientific, Scientific.ofNumber_eq]
  exact Scientific.normal_ofScaled _ _ _

variable {left right : Number}

/-- **Numbers are compared by the values of their forms**, with decimals or without. -/
theorem compares_value (left right : Number) :
    (Ord.compare left right).Compares left.scientific.value right.scientific.value := by
  change (left.compare right).Compares _ _
  unfold Number.compare
  split
  · rename_i hleft hright
    rw [scientific_of_decimal? hleft, scientific_of_decimal? hright, Decimal.value_scientific,
      Decimal.value_scientific]
    exact Decimal.compares_value _ _
  · exact Scientific.compares_value left.normal_scientific right.normal_scientific

/-- **Numbers are ordered by the values of their normal forms**, whether decimals are compared or not. -/
theorem compare_eq_compare_value (left right : Number) :
    Ord.compare left right = Ord.compare left.scientific.value right.scientific.value := by
  rw [← cmp_eq_compare, (compares_value left right).cmp_eq]

instance : Std.TransOrd Number where
  eq_swap {left right} := by
    rw [compare_eq_compare_value, compare_eq_compare_value]
    exact Std.OrientedCmp.eq_swap
  isLE_trans {first second third} := by
    rw [compare_eq_compare_value, compare_eq_compare_value, compare_eq_compare_value]
    exact Std.TransCmp.isLE_trans

/-- It makes no difference whether numbers are compared by their decimals or by their forms. -/
theorem compare_eq_compare_scientific (left right : Number) :
    Ord.compare left right = Ord.compare left.scientific right.scientific :=
  (compares_value left right).inj
    (Scientific.compares_value left.normal_scientific right.normal_scientific)

/-- Numbers are equal if and only if their normal forms are the same. -/
theorem beq_iff : left == right ↔ left.scientific = right.scientific := by
  change (Ord.compare left right == .eq) = true ↔ _
  rw [beq_iff_eq, compare_eq_compare_scientific,
    Scientific.compare_eq_iff left.proper_scientific right.proper_scientific]

/-- Numbers that have decimals are equal exactly when the decimals have the same value. -/
theorem beq_iff_value_eq {leftDecimal rightDecimal : Decimal}
    (hleft : left.decimal? = some leftDecimal) (hright : right.decimal? = some rightDecimal) :
    left == right ↔ leftDecimal.value = rightDecimal.value := by
  rw [beq_iff, scientific_of_decimal? hleft, scientific_of_decimal? hright,
    Decimal.scientific_eq_iff]

end Number

end JsonEdit
