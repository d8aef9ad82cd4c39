import JsonEdit.Proofs.Number.Alike
import JsonEdit.Proofs.Number.Exact
import Mathlib.Algebra.Order.Field.Basic

/-!
# How exact sums are

A sum of decimals is taken exactly, and then brought down to as many places as its coefficient leaves
room for. While only zeros are given up nothing is lost, so the sum has its exact value whenever there is
a decimal of that value. When there is none the sum is not refused: it is rounded to the nearest decimal
with the places that it keeps, unless not even an integer would fit.
-/

namespace JsonEdit

namespace Decimal

def Holds (value : ℚ) : Prop := ∃ decimal : Decimal, decimal.value = value

theorem value_neg (decimal : Decimal) : decimal.neg.value = -decimal.value := by
  rw [value, value, neg]
  push_cast
  ring

/-! ### Exact sums -/

theorem fit?_self (decimal : Decimal) :
    fit? decimal.coefficient decimal.places decimal.places = some decimal := by
  have hmake := make?_self decimal
  generalize decimal.coefficient = coefficient, decimal.places = places at hmake ⊢
  cases places with
  | zero => rw [fit?, rounded_zero, hmake]
  | succ places => rw [fit?, Nat.sub_self, rounded_zero, hmake]

/-- A value that a decimal has is not rounded. -/
theorem map_value_fit?_of_holds {coefficient : Int} {places : Nat}
    (hholds : Holds ((coefficient : ℚ) / 10 ^ places)) :
    (fit? coefficient places places).map value = some ((coefficient : ℚ) / 10 ^ places) := by
  obtain ⟨decimal, hvalue⟩ := hholds
  have hscaled : coefficient * 10 ^ decimal.places = decimal.coefficient * 10 ^ places := by
    rw [value, div_eq_div_iff (by positivity) (by positivity)] at hvalue
    exact_mod_cast hvalue.symm
  rw [map_value_fit?_eq hscaled, fit?_self, Option.map_some, hvalue]

/-- The coefficients that are added, at the places of both sides, stand for the exact sum. -/
theorem coefficientAt_add_div_pow (left right : Decimal) :
    ((left.coefficientAt (max left.places right.places) +
      right.coefficientAt (max left.places right.places) : Int) : ℚ) /
        10 ^ max left.places right.places = left.value + right.value := by
  push_cast
  rw [add_div, left.coefficientAt_div_pow (le_max_left _ _),
    right.coefficientAt_div_pow (le_max_right _ _)]

/-- A sum that some decimal has exactly is not rounded. -/
theorem map_value_add?_of_holds {left right : Decimal} (hholds : Holds (left.value + right.value)) :
    (left.add? right).map value = some (left.value + right.value) := by
  unfold add?
  split
  · rename_i hzero
    rw [Option.map_some, coefficient_eq_zero_iff.mp hzero, zero_add]
  · split
    · rename_i hzero
      rw [Option.map_some, coefficient_eq_zero_iff.mp hzero, add_zero]
    · rw [← coefficientAt_add_div_pow] at hholds ⊢
      exact map_value_fit?_of_holds hholds

/-! ### Rounded sums -/

/-- A rounded quotient is at most half a unit off. -/
theorem abs_roundedQuotient_sub_le (n : Nat) {d : Nat} (hd : 0 < d) :
    |(roundedQuotient n d : ℚ) - n / d| ≤ 1 / 2 := by
  have hd' : (0 : ℚ) < d := by exact_mod_cast hd
  have hmod := Nat.mod_lt n hd
  have hdiv : (n : ℚ) = d * (n / d : Nat) + (n % d : Nat) := by exact_mod_cast (Nat.div_add_mod n d).symm
  have hbounds : 2 * (n % d : Nat) ≤ d ∧ roundedQuotient n d = n / d ∨
      d ≤ 2 * (n % d : Nat) ∧ roundedQuotient n d = n / d + 1 := by
    simp only [roundedQuotient]
    split
    · omega
    · split <;> omega
  generalize n / d = quotient, n % d = remainder at hmod hdiv hbounds
  rw [hdiv, add_div, mul_div_cancel_left₀ _ hd'.ne']
  have hfraction : (0 : ℚ) ≤ (remainder : ℚ) / d ∧ (remainder : ℚ) / d ≤ 1 := by
    refine ⟨by positivity, (div_le_one hd').mpr ?_⟩
    exact_mod_cast hmod.le
  rcases hbounds with ⟨hhalf, hround⟩ | ⟨hhalf, hround⟩
  · have hbelow : (remainder : ℚ) / d ≤ 1 / 2 := by
      rw [div_le_div_iff₀ hd' (by norm_num)]
      exact_mod_cast (by omega : remainder * 2 ≤ 1 * d)
    rw [hround, abs_le]
    constructor <;> linarith
  · have habove : 1 / 2 ≤ (remainder : ℚ) / d := by
      rw [div_le_div_iff₀ (by norm_num) hd']
      exact_mod_cast (by omega : 1 * d ≤ remainder * 2)
    rw [hround, abs_le]
    push_cast
    constructor <;> linarith

theorem abs_rounded_sub_le (coefficient : Int) (dropped : Nat) :
    |(fit?.rounded coefficient dropped : ℚ) - coefficient / 10 ^ dropped| ≤ 1 / 2 := by
  have hquotient := abs_roundedQuotient_sub_le coefficient.natAbs (d := 10 ^ dropped) (by positivity)
  have hcoefficient : (coefficient : ℚ) = coefficient.sign * (coefficient.natAbs : Nat) := by
    rw [← Int.cast_natCast, ← Int.cast_mul, Int.sign_mul_natAbs]
  have hsign : |(coefficient.sign : ℚ)| ≤ 1 := by
    rcases Int.sign_trichotomy coefficient with hsign | hsign | hsign <;> simp [hsign]
  rw [fit?.rounded, pow10_eq, hcoefficient, Int.cast_mul, Int.cast_natCast, mul_div_assoc, ← mul_sub,
    abs_mul]
  rw [Nat.cast_pow, Nat.cast_ofNat] at hquotient
  calc |(coefficient.sign : ℚ)| * |(roundedQuotient coefficient.natAbs (10 ^ dropped) : ℚ) -
          (coefficient.natAbs : Nat) / 10 ^ dropped| ≤
        1 * |(roundedQuotient coefficient.natAbs (10 ^ dropped) : ℚ) -
          (coefficient.natAbs : Nat) / 10 ^ dropped| := by gcongr
    _ ≤ 1 / 2 := by rwa [one_mul]

/-- A fitted coefficient is rounded at the places that it keeps. -/
theorem of_fit? {coefficient : Int} {places kept : Nat} {decimal : Decimal}
    (hfit : fit? coefficient places kept = some decimal) :
    decimal.places ≤ kept ∧
      decimal.coefficient = fit?.rounded coefficient (places - decimal.places) := by
  induction kept with
  | zero =>
      obtain ⟨hcoefficient, hplaces⟩ := of_make? hfit
      rw [hplaces]
      exact ⟨le_rfl, hcoefficient⟩
  | succ kept ih =>
      rw [fit?] at hfit
      split at hfit
      · rename_i hmake
        cases hfit
        obtain ⟨hcoefficient, hplaces⟩ := of_make? hmake
        rw [hplaces]
        exact ⟨le_rfl, hcoefficient⟩
      · obtain ⟨hplaces, hcoefficient⟩ := ih hfit
        exact ⟨by omega, hcoefficient⟩

/-- A sum is at most half a unit of its last place off. -/
theorem abs_value_add?_sub_le {left right total : Decimal} (htotal : left.add? right = some total) :
    |total.value - (left.value + right.value)| ≤ 1 / 2 / 10 ^ total.places := by
  unfold add? at htotal
  split at htotal
  · rename_i hzero
    cases htotal
    rw [coefficient_eq_zero_iff.mp hzero, zero_add, sub_self, abs_zero]
    positivity
  · split at htotal
    · rename_i hzero
      cases htotal
      rw [coefficient_eq_zero_iff.mp hzero, add_zero, sub_self, abs_zero]
      positivity
    · obtain ⟨hplaces, hcoefficient⟩ := of_fit? htotal
      rw [← coefficientAt_add_div_pow]
      generalize left.coefficientAt _ + right.coefficientAt _ = coefficient at hcoefficient ⊢
      generalize max left.places right.places = places at hplaces hcoefficient ⊢
      obtain ⟨dropped, rfl⟩ := Nat.exists_eq_add_of_le hplaces
      rw [Nat.add_sub_cancel_left] at hcoefficient
      have hrounded := abs_rounded_sub_le coefficient dropped
      have hdifference : total.value - (coefficient : ℚ) / 10 ^ (total.places + dropped) =
          ((fit?.rounded coefficient dropped : ℚ) - coefficient / 10 ^ dropped) /
            10 ^ total.places := by
        rw [value, hcoefficient, pow_add]
        field_simp
      rw [hdifference, abs_div, abs_of_pos (a := (10 : ℚ) ^ total.places) (by positivity)]
      gcongr

end Decimal

namespace Number

variable {number left right : Number} {decimal : Decimal}

theorem short_of_decimal? (hdecimal : number.decimal? = some decimal) : number.Short := by
  intro exponent hexponent
  rw [Option.mem_def] at hexponent
  rw [decimal?, hexponent] at hdecimal
  obtain ⟨reduced, -, hshifted⟩ := Option.bind_eq_some_iff.mp hdecimal
  exact short_of_natAbs_le (of_shiftedDecimal? hshifted).1

/-- A number that has a decimal has its value. -/
theorem value_of_decimal? (hdecimal : number.decimal? = some decimal) :
    number.value = decimal.value := by
  rw [← (short_of_decimal? hdecimal).value_scientific, scientific_of_decimal? hdecimal,
    Decimal.value_scientific]

/-- A decimal is written with its value. -/
theorem value_toNumber (decimal : Decimal) : decimal.toNumber.value = decimal.value :=
  value_of_decimal? decimal.decimal?_toNumber

theorem length_fraction_toNumber (decimal : Decimal) :
    decimal.toNumber.fraction.length = decimal.places :=
  Digit.length_lastDigits decimal.places decimal.coefficient.natAbs

/-- What an operation on decimals gives is of a certain value exactly if it can be of that value. -/
theorem exists_value_eq_iff {operation : Decimal → Decimal → Option Decimal}
    {result : Option Number} {exact : ℚ}
    (hresult : ∀ number, result = some number ↔ ∃ leftDecimal rightDecimal decimal,
      left.decimal? = some leftDecimal ∧ right.decimal? = some rightDecimal ∧
        operation leftDecimal rightDecimal = some decimal ∧ decimal.toNumber = number)
    (hholds : ∀ leftDecimal rightDecimal, left.decimal? = some leftDecimal →
      right.decimal? = some rightDecimal → Decimal.Holds exact →
        (operation leftDecimal rightDecimal).map Decimal.value = some exact) :
    (∃ number, result = some number ∧ number.value = exact) ↔
      left.decimal?.isSome ∧ right.decimal?.isSome ∧ Decimal.Holds exact := by
  constructor
  · rintro ⟨number, hnumber, hvalue⟩
    obtain ⟨leftDecimal, rightDecimal, decimal, hleft, hright, -, rfl⟩ := (hresult number).mp hnumber
    refine ⟨by rw [hleft]; rfl, by rw [hright]; rfl, decimal, ?_⟩
    rw [← hvalue, value_toNumber]
  · rintro ⟨hleft, hright, hexact⟩
    obtain ⟨leftDecimal, hleft⟩ := Option.isSome_iff_exists.mp hleft
    obtain ⟨rightDecimal, hright⟩ := Option.isSome_iff_exists.mp hright
    obtain ⟨decimal, hdecimal, hvalue⟩ :=
      Option.map_eq_some_iff.mp (hholds leftDecimal rightDecimal hleft hright hexact)
    refine ⟨decimal.toNumber, (hresult _).mpr
      ⟨leftDecimal, rightDecimal, decimal, hleft, hright, hdecimal, rfl⟩, ?_⟩
    rw [value_toNumber, hvalue]

/-- **Sums and differences are exact where they can be.** Two numbers have a sum, or a difference, that is
exact if and only if both have a decimal and there is a decimal of the exact value. A sum or difference
that is not exact is at most half a unit of its last place off. -/
theorem add?_exact_iff (left right : Number) :
    ((∃ sum, left.add? right = some sum ∧ sum.value = left.value + right.value) ↔
      left.decimal?.isSome ∧ right.decimal?.isSome ∧ Decimal.Holds (left.value + right.value)) ∧
    ((∃ difference, left.sub? right = some difference ∧
        difference.value = left.value - right.value) ↔
      left.decimal?.isSome ∧ right.decimal?.isSome ∧ Decimal.Holds (left.value - right.value)) ∧
    (∀ sum, left.add? right = some sum →
      |sum.value - (left.value + right.value)| ≤ 1 / 2 / 10 ^ sum.fraction.length) ∧
    ∀ difference, left.sub? right = some difference →
      |difference.value - (left.value - right.value)| ≤ 1 / 2 / 10 ^ difference.fraction.length := by
  refine ⟨exists_value_eq_iff (fun _ => add?_eq_some_iff) ?_,
    exists_value_eq_iff (fun _ => sub?_eq_some_iff) ?_, ?_, ?_⟩
  · intro leftDecimal rightDecimal hleft hright hholds
    rw [value_of_decimal? hleft, value_of_decimal? hright] at hholds ⊢
    exact Decimal.map_value_add?_of_holds hholds
  · intro leftDecimal rightDecimal hleft hright hholds
    rw [value_of_decimal? hleft, value_of_decimal? hright, sub_eq_add_neg, ← Decimal.value_neg]
      at hholds ⊢
    exact Decimal.map_value_add?_of_holds hholds
  · intro sum hsum
    obtain ⟨leftDecimal, rightDecimal, total, hleft, hright, htotal, rfl⟩ := add?_eq_some_iff.mp hsum
    rw [value_of_decimal? hleft, value_of_decimal? hright, value_toNumber, length_fraction_toNumber]
    exact Decimal.abs_value_add?_sub_le htotal
  · intro difference hdifference
    obtain ⟨leftDecimal, rightDecimal, total, hleft, hright, htotal, rfl⟩ :=
      sub?_eq_some_iff.mp hdifference
    rw [value_of_decimal? hleft, value_of_decimal? hright, value_toNumber, length_fraction_toNumber,
      sub_eq_add_neg leftDecimal.value, ← Decimal.value_neg]
    exact Decimal.abs_value_add?_sub_le htotal

/-! ### Ten and the least decimal

Their sum has thirty digits, and no coefficient has more than twenty-nine. -/

theorem value_whole (n count : Nat) :
    value { whole := n, fraction := List.replicate count 0 } = n := by
  simp [value, Digit.fraction]

def least : Number :=
  { whole := 1, exponent := some ⟨false, some .minus, Digit.ofNat 28, Digit.ofNat_ne_nil 28⟩ }

theorem value_least : least.value = 1 / 10 ^ 28 := by
  have hexponent : (least.exponent.map Exponent.value).getD 0 = -28 := by
    simp [least, Exponent.value]
  rw [value, hexponent]
  norm_num [least]

theorem add?_ten_least :
    add? { whole := 10 } least = some { whole := 10, fraction := List.replicate 27 0 } := by
  decide +kernel

/-- A tenth and two tenths are added exactly, and ten and the least decimal are not. -/
theorem add?_exact_iff_least :
    let tenth : Number := { whole := 0, fraction := [1] }
    let fifth : Number := { whole := 0, fraction := [2] }
    let ten : Number := { whole := 10 }
    let rounded : Number := { whole := 10, fraction := List.replicate 27 0 }
    (∃ sum, tenth.add? fifth = some sum ∧ sum.value = tenth.value + fifth.value) ∧
      ten.add? least = some rounded ∧ ¬Decimal.Holds (ten.value + least.value) ∧
        |rounded.value - (ten.value + least.value)| ≤ 1 / 2 / 10 ^ 27 := by
  intro tenth fifth ten rounded
  have hdecimals : tenth.decimal?.isSome ∧ fifth.decimal?.isSome ∧ ten.decimal?.isSome ∧
      least.decimal?.isSome := by decide +kernel
  obtain ⟨htenth, hfifth, hten, hleast⟩ := hdecimals
  refine ⟨(add?_exact_iff tenth fifth).1.mpr ⟨htenth, hfifth, ⟨3, 1, by decide, by decide⟩, ?_⟩,
    add?_ten_least, fun hholds => ?_, (add?_exact_iff ten least).2.2.1 rounded add?_ten_least⟩
  · norm_num [tenth, fifth, value, Decimal.value, Digit.fraction, Digit.value]
  · obtain ⟨sum, hsum, hvalue⟩ := (add?_exact_iff ten least).1.mpr ⟨hten, hleast, hholds⟩
    cases add?_ten_least.symm.trans hsum
    rw [value_whole 10 27, show ten.value = _ from value_whole 10 0, value_least] at hvalue
    norm_num at hvalue

/-- Not every sum that is given is exact. -/
theorem not_forall_add?_exact :
    ¬∀ left right sum : Number, left.add? right = some sum → sum.value = left.value + right.value := by
  intro hexact
  have hvalue := hexact _ _ _ add?_ten_least
  rw [value_whole 10 27, show value { whole := 10 } = _ from value_whole 10 0, value_least] at hvalue
  norm_num at hvalue

end Number

end JsonEdit
