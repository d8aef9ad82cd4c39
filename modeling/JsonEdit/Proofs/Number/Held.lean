import JsonEdit.Json.Printer
import JsonEdit.Proofs.Number.Arithmetic
import JsonEdit.Proofs.Number.Grammar

/-!
# Numbers that are held with their decimals

A number can be held as its text together with its decimal, so that the decimal is not read whenever it is
needed. Text and decimal come from a text, from an integer or from a decimal, and sums and differences are
held again. For a text with an exponent the decimal is read from a mantissa that may have been rounded. It
is kept only if its normal form is that of the text, which is not so if anything has been lost.

So whichever way a number was come by, the text and the decimal are about one value. A reading that is right
where it need not round gives the decimal that numbers have.
-/

namespace JsonEdit

/-- What is read for a significand with a sign and a number of places, exactly or rounded. -/
abbrev Approximation := (negative : Bool) → (significand places : Nat) → Option Decimal

/-- Nothing is rounded if it is enough to drop zeros at the end of the fraction. -/
def Approximation.Faithful (approximate : Approximation) : Prop :=
  ∀ negative significand places decimal,
    Number.reducedDecimal? negative significand places = some decimal →
      approximate negative significand places = some decimal

def Approximation.nearest : Approximation := fun negative significand places =>
  Decimal.fit? (Number.signed negative significand) places places

theorem Approximation.faithful_nearest : nearest.Faithful := by
  intro negative significand places decimal hreduced
  unfold nearest
  induction places generalizing significand with
  | zero =>
      rw [Decimal.fit?, Decimal.rounded_zero]
      exact hreduced
  | succ places ih =>
      rw [Number.reducedDecimal?, Number.plainDecimal?, ← Number.signed] at hreduced
      rw [Decimal.fit?, Nat.sub_self, Decimal.rounded_zero]
      split at hreduced
      · exact hreduced
      · split at hreduced
        · rename_i hzero
          have hsignificand : Number.signed negative significand =
              Number.signed negative (significand / 10) * 10 ^ 1 := by
            unfold Number.signed
            split <;> omega
          rw [hsignificand, Decimal.fit?_mul_pow _ _ _ _ le_rfl]
          exact ih _ hreduced
        · cases hreduced

variable {approximate : Approximation}

namespace Number

variable {number : Number} {decimal shifted : Decimal} {negative : Bool} {significand places : Nat}

theorem value_of_shiftedDecimal? {exponent : Int}
    (hshifted : shiftedDecimal? decimal exponent = some shifted) :
    shifted.value = decimal.value * 10 ^ exponent := by
  obtain ⟨-, count, hcoefficient, hplaces⟩ := of_shiftedDecimal? hshifted
  have hexponent : exponent = count - shifted.places + decimal.places := by omega
  rw [Decimal.value, Decimal.value, hcoefficient, hexponent, zpow_add₀ (by norm_num),
    zpow_sub₀ (by norm_num), zpow_natCast, zpow_natCast, zpow_natCast]
  push_cast
  field_simp

theorem natAbs_signed (negative : Bool) (significand : Nat) :
    (signed negative significand).natAbs = significand := by
  unfold signed
  split <;> omega

theorem exists_plainDecimal? (negative : Bool) (hsignificand : significand < pow2 96)
    (hplaces : places ≤ 28) : ∃ plain, plainDecimal? negative significand places = some plain :=
  Decimal.exists_make? ((natAbs_signed negative significand).symm ▸ hsignificand) hplaces

/-- If a decimal is equal to a significand with places, up to the sign, then enough zeros can be dropped. -/
theorem exists_reducedDecimal?_of_mul_eq (negative : Bool)
    (hscaled : decimal.coefficient.natAbs * 10 ^ places = significand * 10 ^ decimal.places) :
    ∃ reduced, reducedDecimal? negative significand places = some reduced := by
  have hlimit := decimal.coefficient_lt
  have hplaces := decimal.places_le
  induction places generalizing significand with
  | zero =>
      have hle : significand ≤ decimal.coefficient.natAbs :=
        calc significand ≤ significand * 10 ^ decimal.places := Nat.le_mul_of_pos_right _ (by positivity)
          _ = decimal.coefficient.natAbs := by rw [← hscaled, pow_zero, mul_one]
      exact exists_plainDecimal? negative (hle.trans_lt hlimit) (Nat.zero_le _)
  | succ places ih =>
      rw [reducedDecimal?]
      rcases Nat.lt_or_ge places decimal.places with hmore | hfewer
      · -- the decimal has all the places, so they need not be dropped
        obtain ⟨extra, hextra⟩ := Nat.exists_eq_add_of_lt hmore
        have hpower : significand * 10 ^ decimal.places = significand * 10 ^ extra * 10 ^ (places + 1) := by
          rw [hextra]
          ring
        have hcoefficient : decimal.coefficient.natAbs = significand * 10 ^ extra :=
          Nat.eq_of_mul_eq_mul_right (by positivity) (hscaled.trans hpower)
        have hle : significand ≤ decimal.coefficient.natAbs := by
          rw [hcoefficient]
          exact Nat.le_mul_of_pos_right _ (by positivity)
        obtain ⟨plain, hplain⟩ := exists_plainDecimal? negative (hle.trans_lt hlimit)
          ((Nat.succ_le_of_lt hmore).trans hplaces)
        rw [hplain]
        exact ⟨plain, rfl⟩
      · -- the last place is a zero
        obtain ⟨extra, rfl⟩ := Nat.exists_eq_add_of_le hfewer
        have hpower : decimal.coefficient.natAbs * 10 ^ (decimal.places + extra + 1) =
            decimal.coefficient.natAbs * 10 ^ extra * 10 * 10 ^ decimal.places := by ring
        have hsignificand : significand = decimal.coefficient.natAbs * 10 ^ extra * 10 :=
          Nat.eq_of_mul_eq_mul_right (by positivity) (hscaled.symm.trans hpower)
        split
        · exact ⟨_, rfl⟩
        · rw [hsignificand, if_pos (Nat.mul_mod_left _ _), Nat.mul_div_cancel _ (by norm_num)]
          apply ih
          rw [pow_add]
          ring

theorem exists_reducedDecimal?
    (hvalue : decimal.value = (signed negative significand : ℚ) / 10 ^ places) :
    ∃ reduced, reducedDecimal? negative significand places = some reduced := by
  apply exists_reducedDecimal?_of_mul_eq
  have hscaled : decimal.coefficient * 10 ^ places =
      signed negative significand * 10 ^ decimal.places := by
    rw [Decimal.value, div_eq_div_iff (by positivity) (by positivity)] at hvalue
    exact_mod_cast hvalue
  have habs := congrArg Int.natAbs hscaled
  rwa [Int.natAbs_mul, Int.natAbs_mul, Int.natAbs_pow, Int.natAbs_pow, natAbs_signed] at habs

/-- The decimal that is read for a number; with an exponent, the mantissa may have been rounded. -/
def readDecimal? (approximate : Approximation) (number : Number) : Option Decimal :=
  match number.exponent with
  | none => plainDecimal? number.negative number.significand number.fraction.length
  | some exponent =>
    (approximate number.negative number.significand number.fraction.length).bind
      (shiftedDecimal? · exponent.value)

def checkedDecimal? (approximate : Approximation) (number : Number) : Option Decimal :=
  (number.readDecimal? approximate).filter fun decimal =>
    decimal.toNumber.scientific = number.scientific

theorem checkedDecimal?_eq_some_iff :
    number.checkedDecimal? approximate = some decimal ↔
      number.readDecimal? approximate = some decimal ∧ decimal.toNumber.scientific = number.scientific := by
  rw [checkedDecimal?, Option.filter_eq_some_iff, decide_eq_true_eq]

/-- No exponent that is too long for the normal form is read. -/
theorem short_of_readDecimal? (hread : number.readDecimal? approximate = some decimal) : number.Short := by
  intro exponent hexponent
  rw [Option.mem_def] at hexponent
  rw [readDecimal?, hexponent] at hread
  obtain ⟨rounded, -, hshifted⟩ := Option.bind_eq_some_iff.mp hread
  exact short_of_natAbs_le (of_shiftedDecimal? hshifted).1

/-- **A decimal that has been rounded is rejected**, whatever the mantissa was rounded to. -/
theorem value_of_checkedDecimal? (hchecked : number.checkedDecimal? approximate = some decimal) :
    decimal.value = number.value := by
  obtain ⟨hread, hscientific⟩ := checkedDecimal?_eq_some_iff.mp hchecked
  calc decimal.value = decimal.scientific.value := decimal.value_scientific.symm
    _ = number.scientific.value := by rw [← Decimal.scientific_toNumber, hscientific]
    _ = number.value := (short_of_readDecimal? hread).value_scientific

theorem value_eq_signed {exponent : Exponent} (hexponent : number.exponent = some exponent) :
    number.value = signed number.negative number.significand / 10 ^ number.fraction.length *
      10 ^ exponent.value := by
  have hsigned : (signed number.negative number.significand : ℚ) =
      (if number.negative then -1 else 1) * number.significand := by
    unfold signed
    cases number.negative <;> simp
  rw [value_eq_significand, scale, hexponent, Option.map_some, Option.getD_some, hsigned,
    zpow_sub₀ (by norm_num), zpow_natCast]
  field_simp

theorem readDecimal?_of_decimal? (hfaithful : approximate.Faithful)
    (hdecimal : number.decimal? = some decimal) : number.readDecimal? approximate = some decimal := by
  unfold decimal? at hdecimal
  unfold readDecimal?
  cases hexponent : number.exponent with
  | none =>
      rw [hexponent] at hdecimal
      exact hdecimal
  | some exponent =>
      rw [hexponent] at hdecimal
      obtain ⟨reduced, hreduced, hshifted⟩ := Option.bind_eq_some_iff.mp hdecimal
      simp only
      rw [hfaithful _ _ _ _ hreduced, Option.bind_some, hshifted]

/-- A mantissa that had to be rounded does not come to the value that is written, and so a decimal is read
that has the value only if it is the decimal of the number. -/
theorem decimal?_of_checkedDecimal? (hfaithful : approximate.Faithful)
    (hchecked : number.checkedDecimal? approximate = some decimal) : number.decimal? = some decimal := by
  have hvalue := value_of_checkedDecimal? hchecked
  obtain ⟨hread, -⟩ := checkedDecimal?_eq_some_iff.mp hchecked
  unfold readDecimal? at hread
  unfold decimal?
  cases hexponent : number.exponent with
  | none =>
      rw [hexponent] at hread
      exact hread
  | some exponent =>
      rw [hexponent] at hread
      obtain ⟨mantissa, hmantissa, hshifted⟩ := Option.bind_eq_some_iff.mp hread
      rw [value_of_shiftedDecimal? hshifted, value_eq_signed hexponent] at hvalue
      have hpower : (10 : ℚ) ^ exponent.value ≠ 0 := by positivity
      obtain ⟨reduced, hreduced⟩ := exists_reducedDecimal? (mul_right_cancel₀ hpower hvalue)
      rw [hfaithful _ _ _ _ hreduced] at hmantissa
      cases hmantissa
      simp only
      rw [hreduced, Option.bind_some, hshifted]

/-- **The check leaves exactly the decimals of numbers**, if nothing is rounded without need. -/
theorem checkedDecimal?_eq (hfaithful : approximate.Faithful) (number : Number) :
    number.checkedDecimal? approximate = number.decimal? := by
  ext decimal
  constructor
  · intro hchecked
    exact decimal?_of_checkedDecimal? hfaithful hchecked
  · intro hdecimal
    rw [checkedDecimal?_eq_some_iff]
    refine ⟨readDecimal?_of_decimal? hfaithful hdecimal, ?_⟩
    rw [Decimal.scientific_toNumber, scientific_of_decimal? hdecimal]

end Number

/-- A number as it is held: its text and, if it has one, its decimal. -/
structure Held where
  text : String
  decimal? : Option Decimal
  deriving DecidableEq

namespace Held

open Number

def of (number : Number) : Held := ⟨number.text, number.decimal?⟩

@[simp]
theorem decimal?_of (number : Number) : (of number).decimal? = number.decimal? := rfl

def ofText? (approximate : Approximation) (text : String) : Option Held :=
  (parse? text).map fun number => ⟨text, number.checkedDecimal? approximate⟩

def ofInteger (n : Int) : Held := ⟨(ofInt n).text, plainDecimal? (n < 0) n.natAbs 0⟩

def ofDecimal (decimal : Decimal) : Held := ⟨decimal.toNumber.text, some decimal⟩

def combine? (operation : Decimal → Decimal → Option Decimal) (left right : Held) : Option Held := do
  return ofDecimal (← operation (← left.decimal?) (← right.decimal?))

def add? : Held → Held → Option Held := combine? Decimal.add?

def sub? : Held → Held → Option Held := combine? Decimal.sub?

def compare? (left right : Held) : Option Ordering :=
  match left.decimal?, right.decimal? with
  | some leftDecimal, some rightDecimal => some (compare leftDecimal rightDecimal)
  | _, _ => do
    return compare (← parse? left.text).scientific (← parse? right.text).scientific

def print? (held : Held) : Option String := (parse? held.text).map fun number => number.normal.text

/-- Some texts, integers and decimals lead to this number, by sums and differences. -/
inductive Obtained (approximate : Approximation) : Held → Prop
  | text {text : String} {held : Held} (hread : ofText? approximate text = some held) :
    Obtained approximate held
  | integer (kind : IntegerKind) (n : kind.Value) : Obtained approximate (ofInteger n.val)
  | decimal (decimal : Decimal) : Obtained approximate (ofDecimal decimal)
  | add {left right sum : Held} (hleft : Obtained approximate left) (hright : Obtained approximate right)
      (hsum : left.add? right = some sum) : Obtained approximate sum
  | sub {left right difference : Held} (hleft : Obtained approximate left)
      (hright : Obtained approximate right) (hdifference : left.sub? right = some difference) :
    Obtained approximate difference

/-- The text is read as the number, and the decimal, if there is one, has the value of the number. -/
structure Represents (held : Held) (number : Number) : Prop where
  parse?_text : parse? held.text = some number
  value_decimal : ∀ decimal ∈ held.decimal?, decimal.value = number.value

variable {held other : Held} {number : Number}

/-! ### Where numbers come from -/

theorem represents_of (number : Number) : (of number).Represents number := by
  refine ⟨parse?_eq_some_iff.mpr rfl, ?_⟩
  intro decimal hdecimal
  exact (value_of_decimal? hdecimal).symm

theorem ofDecimal_eq (decimal : Decimal) : ofDecimal decimal = of decimal.toNumber := by
  rw [ofDecimal, of, Decimal.decimal?_toNumber]

theorem ofInteger_eq (n : Int) : ofInteger n = of (ofInt n) := by
  have hdecimal : (ofInt n).decimal? = plainDecimal? (n < 0) (n.natAbs * pow10 0 + 0) 0 := rfl
  rw [ofInteger, of, hdecimal, pow10_eq, pow_zero, mul_one, add_zero]

/-- The operations on numbers that are held are those on numbers. -/
theorem combine?_of (operation : Decimal → Decimal → Option Decimal) (left right : Number) :
    (of left).combine? operation (of right) =
      (do return (← operation (← left.decimal?) (← right.decimal?)).toNumber : Option Number).map of := by
  simp only [combine?, ofDecimal_eq, decimal?_of]
  cases left.decimal? with
  | none => rfl
  | some leftDecimal =>
      cases right.decimal? with
      | none => rfl
      | some rightDecimal =>
          simp only [Option.bind_eq_bind, Option.bind_some, Option.map_bind]
          rfl

theorem add?_of (left right : Number) : (of left).add? (of right) = (left.add? right).map of :=
  combine?_of Decimal.add? left right

theorem sub?_of (left right : Number) : (of left).sub? (of right) = (left.sub? right).map of :=
  combine?_of Decimal.sub? left right

theorem compare?_of (left right : Number) :
    (of left).compare? (of right) = some (compare left right) := by
  change _ = some (left.compare right)
  rw [compare?, Number.compare, (represents_of left).parse?_text, (represents_of right).parse?_text]
  simp only [decimal?_of]
  cases left.decimal? <;> cases right.decimal? <;> rfl

theorem exists_of_combine? {operation : Decimal → Decimal → Option Decimal} {left right : Held}
    (hcombine : combine? operation left right = some held) :
    ∃ decimal, held = of (Decimal.toNumber decimal) := by
  obtain ⟨leftDecimal, -, hcombine⟩ := Option.bind_eq_some_iff.mp hcombine
  obtain ⟨rightDecimal, -, hcombine⟩ := Option.bind_eq_some_iff.mp hcombine
  obtain ⟨decimal, -, hcombine⟩ := Option.bind_eq_some_iff.mp hcombine
  cases hcombine
  exact ⟨decimal, ofDecimal_eq decimal⟩

theorem ofText?_eq (hfaithful : approximate.Faithful) (text : String) :
    ofText? approximate text = (parse? text).map of := by
  apply Option.map_congr
  intro number hparse
  rw [of, checkedDecimal?_eq hfaithful, parse?_eq_some_iff.mp hparse]

theorem represents_of_ofText? {text : String} (hread : ofText? approximate text = some held) :
    ∃ number, held.Represents number ∧ (approximate.Faithful → held = of number) := by
  obtain ⟨number, hparse, rfl⟩ := Option.map_eq_some_iff.mp hread
  refine ⟨number, ⟨hparse, fun decimal => value_of_checkedDecimal?⟩, ?_⟩
  intro hfaithful
  rw [ofText?_eq hfaithful, hparse, Option.map_some] at hread
  exact (Option.some.inj hread).symm

/-- **A number that was obtained in any way stands for what its text writes.** -/
theorem Obtained.represents (hobtained : Obtained approximate held) :
    ∃ number, held.Represents number ∧ (approximate.Faithful → held = of number) := by
  cases hobtained with
  | text hread => exact represents_of_ofText? hread
  | integer kind n => exact ⟨_, ofInteger_eq n.val ▸ represents_of _, fun _ => ofInteger_eq n.val⟩
  | decimal decimal =>
      exact ⟨_, ofDecimal_eq decimal ▸ represents_of _, fun _ => ofDecimal_eq decimal⟩
  | add hleft hright hsum =>
      obtain ⟨decimal, rfl⟩ := exists_of_combine? hsum
      exact ⟨_, represents_of _, fun _ => rfl⟩
  | sub hleft hright hdifference =>
      obtain ⟨decimal, rfl⟩ := exists_of_combine? hdifference
      exact ⟨_, represents_of _, fun _ => rfl⟩

/-! ### What they are used for -/

/-- Whether decimals or texts are compared, numbers that are held for one number are equal. -/
theorem Represents.compare?_eq (hheld : held.Represents number) (hother : other.Represents number) :
    held.compare? other = some .eq := by
  unfold compare?
  split
  · rename_i decimal decimal' hdecimal hdecimal'
    have hvalue : decimal.value = decimal'.value :=
      calc decimal.value = number.value := hheld.value_decimal decimal hdecimal
        _ = decimal'.value := (hother.value_decimal decimal' hdecimal').symm
    rw [(Decimal.compares_value decimal decimal').eq_eq.mpr hvalue]
  · rw [hheld.parse?_text, hother.parse?_text]
    exact congrArg some
      ((Scientific.compare_eq_iff number.proper_scientific number.proper_scientific).mpr rfl)

/-- A held number is printed as the number it stands for. -/
theorem Represents.print?_eq (hheld : held.Represents number) :
    held.print? = some (Json.compactText (.number number)) := by
  rw [print?, hheld.parse?_text]
  rfl

/-- The text of a held number is read as the same number again. -/
theorem Represents.ofText? (approximate : Approximation) (hheld : held.Represents number) :
    ∃ again, Held.ofText? approximate held.text = some again ∧ again.text = held.text ∧
      again.Represents number := by
  refine ⟨⟨held.text, number.checkedDecimal? approximate⟩, ?_, rfl, hheld.parse?_text, ?_⟩
  · rw [Held.ofText?, hheld.parse?_text, Option.map_some]
  · exact fun decimal => value_of_checkedDecimal?

/-- **The text and the decimal of a number are about one value**, whichever way the number was come by, and
whatever mantissas are rounded to. The text is that of a number, so it can always be written out, and it is
read as a number of the same text that is equal. If nothing is rounded without need, the number is held with
the decimal that it has. -/
theorem Obtained.represents_and_reads_back (hobtained : Obtained approximate held) :
    held.text.toList ∈ Grammar.number.matches' ∧
      ∃ number, held.Represents number ∧ held.print? = some (Json.compactText (.number number)) ∧
        (∃ again, ofText? approximate held.text = some again ∧ again.text = held.text ∧
          again.Represents number ∧ again.compare? held = some .eq) ∧
        (approximate.Faithful → held = of number) := by
  obtain ⟨number, hrepresents, hfaithful⟩ := hobtained.represents
  obtain ⟨again, hread, htext, hagain⟩ := hrepresents.ofText? approximate
  refine ⟨?_, number, hrepresents, hrepresents.print?_eq, ⟨again, hread, htext, hagain, ?_⟩, hfaithful⟩
  · rw [← Grammar.isSome_parse?_iff, hrepresents.parse?_text]
    rfl
  · exact hagain.compare?_eq hrepresents

/-- Of two mantissas the first one fits, and the second one has to be rounded. -/
theorem represents_and_reads_back_seventeen :
    let fifteen : Held := ⟨"1.50e1", some ⟨150, 1, by decide, by decide⟩⟩
    let seventeen : Held := ⟨"17.0", some ⟨170, 1, by decide, by decide⟩⟩
    let long : Held := ⟨"0.12345678901234567890123456789012e1", none⟩
    ofText? .nearest "1.50e1" = some fifteen ∧ fifteen.add? (ofInteger 2) = some seventeen ∧
      ofText? .nearest "0.12345678901234567890123456789012e1" = some long ∧
      (∃ number, seventeen.Represents number ∧
        seventeen.print? = some (Json.compactText (.number number)) ∧ seventeen = of number) ∧
      ∃ again, ofText? .nearest long.text = some again ∧ again.compare? long = some .eq := by
  intro fifteen seventeen long
  have hfifteen : ofText? .nearest "1.50e1" = some fifteen := by decide +kernel
  have hsum : fifteen.add? (ofInteger 2) = some seventeen := by decide +kernel
  have hlong : ofText? .nearest "0.12345678901234567890123456789012e1" = some long := by
    decide +kernel
  have hobtained : Obtained .nearest seventeen := .add (.text hfifteen) (.integer .u8 ⟨2, by decide⟩) hsum
  obtain ⟨-, number, hrepresents, hprint, -, hfaithful⟩ := hobtained.represents_and_reads_back
  have hnumber : seventeen = of number := hfaithful Approximation.faithful_nearest
  obtain ⟨-, -, -, -, ⟨again, hread, -, -, hequal⟩, -⟩ :=
    (Obtained.text hlong).represents_and_reads_back
  exact ⟨hfifteen, hsum, hlong, ⟨number, hrepresents, hprint, hnumber⟩, again, hread, hequal⟩

end Held

end JsonEdit
