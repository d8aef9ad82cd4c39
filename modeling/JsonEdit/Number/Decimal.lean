import JsonEdit.Number.Basic
import JsonEdit.Number.Integer

/-!
# Decimals of limited precision

A decimal is an integer coefficient below `2 ^ 96` in absolute value, divided by a power of ten of at
most 28 places. Many numbers are decimals, and arithmetic is done on decimals only. A number that has
a decimal has exactly its value; a number that would need more digits or more places has none.
-/

namespace JsonEdit

/-- The value `coefficient / 10 ^ places`. -/
structure Decimal where
  coefficient : Int
  places : Nat
  coefficient_lt : coefficient.natAbs < pow2 96
  places_le : places ≤ 28
  deriving DecidableEq

namespace Decimal

def make? (coefficient : Int) (places : Nat) : Option Decimal :=
  if hlimits : coefficient.natAbs < pow2 96 ∧ places ≤ 28 then
    some ⟨coefficient, places, hlimits.1, hlimits.2⟩
  else none

def toNumber (decimal : Decimal) : Number where
  negative := decimal.coefficient < 0
  whole := decimal.coefficient.natAbs / pow10 decimal.places
  fraction := Digit.lastDigits decimal.places decimal.coefficient.natAbs

def integer? (decimal : Decimal) : Option Int :=
  if decimal.coefficient.natAbs % pow10 decimal.places = 0 then
    some (decimal.coefficient.tdiv (pow10 decimal.places))
  else none

/-! ### Arithmetic -/

def neg (decimal : Decimal) : Decimal :=
  { decimal with
    coefficient := -decimal.coefficient
    coefficient_lt := by rw [Int.natAbs_neg]; exact decimal.coefficient_lt }

/-- The quotient `n / d`, rounded to the nearest integer; a half goes to the even one. -/
def roundedQuotient (n d : Nat) : Nat :=
  let quotient := n / d
  let twice := 2 * (n % d)
  if twice < d then quotient
  else if d < twice then quotient + 1
  else quotient + quotient % 2

/-- The decimal nearest to `coefficient / 10 ^ places` with as many of those places as fit. It gives
up the places one by one, rounding the exact value each time. -/
def fit? (coefficient : Int) (places : Nat) : (kept : Nat) → Option Decimal
  | 0 => make? (rounded places) 0
  | kept + 1 =>
    match make? (rounded (places - (kept + 1))) (kept + 1) with
    | some decimal => some decimal
    | none => fit? coefficient places kept
where
  /-- the coefficient without its last `dropped` places -/
  rounded (dropped : Nat) : Int :=
    coefficient.sign * roundedQuotient coefficient.natAbs (pow10 dropped)

def coefficientAt (decimal : Decimal) (places : Nat) : Int :=
  decimal.coefficient * pow10 (places - decimal.places)

/-- Decimals are ordered by value, which shows at a number of places that both can have. -/
instance : Ord Decimal := ⟨fun left right =>
  let places := max left.places right.places
  Ord.compare (left.coefficientAt places) (right.coefficientAt places)⟩

/-- The sum. A side that is zero gives the other side as it is written; otherwise the sum has the
places of the side with more of them, or fewer if its coefficient would be too large. -/
def add? (left right : Decimal) : Option Decimal :=
  if left.coefficient = 0 then some right
  else if right.coefficient = 0 then some left
  else
    let places := max left.places right.places
    fit? (left.coefficientAt places + right.coefficientAt places) places places

def sub? (left right : Decimal) : Option Decimal := add? left right.neg

end Decimal

namespace Number

def plainDecimal? (negative : Bool) (significand places : Nat) : Option Decimal :=
  Decimal.make? (if negative then -(significand : Int) else significand) places

/-- The decimal of a significand after the fewest of its last zero places are dropped. -/
def reducedDecimal? (negative : Bool) (significand : Nat) : (places : Nat) → Option Decimal
  | 0 => plainDecimal? negative significand 0
  | places + 1 =>
    match plainDecimal? negative significand (places + 1) with
    | some decimal => some decimal
    | none =>
      if significand % 10 = 0 then reducedDecimal? negative (significand / 10) places else none

def shiftedDecimal? (decimal : Decimal) (exponent : Int) : Option Decimal :=
  if 28 < exponent.natAbs then none
  else if exponent ≤ decimal.places then
    Decimal.make? decimal.coefficient (decimal.places - exponent).toNat
  else Decimal.make? (decimal.coefficient * pow10 (exponent - decimal.places).toNat) 0

/-- The decimal of a number. Without an exponent the number is taken as it is written; with one, zeros
at the end of the fraction are dropped as far as that is needed. -/
def decimal? (number : Number) : Option Decimal :=
  match number.exponent with
  | none => plainDecimal? number.negative number.significand number.fraction.length
  | some exponent =>
    (reducedDecimal? number.negative number.significand number.fraction.length).bind
      (shiftedDecimal? · exponent.value)

def integer? (number : Number) : Option Int := number.decimal?.bind Decimal.integer?

/-- The value is known to have no fractional part. -/
def isInteger (number : Number) : Bool := number.integer?.isSome

def integerOf? (kind : IntegerKind) (number : Number) : Option kind.Value :=
  number.integer?.bind kind.value?

def add? (left right : Number) : Option Number := do
  return (← (← left.decimal?).add? (← right.decimal?)).toNumber

def sub? (left right : Number) : Option Number := do
  return (← (← left.decimal?).sub? (← right.decimal?)).toNumber

end Number

end JsonEdit
