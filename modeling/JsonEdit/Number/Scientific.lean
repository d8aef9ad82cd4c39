import JsonEdit.Fingerprint
import JsonEdit.Number.Decimal

/-!
# The order of numbers

Numbers are compared by value, however they are written. Two numbers that have decimals are compared by
these, all others by their scientific forms, and the scientific form also gives the fingerprint.

Every value other than zero is, in exactly one way, a sign, a power of ten and a digit string between
them: `0.d₁d₂… · 10 ^ exponent`, where the first and the last digit are not zero. Zero has no digits.
Signs decide first, then exponents, then digits from the left.

A written exponent of more than eighteen significant digits is taken as the largest exponent there
is, of its sign. So two numbers with such exponents compare by their other parts.
-/

namespace JsonEdit

/-- The value `0.d₁d₂… · 10 ^ exponent`, negated if `negative`. -/
structure Scientific where
  negative : Bool
  exponent : Int
  digits : List Digit
  deriving DecidableEq

namespace Scientific

/-- The largest exponent that is told apart from others. -/
def greatestExponent : Int := 4611686018427387903

def boundedExponent (exponent : Exponent) : Int :=
  if (Digit.dropLeadingZeros exponent.digits).length > 18 then
    if exponent.sign = some .minus then -greatestExponent else greatestExponent
  else exponent.value

def zero : Scientific := ⟨false, 0, []⟩

/-- The form of a value that is written with these digits before and after its point. Zeros are dropped
at both ends, and each one that is dropped at the front moves the point. -/
def ofDigits (negative : Bool) (whole fraction : List Digit) (exponent : Int) : Scientific :=
  let front := Digit.dropLeadingZeros (whole ++ fraction)
  let digits := Digit.dropTrailingZeros front
  if digits.isEmpty then zero
  else
    let leading := (whole ++ fraction).length - front.length
    ⟨negative, whole.length - (leading : Int) + exponent, digits⟩

def ofNumber (number : Number) : Scientific :=
  ofDigits number.negative (Digit.ofNat number.whole) number.fraction
    ((number.exponent.map boundedExponent).getD 0)

def sign (value : Scientific) : Int :=
  if value.digits.isEmpty then 0 else if value.negative then -1 else 1

def compareMagnitude (left right : Scientific) : Ordering :=
  (compare left.exponent right.exponent).then (compare left.digits right.digits)

def compare (left right : Scientific) : Ordering :=
  (Ord.compare left.sign right.sign).then <|
    if left.sign = 0 then .eq
    else if left.negative then (left.compareMagnitude right).swap
    else left.compareMagnitude right

instance : Ord Scientific := ⟨Scientific.compare⟩

def fingerprint (value : Scientific) : Fingerprint :=
  [.truth value.negative, .text (String.ofList (value.digits.map Digit.char)), .integer value.exponent]

end Scientific

namespace Number

def scientific (number : Number) : Scientific := .ofNumber number

/-- Numbers are ordered by value: by their decimals if both have one, and else by their scientific
forms. -/
protected def compare (left right : Number) : Ordering :=
  match left.decimal?, right.decimal? with
  | some leftDecimal, some rightDecimal => Ord.compare leftDecimal rightDecimal
  | _, _ => Ord.compare left.scientific right.scientific

instance : Ord Number := ⟨Number.compare⟩

/-- Numbers are equal if their values are, however they are written. -/
instance : BEq Number := ⟨fun left right => Ord.compare left right == .eq⟩

/-- Equal numbers have one fingerprint, with or without a decimal. -/
def fingerprint (number : Number) : Fingerprint := number.scientific.fingerprint

end Number

end JsonEdit
