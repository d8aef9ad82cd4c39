import JsonEdit.Number.Digit
import JsonEdit.Number.Power

/-!
# Numbers as they are written

A number is kept as it was written: an optional minus sign, a whole part without superfluous zeros, an
optional fraction and an optional exponent. Two numbers are the same written number exactly when their
texts are; whether they have the same value is a question of `JsonEdit.Number.Scientific`.

Every number has a text of the grammar of JSON numbers, because the fields hold nothing else.
-/

namespace JsonEdit

inductive Sign where
  | plus
  | minus
  deriving DecidableEq, Inhabited

def Sign.char : Sign → Char
  | .plus => '+'
  | .minus => '-'

/-- A written exponent: its mark, its sign if it has one, and at least one digit. -/
structure Exponent where
  upper : Bool
  sign : Option Sign
  digits : List Digit
  digits_ne_nil : digits ≠ []
  deriving DecidableEq

namespace Exponent

def chars (exponent : Exponent) : List Char :=
  (if exponent.upper then 'E' else 'e') :: (exponent.sign.map Sign.char).toList ++
    exponent.digits.map Digit.char

def value (exponent : Exponent) : Int :=
  if exponent.sign = some .minus then -(Digit.value exponent.digits : Int)
  else Digit.value exponent.digits

def normal (exponent : Exponent) : Exponent :=
  { exponent with upper := false, sign := some (exponent.sign.getD .plus) }

end Exponent

/-- A number as it is written. No fraction digits means that there is no point. -/
structure Number where
  negative : Bool := false
  whole : Nat
  fraction : List Digit := []
  exponent : Option Exponent := none
  deriving DecidableEq

instance : Inhabited Number := ⟨{ whole := 0 }⟩

namespace Number

def fractionChars (fraction : List Digit) : List Char :=
  if fraction.isEmpty then [] else '.' :: fraction.map Digit.char

def chars (number : Number) : List Char :=
  (if number.negative then ['-'] else []) ++ (Digit.ofNat number.whole).map Digit.char ++
    fractionChars number.fraction ++ (number.exponent.map Exponent.chars).getD []

def text (number : Number) : String := String.ofList number.chars

/-- The number with its exponent, if any, in the form `e+5`. -/
def normal (number : Number) : Number :=
  { number with exponent := number.exponent.map Exponent.normal }

/-- The digits of the whole part and the fraction as one natural number. -/
def significand (number : Number) : Nat :=
  number.whole * pow10 number.fraction.length + Digit.value number.fraction

/-- The power of ten that belongs to the last digit of the significand. -/
def scale (number : Number) : Int :=
  (number.exponent.map Exponent.value).getD 0 - number.fraction.length

def ofInt (n : Int) : Number := { negative := n < 0, whole := n.natAbs }

end Number

end JsonEdit
