import JsonEdit.Number.Basic

/-!
# Floats as numbers

A finite float is written with the fewest digits that read back as the same float; of several such
digit strings the nearest to the float, and of two equally near ones the larger. The digits are
written out without an exponent.

A float is a significand times a power of two. All values nearer to it than to its neighbours form an
interval, with its ends if the significand is even. On the grid of the multiples of a power of ten, if
any point lies in the interval then so does one of the two points next to the float. So the coarsest
grid that has such a point gives the fewest digits.
-/

namespace JsonEdit

/-- A finite float without its sign: `significand · 2 ^ exponent`. -/
structure FloatMagnitude where
  significand : Nat
  exponent : Int
  /-- the gap to the next smaller float is half of the gap to the next larger one -/
  narrowBelow : Bool

namespace FloatMagnitude

def ofBits (bits : Nat) : FloatMagnitude :=
  let stored : Nat := bits / pow2 52 % pow2 11
  let mantissa := bits % pow2 52
  if stored = 0 then ⟨mantissa, -1074, false⟩
  else ⟨mantissa + pow2 52, (stored : Int) - 1075, mantissa = 0 && 1 < stored⟩

/-- The multiple of `10 ^ power` that stands for the magnitude, counted in units of that power: the
nearer of the two next to the magnitude if it reads back, or else the other one if that does. -/
def onGrid? (magnitude : FloatMagnitude) (power : Int) : Option Nat :=
  -- everything is measured in quarters of the last binary place, times a common denominator
  let unit := pow2 (magnitude.exponent - 2).toNat * pow10 (-power).toNat
  let step := pow10 power.toNat * pow2 (2 - magnitude.exponent).toNat
  let value := 4 * magnitude.significand * unit
  let low := value - (if magnitude.narrowBelow then 1 else 2) * unit
  let high := value + 2 * unit
  let inside (point : Nat) : Bool :=
    if magnitude.significand % 2 = 0 then low ≤ point * step && point * step ≤ high
    else low < point * step && point * step < high
  let below := value / step
  let above := below + 1
  let nearer := if 2 * value < (below + above) * step then below else above
  let other := if nearer = below then above else below
  if 0 < nearer && inside nearer then some nearer
  else if 0 < other && inside other then some other
  else none

/-- The first of the grids `10 ^ power`, `10 ^ (power - 1)`, … that has a point that reads back. -/
def coarsest (magnitude : FloatMagnitude) (power : Int) : (grids : Nat) → Nat × Int
  | 0 => (0, 0)
  | grids + 1 =>
    match magnitude.onGrid? power with
    | some units => (units, power)
    | none => magnitude.coarsest (power - 1) grids

/-- The fewest digits that read back as a magnitude other than zero, and their power of ten. -/
def shortest (magnitude : FloatMagnitude) : Nat × Int := magnitude.coarsest 309 650

end FloatMagnitude

namespace Number

def positional (negative : Bool) (units : Nat) (power : Int) : Number :=
  if 0 ≤ power then { negative, whole := units * pow10 power.toNat }
  else
    let places := (-power).toNat
    { negative, whole := units / pow10 places, fraction := Digit.lastDigits places units }

def ofFloat? (value : Float) : Option Number :=
  if value.isFinite then
    let bits := value.toBits.toNat
    let magnitude := FloatMagnitude.ofBits bits
    let (units, power) := if magnitude.significand = 0 then (0, 0) else magnitude.shortest
    some (positional (pow2 63 ≤ bits) units power)
  else none

/-- The float nearest to a number; it is infinite beyond the range of floats. -/
def toFloat (number : Number) : Float :=
  let significand := number.significand
  let exponent := (Digit.ofNat significand).length + number.scale
  let magnitude :=
    if significand = 0 || exponent < -400 then 0.0
    else if 400 < exponent then 1.0 / 0.0
    else if 0 ≤ number.scale then Float.ofScientific significand false number.scale.toNat
    else Float.ofScientific significand true (-number.scale).toNat
  if number.negative then -magnitude else magnitude

def nonFiniteText (value : Float) : String :=
  if value.isNaN then "NaN" else if value < 0 then "-inf" else "inf"

end Number

end JsonEdit
