import JsonEdit.Text.Hex

/-!
# Surrogates

A character beyond U+FFFF is spelled in UTF-16 by a high surrogate and a low surrogate. A surrogate
that has no partner stands for no character and is read as U+FFFD.
-/

namespace JsonEdit.Text

/-- What a unit without a partner is read as. -/
def replacement : Char := '\uFFFD'

namespace CodeUnit

def isHigh (unit : CodeUnit) : Bool := 0xD800 ≤ unit && unit ≤ 0xDBFF

def isLow (unit : CodeUnit) : Bool := 0xDC00 ≤ unit && unit ≤ 0xDFFF

/-- The character that a unit spells on its own; a surrogate on its own spells none. -/
def single (unit : CodeUnit) : Char :=
  if isHigh unit || isLow unit then replacement else Char.ofNat unit.toNat

def pair (high low : CodeUnit) : Char :=
  Char.ofNat (0x10000 + (high.toNat - 0xD800) * 0x400 + (low.toNat - 0xDC00))

def decode : List CodeUnit → List Char
  | [] => []
  | [last] => [single last]
  | first :: second :: more =>
    if isHigh first && isLow second then pair first second :: decode more
    else single first :: decode (second :: more)

end CodeUnit

end JsonEdit.Text
