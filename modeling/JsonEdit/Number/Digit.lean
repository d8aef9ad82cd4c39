/-!
# Decimal digits

Digit strings are lists of digits with the most significant digit first.
-/

namespace JsonEdit

abbrev Digit := Fin 10

namespace Digit

def char (digit : Digit) : Char := Char.ofNat ('0'.toNat + digit.val)

def ofChar? (c : Char) : Option Digit :=
  if hascii : '0'.toNat ≤ c.toNat ∧ c.toNat < '0'.toNat + 10 then
    some ⟨c.toNat - '0'.toNat, by omega⟩
  else none

def span : List Char → List Digit × List Char
  | [] => ([], [])
  | c :: rest =>
    match ofChar? c with
    | some digit => let (digits, after) := span rest; (digit :: digits, after)
    | none => ([], c :: rest)

theorem length_span_le (chars : List Char) : (span chars).2.length ≤ chars.length := by
  induction chars with
  | nil => simp [span]
  | cons c rest ih =>
    unfold span
    split
    · simp only [List.length_cons]
      omega
    · simp

def value (digits : List Digit) : Nat := digits.foldl (fun n digit => n * 10 + digit.val) 0

def ofNat (n : Nat) : List Digit :=
  if n < 10 then [Fin.ofNat 10 n] else ofNat (n / 10) ++ [Fin.ofNat 10 n]

/-- The last `count` digits of a natural number, with zeros in front if it is short. -/
def lastDigits : (count n : Nat) → List Digit
  | 0, _ => []
  | count + 1, n => lastDigits count (n / 10) ++ [Fin.ofNat 10 n]

def dropTrailingZeros (digits : List Digit) : List Digit :=
  (digits.reverse.dropWhile (· == 0)).reverse

def dropLeadingZeros (digits : List Digit) : List Digit := digits.dropWhile (· == 0)

end Digit

end JsonEdit
