import JsonEdit.Json.Problem
import JsonEdit.Number.Basic

/-!
# Reading a number

One reader serves both the text of a single number and the numbers inside a larger text. It takes as
many characters as can belong to a number, and stops where the number breaks off: after a sign, a
point or an exponent mark without a digit, or at a digit after a leading zero.
-/

namespace JsonEdit.Number

def readDigits (chars : List Char) :
    Except Stop ({ digits : List Digit // digits ≠ [] } × List Char) :=
  match Digit.span chars with
  | ([], _) => .error (.here .endInValue .invalidNumber chars)
  | (digit :: digits, rest) => .ok (⟨digit :: digits, List.cons_ne_nil digit digits⟩, rest)

/-- Reads the digits of a whole part; a zero in front stands alone. -/
def readWhole (chars : List Char) : Except Stop (Nat × List Char) :=
  match chars with
  | '0' :: rest =>
    if (Digit.span rest).1.isEmpty then .ok (0, rest)
    else .error (.here .endInValue .invalidNumber rest)
  | _ =>
    match readDigits chars with
    | .error stop => .error stop
    | .ok (digits, rest) => .ok (Digit.value digits, rest)

def readFraction (chars : List Char) : Except Stop (List Digit × List Char) :=
  match chars with
  | '.' :: rest =>
    match readDigits rest with
    | .error stop => .error stop
    | .ok (digits, after) => .ok (digits, after)
  | _ => .ok ([], chars)

def readSign : List Char → Option Sign × List Char
  | '+' :: rest => (some .plus, rest)
  | '-' :: rest => (some .minus, rest)
  | chars => (none, chars)

def readExponentBody (upper : Bool) (chars : List Char) : Except Stop (Exponent × List Char) :=
  let (sign, unsigned) := readSign chars
  match readDigits unsigned with
  | .error stop => .error stop
  | .ok (digits, rest) => .ok (⟨upper, sign, digits.val, digits.property⟩, rest)

def readExponent (chars : List Char) : Except Stop (Option Exponent × List Char) :=
  match chars with
  | [] => .ok (none, [])
  | mark :: rest =>
    if mark = 'e' || mark = 'E' then
      match readExponentBody (mark = 'E') rest with
      | .error stop => .error stop
      | .ok (exponent, after) => .ok (some exponent, after)
    else .ok (none, mark :: rest)

/-- Reads what follows the minus sign. -/
def readUnsigned (negative : Bool) (chars : List Char) : Except Stop (Number × List Char) :=
  match readWhole chars with
  | .error stop => .error stop
  | .ok (whole, afterWhole) =>
    match readFraction afterWhole with
    | .error stop => .error stop
    | .ok (fraction, afterFraction) =>
      match readExponent afterFraction with
      | .error stop => .error stop
      | .ok (exponent, rest) => .ok ({ negative, whole, fraction, exponent }, rest)

def read (chars : List Char) : Except Stop (Number × List Char) :=
  match chars with
  | '-' :: rest => readUnsigned true rest
  | _ => readUnsigned false chars

/-- The place that is reported for a text of its own. What stands after a sign or an exponent mark is
taken for a digit before it is looked at, so if it is none the byte after it is reported, unless the
text has ended. -/
def placeInText (chars : List Char) (stop : Stop) : Stop :=
  match (chars.take (chars.length - stop.rest.length)).getLast? with
  | none => stop
  | some last =>
    if ['-', '+', 'e', 'E'].contains last && 1 < Text.byteCount stop.rest then
      { stop with bytes := 2 }
    else stop

def readAll (chars : List Char) : Except Stop Number :=
  match read chars with
  | .error stop => .error (placeInText chars stop)
  | .ok (number, []) => .ok number
  | .ok (_, rest) => .error (.here .endInValue .invalidNumber rest)

def ofChars? (chars : List Char) : Option Number := (readAll chars).toOption

def parse? (text : String) : Option Number := ofChars? text.toList

/-! ### A number has characters -/

section Length

variable {chars rest : List Char}

theorem length_of_readDigits {digits : { digits : List Digit // digits ≠ [] }}
    (hread : readDigits chars = .ok (digits, rest)) : rest.length < chars.length := by
  unfold readDigits at hread
  split at hread
  · cases hread
  · rename_i hspan
    cases hread
    cases chars with
    | nil => cases hspan
    | cons c tail =>
        have hbound := Digit.length_span_le tail
        unfold Digit.span at hspan
        split at hspan
        · rw [← (Prod.mk.inj hspan).2, List.length_cons]
          omega
        · cases hspan

theorem length_of_readWhole {whole : Nat} (hread : readWhole chars = .ok (whole, rest)) :
    rest.length < chars.length := by
  unfold readWhole at hread
  split at hread
  · split at hread
    · cases hread
      exact Nat.lt_succ_self _
    · cases hread
  · split at hread
    · cases hread
    · rename_i hdigits
      cases hread
      exact length_of_readDigits hdigits

theorem length_of_readFraction {fraction : List Digit}
    (hread : readFraction chars = .ok (fraction, rest)) : rest.length ≤ chars.length := by
  unfold readFraction at hread
  split at hread
  · split at hread
    · cases hread
    · rename_i hdigits
      cases hread
      have hlt := length_of_readDigits hdigits
      rw [List.length_cons]
      omega
  · cases hread
    exact Nat.le_refl _

theorem length_readSign_le (chars : List Char) : (readSign chars).2.length ≤ chars.length := by
  unfold readSign
  split <;> simp

theorem length_of_readExponentBody {upper : Bool} {exponent : Exponent}
    (hread : readExponentBody upper chars = .ok (exponent, rest)) : rest.length < chars.length := by
  unfold readExponentBody at hread
  simp only at hread
  split at hread
  · cases hread
  · rename_i hdigits
    cases hread
    exact Nat.lt_of_lt_of_le (length_of_readDigits hdigits) (length_readSign_le chars)

theorem length_of_readExponent {exponent : Option Exponent}
    (hread : readExponent chars = .ok (exponent, rest)) : rest.length ≤ chars.length := by
  unfold readExponent at hread
  split at hread
  · cases hread
    exact Nat.le_refl _
  · split at hread
    · split at hread
      · cases hread
      · rename_i hbody
        cases hread
        have hlt := length_of_readExponentBody hbody
        rw [List.length_cons]
        omega
    · cases hread
      exact Nat.le_refl _

theorem length_of_readUnsigned {negative : Bool} {number : Number}
    (hread : readUnsigned negative chars = .ok (number, rest)) : rest.length < chars.length := by
  unfold readUnsigned at hread
  split at hread
  · cases hread
  · rename_i hwhole
    split at hread
    · cases hread
    · rename_i hfraction
      split at hread
      · cases hread
      · rename_i hexponent
        cases hread
        have hbehind := length_of_readExponent hexponent
        have hbetween := length_of_readFraction hfraction
        have hfront := length_of_readWhole hwhole
        omega

theorem length_of_read {number : Number} (hread : read chars = .ok (number, rest)) :
    rest.length < chars.length := by
  unfold read at hread
  split at hread
  · have hlt := length_of_readUnsigned hread
    rw [List.length_cons]
    omega
  · exact length_of_readUnsigned hread

end Length

end JsonEdit.Number
