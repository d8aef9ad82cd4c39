import JsonEdit.Proofs.Number.Reader
import Mathlib.Computability.RegularExpressions

/-!
# The grammar of numbers

The texts of numbers are a regular language: an optional minus sign, a whole part without superfluous
zeros, an optional fraction and an optional exponent. The four parts of the expression are the four
fields of a number, so each of them matches what one field writes.

The normal form of an exponent is a matter of the text alone: the mark is small, and a missing sign is
written as plus.
-/

namespace JsonEdit.Number

namespace Grammar

open RegularExpression (char)

def oneOf (chars : List Char) : RegularExpression Char := (chars.map char).sum

def optional (expression : RegularExpression Char) : RegularExpression Char := 1 + expression

def digit : RegularExpression Char := oneOf ['0', '1', '2', '3', '4', '5', '6', '7', '8', '9']

def positive : RegularExpression Char := oneOf ['1', '2', '3', '4', '5', '6', '7', '8', '9']

def digits : RegularExpression Char := digit * digit.star

/-- `0|[1-9][0-9]*` -/
def whole : RegularExpression Char := char '0' + positive * digit.star

/-- `(\.[0-9]+)?` -/
def fraction : RegularExpression Char := optional (char '.' * digits)

/-- `([eE][+-]?[0-9]+)?` -/
def exponent : RegularExpression Char :=
  optional (oneOf ['e', 'E'] * (optional (oneOf ['+', '-']) * digits))

/-- `-?(0|[1-9][0-9]*)(\.[0-9]+)?([eE][+-]?[0-9]+)?` -/
def number : RegularExpression Char := optional (char '-') * whole * fraction * exponent

variable {chars : List Char}

theorem mem_oneOf {members : List Char} :
    chars ∈ (oneOf members).matches' ↔ ∃ c ∈ members, chars = [c] := by
  induction members with
  | nil => simp [oneOf]
  | cons member members ih =>
      have hsum : oneOf (member :: members) = char member + oneOf members := rfl
      rw [hsum, RegularExpression.matches'_add, Language.mem_add, ih, List.exists_mem_cons_iff]
      rfl

theorem mem_optional {expression : RegularExpression Char} :
    chars ∈ (optional expression).matches' ↔ chars = [] ∨ chars ∈ expression.matches' :=
  Iff.rfl

theorem mem_char {c : Char} : chars ∈ (char c).matches' ↔ chars = [c] := Iff.rfl

theorem mem_mul {first second : RegularExpression Char} :
    chars ∈ (first * second).matches' ↔
      ∃ front ∈ first.matches', ∃ back ∈ second.matches', front ++ back = chars := by
  rw [RegularExpression.matches'_mul, Language.mem_mul]

theorem mem_digit : chars ∈ digit.matches' ↔ ∃ d : Digit, chars = [d.char] := by
  have hmembers : ['0', '1', '2', '3', '4', '5', '6', '7', '8', '9'] =
      (List.finRange 10).map Digit.char := by decide
  rw [digit, mem_oneOf, hmembers]
  simp

theorem mem_positive : chars ∈ positive.matches' ↔ ∃ d : Digit, d ≠ 0 ∧ chars = [d.char] := by
  have hmembers : ['1', '2', '3', '4', '5', '6', '7', '8', '9'] =
      ((List.finRange 10).filter (· ≠ 0)).map Digit.char := by decide
  rw [positive, mem_oneOf, hmembers]
  simp

theorem mem_digit_star :
    chars ∈ digit.star.matches' ↔ ∃ ds : List Digit, chars = ds.map Digit.char := by
  rw [RegularExpression.matches'_star, Language.mem_kstar]
  constructor
  · rintro ⟨parts, rfl, hparts⟩
    induction parts with
    | nil => exact ⟨[], rfl⟩
    | cons part parts ih =>
        obtain ⟨hpart, hrest⟩ := List.forall_mem_cons.mp hparts
        obtain ⟨d, hd⟩ := mem_digit.mp hpart
        obtain ⟨ds, hds⟩ := ih hrest
        exact ⟨d :: ds, by rw [List.flatten_cons, hd, hds]; rfl⟩
  · rintro ⟨ds, rfl⟩
    refine ⟨ds.map fun d => [d.char], ?_, fun part hpart => ?_⟩
    · rw [← List.flatMap_def, ← List.map_eq_flatMap]
    · obtain ⟨d, -, rfl⟩ := List.mem_map.mp hpart
      exact mem_digit.mpr ⟨d, rfl⟩

theorem mem_digits :
    chars ∈ digits.matches' ↔ ∃ ds : List Digit, ds ≠ [] ∧ chars = ds.map Digit.char := by
  rw [digits, mem_mul]
  constructor
  · rintro ⟨front, hfront, back, hback, rfl⟩
    obtain ⟨d, rfl⟩ := mem_digit.mp hfront
    obtain ⟨ds, rfl⟩ := mem_digit_star.mp hback
    exact ⟨d :: ds, List.cons_ne_nil d ds, rfl⟩
  · rintro ⟨_ | ⟨d, ds⟩, hds, rfl⟩
    · exact absurd rfl hds
    · exact ⟨[d.char], mem_digit.mpr ⟨d, rfl⟩, _, mem_digit_star.mpr ⟨ds, rfl⟩, rfl⟩

/-! ### The parts of a number -/

theorem mem_minus :
    chars ∈ (optional (char '-')).matches' ↔
      ∃ negative : Bool, chars = if negative then ['-'] else [] := by
  rw [mem_optional, mem_char, Bool.exists_bool]
  rfl

theorem mem_whole :
    chars ∈ whole.matches' ↔ ∃ n : Nat, chars = (Digit.ofNat n).map Digit.char := by
  rw [whole, RegularExpression.matches'_add, Language.mem_add, mem_char, mem_mul]
  constructor
  · rintro (rfl | ⟨front, hfront, back, hback, rfl⟩)
    · exact ⟨0, by rw [Digit.ofNat]; rfl⟩
    · obtain ⟨d, hd, rfl⟩ := mem_positive.mp hfront
      obtain ⟨ds, rfl⟩ := mem_digit_star.mp hback
      have hdigits := Digit.ofNat_value (List.cons_ne_nil d ds) (by simpa using hd)
      exact ⟨Digit.value (d :: ds), by rw [hdigits]; rfl⟩
  · rintro ⟨n, rfl⟩
    by_cases hzero : n = 0
    · left
      rw [hzero, Digit.ofNat]
      rfl
    · right
      obtain ⟨d, ds, hdigits, hd⟩ := Digit.exists_ofNat_cons hzero
      rw [hdigits]
      exact ⟨[d.char], mem_positive.mpr ⟨d, hd, rfl⟩, _, mem_digit_star.mpr ⟨ds, rfl⟩, rfl⟩

theorem mem_fraction :
    chars ∈ fraction.matches' ↔ ∃ ds : List Digit, chars = fractionChars ds := by
  rw [fraction, mem_optional, mem_mul]
  constructor
  · rintro (rfl | ⟨front, rfl, back, hback, rfl⟩)
    · exact ⟨[], rfl⟩
    · obtain ⟨ds, hds, rfl⟩ := mem_digits.mp hback
      refine ⟨ds, ?_⟩
      rw [fractionChars, List.isEmpty_eq_false_iff.mpr hds]
      rfl
  · rintro ⟨_ | ⟨d, ds⟩, rfl⟩
    · exact .inl rfl
    · exact .inr ⟨['.'], rfl, _, mem_digits.mpr ⟨d :: ds, List.cons_ne_nil d ds, rfl⟩, rfl⟩

theorem mem_mark :
    chars ∈ (oneOf ['e', 'E']).matches' ↔
      ∃ upper : Bool, chars = [if upper then 'E' else 'e'] := by
  rw [mem_oneOf, Bool.exists_bool]
  simp

theorem mem_sign :
    chars ∈ (optional (oneOf ['+', '-'])).matches' ↔
      ∃ sign : Option Sign, chars = (sign.map Sign.char).toList := by
  rw [mem_optional, mem_oneOf, Option.exists]
  simp only [Option.map_none, Option.toList_none, Option.map_some, Option.toList_some]
  refine or_congr Iff.rfl ⟨?_, ?_⟩
  · rintro ⟨c, hc, rfl⟩
    rcases (by simpa using hc : c = '+' ∨ c = '-') with rfl | rfl
    · exact ⟨.plus, rfl⟩
    · exact ⟨.minus, rfl⟩
  · rintro ⟨sign, rfl⟩
    exact ⟨sign.char, by cases sign <;> decide, rfl⟩

theorem mem_exponent :
    chars ∈ exponent.matches' ↔
      ∃ power : Option Exponent, chars = (power.map Exponent.chars).getD [] := by
  rw [exponent, mem_optional, mem_mul, Option.exists]
  refine or_congr Iff.rfl ⟨?_, ?_⟩
  · rintro ⟨front, hfront, back, hback, rfl⟩
    obtain ⟨upper, rfl⟩ := mem_mark.mp hfront
    obtain ⟨middle, hmiddle, last, hlast, rfl⟩ := mem_mul.mp hback
    obtain ⟨sign, rfl⟩ := mem_sign.mp hmiddle
    obtain ⟨ds, hds, rfl⟩ := mem_digits.mp hlast
    exact ⟨⟨upper, sign, ds, hds⟩, rfl⟩
  · rintro ⟨⟨upper, sign, ds, hds⟩, rfl⟩
    exact ⟨_, mem_mark.mpr ⟨upper, rfl⟩, _,
      mem_mul.mpr ⟨_, mem_sign.mpr ⟨sign, rfl⟩, _, mem_digits.mpr ⟨ds, hds, rfl⟩, rfl⟩, rfl⟩

/-- **The regular expression matches the texts of numbers,** and nothing else. -/
theorem mem_number : chars ∈ number.matches' ↔ ∃ value : Number, chars = value.chars := by
  constructor
  · intro hchars
    obtain ⟨front, hfront, last, hlast, rfl⟩ := mem_mul.mp hchars
    obtain ⟨signed, hsigned, middle, hmiddle, rfl⟩ := mem_mul.mp hfront
    obtain ⟨minus, hminus, natural, hnatural, rfl⟩ := mem_mul.mp hsigned
    obtain ⟨negative, rfl⟩ := mem_minus.mp hminus
    obtain ⟨n, rfl⟩ := mem_whole.mp hnatural
    obtain ⟨ds, rfl⟩ := mem_fraction.mp hmiddle
    obtain ⟨power, rfl⟩ := mem_exponent.mp hlast
    exact ⟨⟨negative, n, ds, power⟩, rfl⟩
  · rintro ⟨⟨negative, n, ds, power⟩, rfl⟩
    refine mem_mul.mpr ⟨_, mem_mul.mpr ⟨_, mem_mul.mpr ⟨_, ?_, _, ?_, rfl⟩, _, ?_, rfl⟩, _, ?_, rfl⟩
    · exact mem_minus.mpr ⟨negative, rfl⟩
    · exact mem_whole.mpr ⟨n, rfl⟩
    · exact mem_fraction.mpr ⟨ds, rfl⟩
    · exact mem_exponent.mpr ⟨power, rfl⟩

/-- A text is read as a number if and only if it matches. -/
theorem isSome_parse?_iff {text : String} :
    (parse? text).isSome ↔ text.toList ∈ number.matches' := by
  rw [mem_number, Option.isSome_iff_exists]
  refine exists_congr fun value => ?_
  rw [parse?_eq_some_iff, Number.text, String.ext_iff, String.toList_ofList]

end Grammar

/-! ### Exponents in normal form -/

def signedChars : List Char → List Char
  | '+' :: digits => '+' :: digits
  | '-' :: digits => '-' :: digits
  | digits => '+' :: digits

/-- The text of a number with its exponent in normal form: a small mark, a sign and the digits. -/
def normalChars : List Char → List Char
  | [] => []
  | c :: rest => if c = 'e' || c = 'E' then 'e' :: signedChars rest else c :: normalChars rest

theorem normalChars_append {front : List Char} (hfront : ∀ c ∈ front, c ≠ 'e' ∧ c ≠ 'E')
    (back : List Char) : normalChars (front ++ back) = front ++ normalChars back := by
  induction front with
  | nil => rfl
  | cons c front ih =>
      obtain ⟨hc, hrest⟩ := List.forall_mem_cons.mp hfront
      rw [List.cons_append, normalChars, if_neg (by simp [hc]), ih hrest, List.cons_append]

theorem signedChars_map_char {digits : List Digit} (hdigits : digits ≠ []) :
    signedChars (digits.map Digit.char) = '+' :: digits.map Digit.char := by
  obtain ⟨digit, digits, rfl⟩ := List.exists_cons_of_ne_nil hdigits
  have hsign := sign_ne_char digit
  rw [List.map_cons, signedChars]
  · exact fun rest heq => hsign.1 (List.cons.inj heq).1
  · exact fun rest heq => hsign.2 (List.cons.inj heq).1

theorem normalChars_exponent (exponent : Exponent) :
    normalChars exponent.chars = exponent.normal.chars := by
  obtain ⟨upper, sign, digits, hdigits⟩ := exponent
  rw [Exponent.chars, List.cons_append, normalChars, if_pos (by simp)]
  cases sign with
  | none => exact congrArg ('e' :: ·) (signedChars_map_char hdigits)
  | some sign => cases sign <;> rfl

theorem mark_ne_char (digit : Digit) : digit.char ≠ 'e' ∧ digit.char ≠ 'E' := by
  revert digit
  decide

theorem mark_ne_of_mem_map_char {digits : List Digit} {c : Char} (hc : c ∈ digits.map Digit.char) :
    c ≠ 'e' ∧ c ≠ 'E' := by
  obtain ⟨digit, -, rfl⟩ := List.mem_map.mp hc
  exact mark_ne_char digit

theorem mark_ne_of_mem_fractionChars {fraction : List Digit} {c : Char}
    (hc : c ∈ fractionChars fraction) : c ≠ 'e' ∧ c ≠ 'E' := by
  rw [fractionChars] at hc
  split at hc
  · cases hc
  · rcases List.mem_cons.mp hc with rfl | hc
    · decide
    · exact mark_ne_of_mem_map_char hc

/-- **The normal form of a number is that of its text.** In front of its exponent a number has no
mark. -/
theorem chars_normal (number : Number) : number.normal.chars = normalChars number.chars := by
  have hfront : ∀ c ∈ (if number.negative then ['-'] else []) ++
      (Digit.ofNat number.whole).map Digit.char ++ fractionChars number.fraction,
      c ≠ 'e' ∧ c ≠ 'E' := by
    intro c hc
    rcases List.mem_append.mp hc with hc | hc
    · rcases List.mem_append.mp hc with hc | hc
      · obtain rfl : c = '-' := by cases number.negative <;> simp_all
        decide
      · exact mark_ne_of_mem_map_char hc
    · exact mark_ne_of_mem_fractionChars hc
  rw [chars, chars, normalChars_append hfront]
  cases hexponent : number.exponent with
  | none => rw [normal, hexponent]; rfl
  | some exponent =>
      rw [normal, hexponent, Option.map_some, Option.map_some, Option.map_some, Option.getD_some,
        Option.getD_some, normalChars_exponent]

end JsonEdit.Number
