import JsonEdit.Number.Reader
import JsonEdit.Proofs.Number.Digits

/-!
# Reading a written number

The characters of a number are read back as that number, if what follows them cannot belong to it, and
nothing else is read as a number. So the texts of numbers are the texts that the reader accepts, and a
number is determined by its text.
-/

namespace JsonEdit

theorem toOption_eq_some_iff {α ε : Type} {result : Except ε α} {value : α} :
    result.toOption = some value ↔ result = .ok value := by
  cases result <;> simp [Except.toOption]

namespace Digit

@[simp]
theorem ofChar?_char (digit : Digit) : ofChar? digit.char = some digit := by
  revert digit
  decide

theorem char_injective {digit other : Digit} (heq : digit.char = other.char) : digit = other := by
  have hsome := congrArg ofChar? heq
  rwa [ofChar?_char, ofChar?_char, Option.some_inj] at hsome

def Ends (chars : List Char) : Prop := ∀ c ∈ chars.head?, ofChar? c = none

theorem span_append {rest : List Char} (hrest : Ends rest) (digits : List Digit) :
    span (digits.map char ++ rest) = (digits, rest) := by
  induction digits with
  | nil =>
      cases rest with
      | nil => rfl
      | cons c tail =>
          have hc : ofChar? c = none := hrest c rfl
          rw [List.map_nil, List.nil_append, span, hc]
  | cons digit digits ih => rw [List.map_cons, List.cons_append, span, ofChar?_char, ih]

theorem char_of_ofChar? {c : Char} {digit : Digit} (hdigit : ofChar? c = some digit) :
    digit.char = c := by
  unfold ofChar? at hdigit
  split at hdigit
  · rename_i hascii
    rw [← Option.some.inj hdigit, Digit.char]
    change Char.ofNat ('0'.toNat + (c.toNat - '0'.toNat)) = c
    rw [Nat.add_sub_cancel' hascii.1, Char.ofNat_toNat]
  · cases hdigit

theorem of_span (chars : List Char) : chars = (span chars).1.map char ++ (span chars).2 := by
  induction chars with
  | nil => rfl
  | cons c rest ih =>
      unfold span
      split
      · rename_i digit hdigit
        rw [List.map_cons, List.cons_append, ← ih, char_of_ofChar? hdigit]
      · rfl

end Digit

namespace Number

open Digit

def Ends (chars : List Char) : Prop :=
  ∀ c ∈ chars.head?, ofChar? c = none ∧ c ≠ '.' ∧ c ≠ 'e' ∧ c ≠ 'E'

theorem Ends.digits {rest : List Char} (hrest : Ends rest) : Digit.Ends rest :=
  fun c hc => (hrest c hc).1

theorem readDigits_append {rest : List Char} (hrest : Digit.Ends rest) (digits : List Digit)
    (hdigits : digits ≠ []) :
    readDigits (digits.map char ++ rest) = .ok (⟨digits, hdigits⟩, rest) := by
  rw [readDigits]
  split
  · rename_i hspan
    rw [span_append hrest] at hspan
    cases hspan
    exact absurd rfl hdigits
  · rename_i hspan
    rw [span_append hrest] at hspan
    cases hspan
    rfl

theorem readWhole_append {rest : List Char} (hrest : Digit.Ends rest) (n : Nat) :
    readWhole ((Digit.ofNat n).map char ++ rest) = .ok (n, rest) := by
  by_cases hzero : n = 0
  · subst hzero
    have hchars : (Digit.ofNat 0).map char ++ rest = '0' :: rest := by
      rw [Digit.ofNat, if_pos (by omega)]
      rfl
    have hspan : Digit.span rest = ([], rest) := span_append hrest []
    rw [hchars, readWhole, hspan]
    rfl
  · obtain ⟨first, digits, hdigits, hfirst⟩ := exists_ofNat_cons hzero
    have hread := readDigits_append hrest (Digit.ofNat n) (ofNat_ne_nil n)
    rw [readWhole]
    · rw [hread]
      exact congrArg (fun value => Except.ok (value, rest)) (value_ofNat n)
    · intro tail htail
      rw [hdigits, List.map_cons, List.cons_append] at htail
      exact hfirst (char_injective (List.cons.inj htail).1)

theorem readFraction_append {rest : List Char} (hrest : Digit.Ends rest)
    (hpoint : rest.head? ≠ some '.') (fraction : List Digit) :
    readFraction (fractionChars fraction ++ rest) = .ok (fraction, rest) := by
  cases fraction with
  | nil =>
      rw [fractionChars, List.isEmpty_nil, if_pos rfl, List.nil_append, readFraction]
      rintro tail rfl
      exact hpoint rfl
  | cons digit digits =>
      rw [fractionChars, List.isEmpty_cons, if_neg Bool.false_ne_true, List.cons_append, readFraction,
        readDigits_append hrest _ (List.cons_ne_nil digit digits)]

theorem readSign_append (sign : Option Sign) {chars : List Char} (hchars : ∀ c ∈ chars.head?,
    c ≠ '+' ∧ c ≠ '-') : readSign ((sign.map Sign.char).toList ++ chars) = (sign, chars) := by
  cases sign with
  | none =>
      rw [Option.map_none, Option.toList_none, List.nil_append, readSign]
      · rintro tail rfl
        exact (hchars '+' rfl).1 rfl
      · rintro tail rfl
        exact (hchars '-' rfl).2 rfl
  | some sign => cases sign <;> rfl

theorem sign_ne_char (digit : Digit) : digit.char ≠ '+' ∧ digit.char ≠ '-' := by
  revert digit
  decide

theorem readExponent_append {rest : List Char} (hrest : Ends rest) (exponent : Option Exponent) :
    readExponent ((exponent.map Exponent.chars).getD [] ++ rest) = .ok (exponent, rest) := by
  cases exponent with
  | none =>
      rw [Option.map_none, Option.getD_none, List.nil_append]
      cases rest with
      | nil => rfl
      | cons c tail =>
          obtain ⟨-, -, hsmall, hlarge⟩ := hrest c rfl
          rw [readExponent, if_neg (by simp [hsmall, hlarge])]
  | some exponent =>
      obtain ⟨upper, sign, digits, hdigits⟩ := exponent
      have hsign : ∀ c ∈ (digits.map char ++ rest).head?, c ≠ '+' ∧ c ≠ '-' := by
        cases digits with
        | nil => exact absurd rfl hdigits
        | cons digit digits =>
            rintro c ⟨⟩
            exact sign_ne_char digit
      have hbody : readExponentBody upper
          ((sign.map Sign.char).toList ++ (digits.map char ++ rest)) =
            .ok (⟨upper, sign, digits, hdigits⟩, rest) := by
        rw [readExponentBody, readSign_append sign hsign]
        simp only [readDigits_append hrest.digits digits hdigits]
      rw [Option.map_some, Option.getD_some, Exponent.chars]
      cases upper with
      | false =>
          simp only [Bool.false_eq_true, if_false, List.cons_append, List.append_assoc]
          rw [readExponent, if_pos (by decide)]
          have hmark : decide ('e' = 'E') = false := by decide
          rw [hmark, hbody]
      | true =>
          simp only [if_true, List.cons_append, List.append_assoc]
          rw [readExponent, if_pos (by decide)]
          have hmark : decide ('E' = 'E') = true := by decide
          rw [hmark, hbody]

theorem head?_exponent_append {rest : List Char} (hrest : Ends rest) (exponent : Option Exponent) :
    ∀ c ∈ ((exponent.map Exponent.chars).getD [] ++ rest).head?, ofChar? c = none ∧ c ≠ '.' := by
  cases exponent with
  | none => exact fun c hc => ⟨(hrest c hc).1, (hrest c hc).2.1⟩
  | some exponent =>
      rw [Option.map_some, Option.getD_some, Exponent.chars]
      cases exponent.upper <;> (rintro c ⟨⟩; decide)

theorem head?_fraction_append {rest : List Char} (hrest : Digit.Ends rest) (fraction : List Digit) :
    Digit.Ends (fractionChars fraction ++ rest) := by
  cases fraction with
  | nil => exact hrest
  | cons digit digits =>
      rintro c ⟨⟩
      decide

theorem readUnsigned_append {rest : List Char} (hrest : Ends rest) (number : Number) :
    readUnsigned number.negative ((Digit.ofNat number.whole).map char ++
      fractionChars number.fraction ++ (number.exponent.map Exponent.chars).getD [] ++ rest) =
      .ok (number, rest) := by
  have hexponent := head?_exponent_append hrest number.exponent
  have hdigits : Digit.Ends ((number.exponent.map Exponent.chars).getD [] ++ rest) :=
    fun c hc => (hexponent c hc).1
  have hpoint : ((number.exponent.map Exponent.chars).getD [] ++ rest).head? ≠ some '.' :=
    fun hhead => (hexponent '.' hhead).2 rfl
  rw [List.append_assoc, List.append_assoc, readUnsigned,
    readWhole_append (head?_fraction_append hdigits number.fraction)]
  simp only [readFraction_append hdigits hpoint, readExponent_append hrest]

theorem head_chars (number : Number) :
    ∃ c rest, number.chars = c :: rest ∧ (c = '-' ∨ ∃ digit : Digit, c = digit.char) := by
  rw [chars]
  split
  · exact ⟨'-', _, rfl, .inl rfl⟩
  · cases hdigits : Digit.ofNat number.whole with
    | nil => exact absurd hdigits (ofNat_ne_nil number.whole)
    | cons digit digits => exact ⟨digit.char, _, rfl, .inr ⟨digit, rfl⟩⟩

/-- **A written number is read back**, if what follows cannot go on with it. -/
theorem read_append {rest : List Char} (hrest : Ends rest) (number : Number) :
    read (number.chars ++ rest) = .ok (number, rest) := by
  have hunsigned := readUnsigned_append hrest number
  rw [chars]
  cases hnegative : number.negative with
  | true =>
      rw [hnegative] at hunsigned
      simp only [if_true, List.append_assoc, List.cons_append, List.nil_append] at hunsigned ⊢
      exact hunsigned
  | false =>
      rw [hnegative] at hunsigned
      simp only [Bool.false_eq_true, if_false, List.nil_append]
      rw [read, hunsigned]
      intro tail htail
      cases hdigits : Digit.ofNat number.whole with
      | nil => exact ofNat_ne_nil number.whole hdigits
      | cons digit digits =>
          rw [hdigits] at htail
          exact (sign_ne_char digit).2 (List.cons.inj htail).1

/-- **A number is determined by its text.** -/
theorem readAll_chars (number : Number) : readAll number.chars = .ok number := by
  have hread := read_append (show Ends [] from fun c hc => by cases hc) number
  rw [List.append_nil] at hread
  rw [readAll, hread]

/-! ### What was read is the text of the number -/

variable {chars rest : List Char}

theorem of_readDigits {digits : { digits : List Digit // digits ≠ [] }}
    (hread : readDigits chars = .ok (digits, rest)) : chars = digits.val.map char ++ rest := by
  unfold readDigits at hread
  split at hread
  · cases hread
  · rename_i hspan
    have hchars := of_span chars
    rw [hspan] at hchars
    cases hread
    exact hchars

theorem of_readWhole {n : Nat} (hread : readWhole chars = .ok (n, rest)) :
    chars = (Digit.ofNat n).map char ++ rest := by
  unfold readWhole at hread
  split at hread
  · split at hread
    · cases hread
      rw [Digit.ofNat]
      rfl
    · cases hread
  · rename_i hzero
    split at hread
    · cases hread
    · rename_i digits after hdigits
      have hchars := of_readDigits hdigits
      cases hread
      have hfirst : digits.val.head? ≠ some 0 := by
        intro hhead
        obtain ⟨tail, htail⟩ := List.head?_eq_some_iff.mp hhead
        rw [htail] at hchars
        exact hzero _ hchars
      rw [ofNat_value digits.property hfirst]
      exact hchars

theorem of_readFraction {fraction : List Digit} (hread : readFraction chars = .ok (fraction, rest)) :
    chars = fractionChars fraction ++ rest := by
  unfold readFraction at hread
  split at hread
  · split at hread
    · cases hread
    · rename_i digits after hdigits
      have hchars := of_readDigits hdigits
      have hempty : digits.val.isEmpty = false := by simpa using digits.property
      cases hread
      rw [fractionChars, hempty, hchars]
      rfl
  · cases hread
    rfl

theorem of_readSign (chars : List Char) :
    chars = ((readSign chars).1.map Sign.char).toList ++ (readSign chars).2 := by
  unfold readSign
  split <;> rfl

theorem of_readExponent {exponent : Option Exponent}
    (hread : readExponent chars = .ok (exponent, rest)) :
    chars = (exponent.map Exponent.chars).getD [] ++ rest := by
  unfold readExponent at hread
  split at hread
  · cases hread
    rfl
  · rename_i mark tail
    split at hread
    · rename_i hmark
      split at hread
      · cases hread
      · rename_i body after hbody
        unfold readExponentBody at hbody
        simp only at hbody
        split at hbody
        · cases hbody
        · rename_i digits after hdigits
          have htail := of_readSign tail
          rw [of_readDigits hdigits] at htail
          cases hbody
          cases hread
          rw [Option.map_some, Option.getD_some, Exponent.chars]
          simp only [List.cons_append, List.append_assoc, ← htail]
          have hletter : mark = 'e' ∨ mark = 'E' := by simpa using hmark
          rcases hletter with rfl | rfl <;> rfl
    · cases hread
      rfl

theorem of_readUnsigned {negative : Bool} {number : Number}
    (hread : readUnsigned negative chars = .ok (number, rest)) :
    (if negative then ['-'] else []) ++ chars = number.chars ++ rest := by
  unfold readUnsigned at hread
  split at hread
  · cases hread
  · rename_i hwhole
    split at hread
    · cases hread
    · rename_i hfraction
      split at hread
      · cases hread
      · rename_i hexponent
        cases hread
        rw [of_readWhole hwhole, of_readFraction hfraction, of_readExponent hexponent, Number.chars]
        simp only [List.append_assoc]

theorem of_read {number : Number} (hread : read chars = .ok (number, rest)) :
    chars = number.chars ++ rest := by
  unfold read at hread
  split at hread
  · exact of_readUnsigned hread
  · exact of_readUnsigned hread

theorem readAll_eq_ok_iff {number : Number} : readAll chars = .ok number ↔ chars = number.chars := by
  constructor
  · intro hread
    unfold readAll at hread
    split at hread
    · cases hread
    · rename_i hfront
      cases hread
      rw [of_read hfront, List.append_nil]
    · cases hread
  · rintro rfl
    exact readAll_chars number

/-- **A text is read as a number exactly when it is the text of the number.** -/
theorem parse?_eq_some_iff {text : String} {number : Number} :
    parse? text = some number ↔ text = number.text := by
  rw [parse?, ofChars?, toOption_eq_some_iff, readAll_eq_ok_iff, Number.text, String.ext_iff,
    String.toList_ofList]

@[simp]
theorem normal_normal (number : Number) : number.normal.normal = number.normal := by
  rcases number with ⟨negative, whole, fraction, _ | exponent⟩ <;> rfl

end Number

end JsonEdit
