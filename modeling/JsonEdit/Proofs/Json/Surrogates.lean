import JsonEdit.Proofs.Json.Reader
import JsonEdit.Proofs.Path.Reader
import JsonEdit.Proofs.Text.Unpaired

/-!
# Texts with unpaired surrogates

There are two ways to read U+FFFD where the escape of a surrogate has no partner. Either the text is
rewritten beforehand and then read by a reader that refuses such escapes, or the reader replaces them
itself. Both come to the same, also where the text is malformed: the rewriting goes by the bytes alone,
and a plus sign passes for a digit there, but wherever it sees an escape that the reader does not see,
the reader stops at the same place of both texts.

The two readings are followed side by side, from the digits of a number and the characters of a string
to lexemes and states. They have the same value with the rest of the text written anew, or they stop for
the same reason, which is never a surrogate. A reader that refuses unpaired surrogates and does not have
to reads what the other one reads.
-/

namespace JsonEdit

open Text (mended byteCount CodeUnit)

/-! ### Two readings side by side -/

def Problem.ofSurrogate : Problem → Bool
  | .loneSurrogate | .unfinishedPair => true
  | _ => false

/-- Two readings have related values, or both stop for the same reason, which is no surrogate, at the
same place: there the second text is the first one written anew. -/
inductive Stop.Alike {α β : Type} (related : α → β → Prop) :
    Except Stop α → Except Stop β → Prop where
  | ok {value : α} {other : β} (hrelated : related value other) :
      Alike related (.ok value) (.ok other)
  | stop {problem : Problem} {rest : List Char} {bytes : Nat} (hproblem : problem.ofSurrogate = false) :
      Alike related (.error ⟨problem, rest, bytes⟩) (.error ⟨problem, mended rest, bytes⟩)

def AlikeRest {α : Type} (read written : α × List Char) : Prop := written = (read.1, mended read.2)

namespace Stop.Alike

variable {α β γ δ : Type} {related : α → β → Prop} {related' : γ → δ → Prop}
  {read : Except Stop α} {written : Except Stop β}

theorem bind {next : α → Except Stop γ} {next' : β → Except Stop δ}
    (hread : Alike related read written)
    (hnext : ∀ value other, related value other → Alike related' (next value) (next' other)) :
    Alike related' (read.bind next) (written.bind next') := by
  cases hread with
  | ok hrelated => exact hnext _ _ hrelated
  | stop hproblem => exact .stop hproblem

theorem map {f : α → γ} {g : β → δ} (hread : Alike related read written)
    (hmap : ∀ value other, related value other → related' (f value) (g other)) :
    Alike related' (read.map f) (written.map g) := by
  cases hread with
  | ok hrelated => exact .ok (hmap _ _ hrelated)
  | stop hproblem => exact .stop hproblem

end Stop.Alike

theorem alike_here {α : Type} {atEnd otherwise : Problem} (hatEnd : atEnd.ofSurrogate = false)
    (hotherwise : otherwise.ofSurrogate = false) (chars : List Char) :
    Stop.Alike (α := α × List Char) AlikeRest (.error (.here atEnd otherwise chars))
      (.error (.here atEnd otherwise (mended chars))) := by
  cases chars with
  | nil => exact .stop hatEnd
  | cons c rest =>
      obtain ⟨out, hout⟩ := List.head?_eq_some_iff.mp (Text.head?_mended (c :: rest))
      have hhere (rest : List Char) :
          Stop.here atEnd otherwise (c :: rest) = ⟨otherwise, c :: rest, 1⟩ := rfl
      rw [hout, hhere, hhere, ← hout]
      exact .stop hotherwise

/-! ### Numbers -/

theorem Digit.span_mended (chars : List Char) :
    Digit.span (mended chars) = ((Digit.span chars).1, mended (Digit.span chars).2) := by
  induction chars with
  | nil => rfl
  | cons c rest ih =>
      by_cases hc : c = '\\'
      · subst hc
        obtain ⟨out, hout⟩ := Text.exists_mended_backslash rest
        have hspan (rest : List Char) : Digit.span ('\\' :: rest) = ([], '\\' :: rest) := rfl
        rw [hspan, hout, hspan]
      · rw [Text.mended_cons hc, Digit.span, Digit.span, ih]
        cases hdigit : Digit.ofChar? c with
        | some digit => rfl
        | none => rw [← Text.mended_cons hc]

namespace Number

theorem alike_readDigits (chars : List Char) :
    Stop.Alike AlikeRest (readDigits chars) (readDigits (mended chars)) := by
  rw [readDigits, readDigits, Digit.span_mended]
  cases hspan : Digit.span chars with
  | mk digits rest =>
      cases digits with
      | nil => exact alike_here rfl rfl chars
      | cons digit digits => exact .ok rfl

theorem alike_readWhole (chars : List Char) :
    Stop.Alike AlikeRest (readWhole chars) (readWhole (mended chars)) := by
  have hother {chars : List Char} (hchars : chars.head? ≠ some '0') :
      readWhole chars = (readDigits chars).map fun read => (Digit.value read.1, read.2) := by
    rw [readWhole]
    · cases readDigits chars <;> rfl
    · rintro rest rfl
      exact hchars rfl
  by_cases hzero : chars.head? = some '0'
  · obtain ⟨rest, rfl⟩ := List.head?_eq_some_iff.mp hzero
    rw [Text.mended_cons (by decide), readWhole, readWhole, Digit.span_mended]
    split
    · exact .ok rfl
    · exact alike_here rfl rfl rest
  · rw [hother hzero, hother (by rwa [Text.head?_mended])]
    exact (alike_readDigits chars).map fun _ _ hleft => hleft ▸ rfl

theorem alike_readFraction (chars : List Char) :
    Stop.Alike AlikeRest (readFraction chars) (readFraction (mended chars)) := by
  have hother {chars : List Char} (hchars : chars.head? ≠ some '.') :
      readFraction chars = .ok ([], chars) := by
    rw [readFraction]
    rintro rest rfl
    exact hchars rfl
  by_cases hpoint : chars.head? = some '.'
  · obtain ⟨rest, rfl⟩ := List.head?_eq_some_iff.mp hpoint
    have hfraction (rest : List Char) :
        readFraction ('.' :: rest) = (readDigits rest).map fun read => (read.1.val, read.2) := by
      rw [readFraction]
      cases readDigits rest <;> rfl
    rw [Text.mended_cons (by decide), hfraction, hfraction]
    exact (alike_readDigits rest).map fun _ _ hleft => hleft ▸ rfl
  · rw [hother hpoint, hother (by rwa [Text.head?_mended])]
    exact .ok rfl

theorem readSign_mended (chars : List Char) :
    readSign (mended chars) = ((readSign chars).1, mended (readSign chars).2) := by
  by_cases hplus : chars.head? = some '+'
  · obtain ⟨rest, rfl⟩ := List.head?_eq_some_iff.mp hplus
    rw [Text.mended_cons (by decide), readSign, readSign]
  by_cases hminus : chars.head? = some '-'
  · obtain ⟨rest, rfl⟩ := List.head?_eq_some_iff.mp hminus
    rw [Text.mended_cons (by decide), readSign, readSign]
  have hother {chars : List Char} (hplus : chars.head? ≠ some '+')
      (hminus : chars.head? ≠ some '-') : readSign chars = (none, chars) := by
    rw [readSign]
    · rintro rest rfl
      exact hplus rfl
    · rintro rest rfl
      exact hminus rfl
  rw [hother hplus hminus, hother (by rwa [Text.head?_mended]) (by rwa [Text.head?_mended])]

theorem alike_readExponent (chars : List Char) :
    Stop.Alike AlikeRest (readExponent chars) (readExponent (mended chars)) := by
  cases chars with
  | nil => exact .ok rfl
  | cons mark rest =>
      by_cases hmark : mark = 'e' ∨ mark = 'E'
      · have hexponent (rest : List Char) : readExponent (mark :: rest) =
            (readDigits (readSign rest).2).map fun read =>
              (some ⟨mark = 'E', (readSign rest).1, read.1.val, read.1.property⟩, read.2) := by
          have hcond : (mark = 'e' || mark = 'E') = true := by simpa using hmark
          rw [readExponent, if_pos hcond, readExponentBody]
          cases readSign rest with
          | mk sign unsigned =>
              dsimp only
              cases readDigits unsigned <;> rfl
        have hne : mark ≠ '\\' := by rcases hmark with rfl | rfl <;> decide
        rw [Text.mended_cons hne, hexponent, hexponent, readSign_mended]
        exact (alike_readDigits _).map fun _ _ hleft => hleft ▸ rfl
      · obtain ⟨out, hout⟩ := List.head?_eq_some_iff.mp (Text.head?_mended (mark :: rest))
        have hother (rest : List Char) : readExponent (mark :: rest) = .ok (none, mark :: rest) := by
          have hcond : ¬(mark = 'e' || mark = 'E') = true := by simpa using hmark
          rw [readExponent, if_neg hcond]
        rw [hout, hother, hother, ← hout]
        exact .ok rfl

theorem alike_readUnsigned (negative : Bool) (chars : List Char) :
    Stop.Alike AlikeRest (readUnsigned negative chars) (readUnsigned negative (mended chars)) := by
  have hbind (chars : List Char) : readUnsigned negative chars =
      (readWhole chars).bind fun whole =>
        (readFraction whole.2).bind fun fraction =>
          (readExponent fraction.2).map fun exponent =>
            (⟨negative, whole.1, fraction.1, exponent.1⟩, exponent.2) := by
    rw [readUnsigned]
    cases readWhole chars with
    | error stop => rfl
    | ok whole =>
        dsimp only [Except.bind]
        cases readFraction whole.2 with
        | error stop => rfl
        | ok fraction =>
            dsimp only [Except.bind]
            cases readExponent fraction.2 <;> rfl
  rw [hbind, hbind]
  refine (alike_readWhole chars).bind ?_
  rintro ⟨whole, rest⟩ _ rfl
  refine (alike_readFraction rest).bind ?_
  rintro ⟨fraction, rest⟩ _ rfl
  refine (alike_readExponent rest).map ?_
  rintro ⟨exponent, rest⟩ _ rfl
  rfl

theorem alike_read (chars : List Char) :
    Stop.Alike AlikeRest (read chars) (read (mended chars)) := by
  have hother {chars : List Char} (hchars : chars.head? ≠ some '-') :
      read chars = readUnsigned false chars := by
    rw [read]
    rintro rest rfl
    exact hchars rfl
  by_cases hminus : chars.head? = some '-'
  · obtain ⟨rest, rfl⟩ := List.head?_eq_some_iff.mp hminus
    rw [Text.mended_cons (by decide), read, read]
    exact alike_readUnsigned true rest
  · rw [hother hminus, hother (by rwa [Text.head?_mended])]
    exact alike_readUnsigned false chars

end Number

namespace Json

/-! ### Strings -/

theorem codeUnit?_eq_none {a b c d : Char} (hunit : Path.escapedUnit? a b c d = none) :
    Text.codeUnit? a b c d = none :=
  Option.eq_none_iff_forall_ne_some.mpr fun _ hspelled => by
    cases hunit.symm.trans (Path.escapedUnit?_of_codeUnit? hspelled)

theorem ne_backslash_of_codeUnit? {a b c d : Char} (hunit : Text.codeUnit? a b c d = some unit) :
    ∀ digit ∈ [a, b, c, d], digit ≠ '\\' :=
  Text.ne_of_escapedUnit? (Path.escapedUnit?_of_codeUnit? hunit) '\\' rfl (by decide)

/-- What spells no unit spells none when it is written anew. -/
theorem unit?_mended (hunit : unit? rest = none) : unit? (mended rest) = none := by
  refine Option.eq_none_iff_forall_ne_some.mpr fun unit hmended => ?_
  obtain ⟨a, b, c, d, more, hout, hspelled⟩ := unit?_eq_some_iff.mp hmended
  have hne := ne_backslash_of_codeUnit? hspelled
  obtain ⟨_, rfl, ha⟩ := Text.exists_of_mended_eq_cons hout (hne a (by simp))
  obtain ⟨_, rfl, hb⟩ := Text.exists_of_mended_eq_cons ha (hne b (by simp))
  obtain ⟨_, rfl, hc⟩ := Text.exists_of_mended_eq_cons hb (hne c (by simp))
  obtain ⟨_, rfl, -⟩ := Text.exists_of_mended_eq_cons hc (hne d (by simp))
  cases hunit.symm.trans hspelled

theorem length_le_byteCount (chars : List Char) : chars.length ≤ byteCount chars := by
  induction chars with
  | nil => exact Nat.zero_le _
  | cons c rest ih =>
      have hsize := Char.utf8Size_pos c
      rw [List.length_cons, byteCount]
      omega

/-- Whether four characters are left can be seen from the number of bytes. -/
theorem badUnit_eq (rest : List Char) : badUnit rest =
    if byteCount rest < 4 then ⟨.endInString, [], 0⟩ else ⟨.invalidEscape, rest, 4⟩ := by
  have hlong := length_le_byteCount (rest.take 4)
  have hsplit : byteCount rest = byteCount (rest.take 4) + byteCount (rest.drop 4) := by
    rw [← Text.byteCount_append, List.take_append_drop]
  have hiff : byteCount (rest.take 4) < 4 ↔ byteCount rest < 4 := by
    by_cases hshort : rest.length ≤ 4
    · rw [List.take_of_length_le hshort]
    · rw [List.length_take, Nat.min_eq_left (by omega)] at hlong
      omega
  rw [badUnit]
  simp only [hiff]

theorem alike_badUnit {α : Type} (rest : List Char) :
    Stop.Alike (α := α × List Char) AlikeRest (.error (badUnit rest))
      (.error (badUnit (mended rest))) := by
  rw [badUnit_eq, badUnit_eq, Text.byteCount_mended]
  split
  · exact .stop rfl
  · exact .stop rfl

theorem readString_mark (read rest : List Char) :
    readString .refused read none (Text.mark ++ rest) =
      readString .refused (Text.replacement :: read) none rest := rfl

/-! ### One piece of a string -/

section Piece

variable {read rest : List Char} {first second : CodeUnit} {a b c d e f g h : Char}

/-- From here on a string is read alike before and after the escapes are written anew. -/
def AlikeString (chars : List Char) : Prop :=
  ∀ read, Stop.Alike AlikeRest (readString .replaced read none chars)
    (readString .refused read none (mended chars))

theorem alike_unit_none (hnone : unit? rest = none) :
    Stop.Alike AlikeRest (readString .replaced read none ('\\' :: 'u' :: rest))
      (readString .refused read none ('\\' :: 'u' :: mended rest)) := by
  rw [readString_unit_none hnone, readString_unit_none (unit?_mended hnone)]
  exact alike_badUnit rest

theorem alike_pair (hfirst : Path.escapedUnit? a b c d = some first) (hhigh : first.isHigh = true)
    (hsecond : Path.escapedUnit? e f g h = some second) (hlow : second.isLow = true)
    (hrest : AlikeString rest) :
    Stop.Alike AlikeRest
      (readString .replaced read none
        ('\\' :: 'u' :: a :: b :: c :: d :: '\\' :: 'u' :: e :: f :: g :: h :: rest))
      (readString .refused read none
        ('\\' :: 'u' :: a :: b :: c :: d :: '\\' :: 'u' :: e :: f :: g :: h :: mended rest)) := by
  have hfirst := Text.codeUnit?_of_surrogate hfirst (.inl hhigh)
  have hsecond := Text.codeUnit?_of_surrogate hsecond (.inr hlow)
  rw [readString_pair hfirst hhigh hsecond hlow, readString_pair hfirst hhigh hsecond hlow]
  exact hrest _

theorem alike_high (hunit : Path.escapedUnit? a b c d = some first) (hhigh : first.isHigh = true)
    (hlow : NoLow rest) (hrest : AlikeString rest) :
    Stop.Alike AlikeRest (readString .replaced read none ('\\' :: 'u' :: a :: b :: c :: d :: rest))
      (readString .refused read none (Text.mark ++ mended rest)) := by
  rw [readString_unpaired (Text.codeUnit?_of_surrogate hunit (.inl hhigh)) hhigh hlow, readString_mark]
  exact hrest _

theorem alike_low (hunit : Path.escapedUnit? a b c d = some first) (hhigh : first.isHigh = false)
    (hlow : first.isLow = true) (hrest : AlikeString rest) :
    Stop.Alike AlikeRest (readString .replaced read none ('\\' :: 'u' :: a :: b :: c :: d :: rest))
      (readString .refused read none (Text.mark ++ mended rest)) := by
  have hstrict := Text.codeUnit?_of_surrogate hunit (.inr hlow)
  have hsingle : first.single = Text.replacement := by
    rw [CodeUnit.single, hlow, Bool.or_true, if_pos rfl]
  rw [readString_single hstrict hhigh fun _ => rfl, hsingle, readString_mark]
  exact hrest _

theorem alike_single (hunit : Path.escapedUnit? a b c d = some first) (hhigh : first.isHigh = false)
    (hlow : first.isLow = false) (hrest : AlikeString rest) :
    Stop.Alike AlikeRest (readString .replaced read none ('\\' :: 'u' :: a :: b :: c :: d :: rest))
      (readString .refused read none ('\\' :: 'u' :: a :: b :: c :: d :: mended rest)) := by
  cases hstrict : Text.codeUnit? a b c d with
  | some strict =>
      obtain rfl : strict = first :=
        Option.some.inj ((Path.escapedUnit?_of_codeUnit? hstrict).symm.trans hunit)
      have hreplaced : strict.isLow = true → LoneSurrogate.refused = .replaced :=
        fun hsurrogate => by cases hlow.symm.trans hsurrogate
      rw [readString_single hstrict hhigh fun _ => rfl, readString_single hstrict hhigh hreplaced]
      exact hrest _
  | none =>
      -- the unit is spelled with a plus sign, which is no digit
      have hnone : unit? (a :: b :: c :: d :: rest) = none := hstrict
      have hne := Text.ne_of_escapedUnit? hunit '\\' rfl (by decide)
      have hmended : mended (a :: b :: c :: d :: rest) = a :: b :: c :: d :: mended rest := by
        rw [Text.mended_cons (hne a (by simp)), Text.mended_cons (hne b (by simp)),
          Text.mended_cons (hne c (by simp)), Text.mended_cons (hne d (by simp))]
      rw [← hmended]
      exact alike_unit_none hnone

theorem alike_letter {letter : Char} (hletter : letter ≠ 'u') (hrest : AlikeString rest) :
    Stop.Alike AlikeRest (readString .replaced read none ('\\' :: letter :: rest))
      (readString .refused read none ('\\' :: letter :: mended rest)) := by
  rw [readString_escape hletter, readString_escape hletter]
  cases hescaped : escaped? letter with
  | some c => exact hrest _
  | none =>
      have hbackslash : letter ≠ '\\' := by
        rintro rfl
        cases hescaped
      rw [← Text.mended_cons hbackslash]
      exact .stop rfl

theorem alike_char (hbackslash : c ≠ '\\') (hrest : AlikeString rest) :
    Stop.Alike AlikeRest (readString .replaced read none (c :: rest))
      (readString .refused read none (c :: mended rest)) := by
  rw [readString_char hbackslash, readString_char hbackslash]
  split
  · exact .ok rfl
  split
  · rw [← Text.mended_cons hbackslash]
    exact .stop rfl
  · exact hrest _

end Piece

/-- A string is followed from one piece that is copied or written anew to the next. -/
theorem alike_readString (read chars : List Char) :
    Stop.Alike AlikeRest (readString .replaced read none chars)
      (readString .refused read none (mended chars)) := by
  fun_induction mended chars generalizing read with
  | case1 => exact .stop rfl
  | case2 a b c d rest hunit ih => exact alike_unit_none (codeUnit?_eq_none hunit)
  | case3 a b c d first hfirst hhigh e f g h more hlow ih =>
      obtain ⟨second, hsecond, hlow⟩ := (Option.any_eq_true ..).mp hlow
      exact alike_pair hfirst hhigh hsecond hlow ih
  | case4 a b c d first hfirst hhigh e f g h more hlow ih =>
      refine alike_high hfirst hhigh ?_ ih
      rintro _ _ _ _ _ low ⟨⟩ hsecond
      rw [Path.escapedUnit?_of_codeUnit? hsecond] at hlow
      exact Bool.eq_false_iff.mpr hlow
  | case5 a b c d first hfirst hhigh rest hother ih =>
      refine alike_high hfirst hhigh ?_ ih
      rintro _ _ _ _ _ low rfl
      exact (hother _ _ _ _ _ rfl).elim
  | case6 a b c d rest first hfirst hhigh hlow ih =>
      exact alike_low hfirst (Bool.eq_false_iff.mpr hhigh) hlow ih
  | case7 a b c d rest first hfirst hhigh hlow ih =>
      exact alike_single hfirst (Bool.eq_false_iff.mpr hhigh) (Bool.eq_false_iff.mpr hlow) ih
  | case8 letter rest hother ih =>
      by_cases hletter : letter = 'u'
      · subst hletter
        refine alike_unit_none (Option.eq_none_iff_forall_ne_some.mpr fun unit hunit => ?_)
        obtain ⟨a, b, c, d, more, rfl, -⟩ := unit?_eq_some_iff.mp hunit
        exact hother a b c d more rfl rfl
      · exact alike_letter hletter ih
  | case9 c rest hother hother' ih =>
      by_cases hbackslash : c = '\\'
      · subst hbackslash
        cases rest with
        | nil => exact .stop rfl
        | cons letter rest => exact (hother' letter rest rfl rfl).elim
      · exact alike_char hbackslash ih

end Json

/-! ### Lexemes -/

namespace Lexeme

/-- No word has a backslash. -/
theorem not_mem_of_word? {c : Char} {value : Json} {letters : List Char}
    (hword : word? c = some (value, letters)) : '\\' ∉ letters := by
  unfold word? at hword
  split at hword <;> cases hword <;> decide

theorem alike_readWord {letters : List Char} (hletters : '\\' ∉ letters) (chars : List Char) :
    Stop.Alike (fun rest out => out = mended rest) (readWord letters chars)
      (readWord letters (mended chars)) := by
  induction letters generalizing chars with
  | nil => exact .ok rfl
  | cons letter letters ih =>
      obtain ⟨hletter, hothers⟩ := not_or.mp (List.mem_cons.not.mp hletters)
      cases chars with
      | nil => exact .stop rfl
      | cons c rest =>
          by_cases hc : c = letter
          · subst hc
            rw [Text.mended_cons (Ne.symm hletter), readWord, readWord, if_pos rfl, if_pos rfl]
            exact ih hothers rest
          · obtain ⟨out, hout⟩ := List.head?_eq_some_iff.mp (Text.head?_mended (c :: rest))
            rw [hout, readWord, readWord, if_neg hc, if_neg hc, ← hout]
            exact .stop rfl

end Lexeme

inductive Token.Alike : Token → Token → Prop where
  | openList : Alike .openList .openList
  | closeList : Alike .closeList .closeList
  | openObject : Alike .openObject .openObject
  | closeObject : Alike .closeObject .closeObject
  | colon : Alike .colon .colon
  | comma : Alike .comma .comma
  | word {read written : Except Stop Json} (hread : Stop.Alike Eq read written) :
      Alike (.word read) (.word written)
  | number {read written : Except Stop Number} (hread : Stop.Alike Eq read written) :
      Alike (.number read) (.number written)
  | string {read written : Except Stop String} (hread : Stop.Alike Eq read written) :
      Alike (.string read) (.string written)
  | other : Alike .other .other

inductive Lexeme.Alike : Lexeme → Lexeme → Prop where
  | intro {token token' : Token} (htoken : Token.Alike token token') (start : List Char) :
      Alike ⟨token, start⟩ ⟨token', mended start⟩

namespace Lexeme

theorem alike_punctuation {c : Char} {token : Token} (htoken : punctuation? c = some token) :
    Token.Alike token token := by
  unfold punctuation? at htoken
  split at htoken <;> cases htoken <;> constructor

def AlikeFirst (read written : Lexeme × List Char) : Prop :=
  read.1.Alike written.1 ∧ written.2 = mended read.2

theorem alike_ofRead {α : Type} {token : Except Stop α → Token}
    (htoken : ∀ {read written}, Stop.Alike Eq read written → Token.Alike (token read) (token written))
    {read written : Except Stop (α × List Char)} (hread : Stop.Alike AlikeRest read written)
    (start : List Char) :
    AlikeFirst (ofRead start token read) (ofRead (mended start) token written) := by
  cases hread with
  | ok hrelated =>
      cases hrelated
      exact ⟨.intro (htoken (.ok rfl)) start, rfl⟩
  | stop hproblem => exact ⟨.intro (htoken (.stop hproblem)) start, rfl⟩

theorem alike_beginning {c : Char} (hc : c ≠ '\\') (rest : List Char) :
    AlikeFirst (beginning .replaced c rest) (beginning .refused c (mended rest)) := by
  unfold beginning
  rw [← Text.mended_cons hc]
  split
  · rename_i htoken
    exact ⟨.intro (alike_punctuation htoken) _, rfl⟩
  split
  · exact alike_ofRead .string (Json.alike_readString [] rest) _
  split
  · exact alike_ofRead .number (Number.alike_read _) _
  split
  · rename_i value letters hword
    refine alike_ofRead .word (.map (alike_readWord (not_mem_of_word? hword) rest) ?_) _
    rintro after _ rfl
    rfl
  · exact ⟨.intro .other _, rfl⟩

theorem alike_next? (chars : List Char) :
    Option.Rel AlikeFirst (next? .replaced chars) (next? .refused (mended chars)) := by
  induction chars with
  | nil => exact .none
  | cons c rest ih =>
      by_cases hc : c = '\\'
      · subst hc
        obtain ⟨out, hout⟩ := Text.exists_mended_backslash rest
        have hnext (lone : Json.LoneSurrogate) (rest : List Char) :
            next? lone ('\\' :: rest) = some (⟨.other, '\\' :: rest⟩, []) := rfl
        rw [hout, hnext, hnext, ← hout]
        exact .some ⟨.intro .other _, rfl⟩
      · rw [Text.mended_cons hc, next?, next?]
        split
        · exact ih
        · exact .some (alike_beginning hc rest)

end Lexeme

/-! ### States -/

namespace Reader

inductive Alike {α : Type} : Except Halt α → Except Halt α → Prop where
  | ok (value : α) : Alike (.ok value) (.ok value)
  | stop {problem : Problem} {rest : List Char} {bytes : Nat} (hproblem : problem.ofSurrogate = false) :
      Alike (.error (.stop ⟨problem, rest, bytes⟩)) (.error (.stop ⟨problem, mended rest, bytes⟩))
  | withinNumberText {error : ReadError} (hproblem : error.problem.ofSurrogate = false) :
      Alike (.error (.withinNumberText error)) (.error (.withinNumberText error))

variable {lexeme lexeme' : Lexeme}

theorem Alike.refuse {α : Type} {problem : Problem} (hproblem : problem.ofSurrogate = false)
    (hlexeme : lexeme.Alike lexeme') :
    Alike (α := α) (refuse problem lexeme) (refuse problem lexeme') := by
  cases hlexeme
  exact .stop hproblem

theorem Alike.refuseNumberText {found : String} {length : Nat} (hlexeme : lexeme.Alike lexeme') :
    Alike (refuseNumberText found lexeme length) (refuseNumberText found lexeme' length) := by
  cases hlexeme
  exact .stop rfl

theorem Alike.continueWith {α : Type} {read written : Except Stop α}
    {next next' : α → Except Halt Reader} (hread : Stop.Alike Eq read written)
    (hnext : ∀ value, Alike (next value) (next' value)) :
    Alike (continueWith next read) (continueWith next' written) := by
  cases hread with
  | ok heq =>
      subst heq
      exact hnext _
  | stop hproblem => exact .stop hproblem

theorem alike_beginValue (frames : List Frame) (hlexeme : lexeme.Alike lexeme') :
    Alike (beginValue frames lexeme) (beginValue frames lexeme') := by
  have hrefuse {problem : Problem} (hproblem : problem.ofSurrogate = false) :
      Alike (α := Reader) (refuse problem lexeme) (refuse problem lexeme') := .refuse hproblem hlexeme
  cases hlexeme with
  | intro htoken start =>
      cases htoken with
      | openList | openObject =>
          dsimp only [beginValue]
          split
          · exact hrefuse rfl
          · exact .ok _
      | word hread | number hread | string hread => exact .continueWith hread fun _ => .ok _
      | _ => exact hrefuse rfl

/-- What is wrong with the text of a number has nothing to do with surrogates. -/
theorem problem_of_readAll {chars : List Char} {stop : Stop}
    (hread : Number.readAll chars = .error stop) : stop.problem.ofSurrogate = false := by
  rw [Number.readAll] at hread
  split at hread
  · rename_i first hfirst
    have halike := Number.alike_read chars
    rw [hfirst] at halike
    have hplace : (Number.placeInText chars first).problem = first.problem := by
      unfold Number.placeInText
      split
      · rfl
      · split <;> rfl
    cases hread
    rw [hplace]
    generalize Number.read (mended chars) = written at halike
    cases halike with
    | stop hproblem => exact hproblem
  · cases hread
  · rename_i rest _ _
    cases hread
    cases rest <;> rfl

theorem alike_beginNumberText (frames : List Frame) (hlexeme : lexeme.Alike lexeme') :
    Alike (beginNumberText frames lexeme) (beginNumberText frames lexeme') := by
  have hrefuse {problem : Problem} (hproblem : problem.ofSurrogate = false) :
      Alike (α := Reader) (refuse problem lexeme) (refuse problem lexeme') := .refuse hproblem hlexeme
  have hnumber (found : String) (length : Nat) :
      Alike (refuseNumberText found lexeme length) (refuseNumberText found lexeme' length) :=
    .refuseNumberText hlexeme
  cases hlexeme with
  | intro htoken start =>
      cases htoken with
      | openList | openObject => exact hnumber _ _
      | word hread =>
          refine .continueWith hread fun value => ?_
          split <;> exact hnumber _ _
      | number hread => exact .continueWith hread fun _ => hnumber _ _
      | string hread =>
          refine .continueWith hread fun text => ?_
          cases hnumber : Number.readAll text.toList with
          | ok number => exact .ok _
          | error stop => exact .withinNumberText (problem_of_readAll hnumber)
      | _ => exact hrefuse rfl

theorem alike_step (reader : Reader) (hlexeme : lexeme.Alike lexeme') :
    Alike (reader.step lexeme) (reader.step lexeme') := by
  have hrefuse {problem : Problem} (hproblem : problem.ofSurrogate = false) :
      Alike (α := Reader) (refuse problem lexeme) (refuse problem lexeme') := .refuse hproblem hlexeme
  cases reader with
  | valueDue frames => exact alike_beginValue frames hlexeme
  | itemDue items frames =>
      have hvalue := alike_beginValue (.list items :: frames) hlexeme
      cases hlexeme with
      | intro htoken start =>
          cases htoken with
          | closeList =>
              dsimp only [step]
              split
              · exact .ok _
              · exact hrefuse rfl
          | _ => exact hvalue
  | keyDue entries frames =>
      cases hlexeme with
      | intro htoken start =>
          cases htoken with
          | string hread =>
              refine .continueWith hread fun key => ?_
              split <;> exact .ok _
          | closeObject =>
              dsimp only [step]
              split
              · exact .ok _
              · exact hrefuse rfl
          | _ => exact hrefuse rfl
  | numberTextDue frames => exact alike_beginNumberText frames hlexeme
  | done value => exact hrefuse rfl
  | afterItem items frames | colonDue entries key frames | afterEntry entries frames
  | numberColonDue frames | afterNumber number frames =>
      cases hlexeme with
      | intro htoken start =>
          cases htoken with
          | comma | closeList | colon | closeObject => first | exact .ok _ | exact hrefuse rfl
          | _ => exact hrefuse rfl

theorem alike_finish (reader : Reader) : Alike reader.finish reader.finish := by
  have hend {problem : Problem} (hproblem : problem.ofSurrogate = false) :
      Alike (α := Json) (.error (.stop ⟨problem, [], 0⟩)) (.error (.stop ⟨problem, [], 0⟩)) :=
    .stop hproblem
  cases reader with
  | done value => exact .ok value
  | itemDue items frames =>
      refine hend ?_
      split <;> rfl
  | keyDue entries frames =>
      refine hend ?_
      split <;> rfl
  | _ => exact hend rfl

/-- **Reading a text and reading what is written anew come to the same.** -/
theorem alike_run (reader : Reader) (chars : List Char) :
    Alike (run .replaced reader chars) (run .refused reader (mended chars)) := by
  have hfirst := Lexeme.alike_next? chars
  generalize hread : Lexeme.next? .replaced chars = read at hfirst
  generalize hwritten : Lexeme.next? .refused (mended chars) = written at hfirst
  cases hfirst with
  | none =>
      rw [run_of_end hread, run_of_end hwritten]
      exact alike_finish reader
  | @some first first' hlexeme =>
      obtain ⟨lexeme, rest⟩ := first
      obtain ⟨lexeme', _⟩ := first'
      obtain ⟨hlexeme, rfl⟩ := hlexeme
      have hstep := alike_step reader hlexeme
      generalize hnext : reader.step lexeme = next at hstep
      generalize hnext' : reader.step lexeme' = next' at hstep
      cases hstep with
      | ok next =>
          rw [run_of_step hread hnext, run_of_step hwritten hnext']
          exact alike_run next rest
      | stop hproblem =>
          rw [run_of_halt hread hnext, run_of_halt hwritten hnext']
          exact .stop hproblem
      | withinNumberText hproblem =>
          rw [run_of_halt hread hnext, run_of_halt hwritten hnext']
          exact .withinNumberText hproblem
termination_by chars.length
decreasing_by exact Lexeme.length_of_next? hread

end Reader

namespace Json

/-- A place is shown by the same line and column. -/
theorem ofStop_mended (chars : List Char) (problem : Problem) (rest : List Char) (bytes : Nat) :
    ReadError.ofStop (mended chars) ⟨problem, mended rest, bytes⟩ =
      .ofStop chars ⟨problem, rest, bytes⟩ := by
  rw [ReadError.ofStop, ReadError.ofStop, Text.ofByteCount_mended, Text.byteCount_mended,
    Text.byteCount_mended]

/-- **The reader that replaces surrogates is the one that refuses them on a text written anew.** No error
of it is about a surrogate. -/
theorem read_mended (chars : List Char) : read .refused (mended chars) = read .replaced chars ∧
    ∀ error, read .replaced chars = .error error → error.problem.ofSurrogate = false := by
  have hrun := Reader.alike_run (.valueDue []) chars
  rw [read, read]
  generalize Reader.run .replaced (.valueDue []) chars = result at hrun ⊢
  generalize Reader.run .refused (.valueDue []) (mended chars) = written at hrun ⊢
  cases hrun with
  | ok value =>
      refine ⟨rfl, ?_⟩
      rintro _ ⟨⟩
  | stop hproblem =>
      refine ⟨congrArg Except.error (ofStop_mended ..), ?_⟩
      rintro _ ⟨⟩
      exact hproblem
  | withinNumberText hproblem =>
      refine ⟨rfl, ?_⟩
      rintro _ ⟨⟩
      exact hproblem

/-! ### Texts that are read without any rewriting -/

/-- Whatever comes next, a reader that refuses goes on as the other one does, or it stops. -/
theorem readString_of_refused {sofar chars : List Char} {high : Option CodeUnit}
    {result : String × List Char} (hread : readString .refused sofar high chars = .ok result) :
    readString .replaced sofar high chars = .ok result := by
  fun_induction readString .refused sofar high chars <;> simp_all [readString]

end Json

namespace Lexeme

/-- The first lexeme is the same, or it is a string that breaks off for the reader that refuses. -/
theorem next?_of_refused (chars : List Char) : next? .replaced chars = next? .refused chars ∨
    ∃ stop start, next? .refused chars = some (⟨.string (.error stop), start⟩, []) := by
  induction chars with
  | nil => exact .inl rfl
  | cons c rest ih =>
      rw [next?, next?]
      split
      · exact ih
      by_cases hquote : c = '"'
      · subst hquote
        have hstring (lone : Json.LoneSurrogate) : beginning lone '"' rest =
            ofRead ('"' :: rest) .string (Json.readString lone [] none rest) := rfl
        rw [hstring, hstring]
        cases hread : Json.readString .refused [] none rest with
        | error stop => exact .inr ⟨stop, _, rfl⟩
        | ok result => exact .inl (by rw [Json.readString_of_refused hread])
      · left
        unfold beginning
        rw [if_neg hquote, if_neg hquote]

end Lexeme

namespace Reader

theorem step_string_error (reader : Reader) (stop : Stop) (start : List Char) :
    ∃ halt, reader.step ⟨.string (.error stop), start⟩ = .error halt := by
  cases reader <;> exact ⟨_, rfl⟩

/-- What is read where surrogates are refused is read where they are replaced. -/
theorem run_of_refused {reader : Reader} {chars : List Char} {value : Json}
    (hrun : run .refused reader chars = .ok value) : run .replaced reader chars = .ok value := by
  obtain hnext | ⟨stop, start, hnext⟩ := Lexeme.next?_of_refused chars
  · cases hfirst : Lexeme.next? .refused chars with
    | none =>
        rw [run_of_end hfirst] at hrun
        rw [run_of_end (hnext.trans hfirst), hrun]
    | some first =>
        obtain ⟨lexeme, rest⟩ := first
        cases hstep : reader.step lexeme with
        | error halt =>
            rw [run_of_halt hfirst hstep] at hrun
            cases hrun
        | ok next =>
            rw [run_of_step hfirst hstep] at hrun
            rw [run_of_step (hnext.trans hfirst) hstep]
            exact run_of_refused hrun
  · obtain ⟨halt, hstep⟩ := reader.step_string_error stop start
    rw [run_of_halt hnext hstep] at hrun
    cases hrun
termination_by chars.length
decreasing_by exact Lexeme.length_of_next? hfirst

end Reader

namespace Json

/-- **Unpaired surrogates do not matter.** A text is read as if it was rewritten beforehand, by a reader
that refuses unpaired surrogates: with the same tree, or the same problem at the same place. Where that
reader takes the text as it stands, the tree is the same. Reading never fails because of a surrogate. -/
theorem parse_eq_parseRefusing (text : String) :
    (∃ rewritten, Text.rewritten? text.toList = some rewritten ∧
      parse text = parseRefusing (String.ofList rewritten)) ∧
    (∀ value, parseRefusing text = .ok value → parse text = .ok value) ∧
    ∀ error, parse text = .error error →
      error.problem ≠ .loneSurrogate ∧ error.problem ≠ .unfinishedPair := by
  obtain ⟨hmended, hproblem⟩ := read_mended text.toList
  refine ⟨⟨mended text.toList, Text.rewritten?_eq _, ?_⟩, ?_, ?_⟩
  · rw [parse, parseRefusing, String.toList_ofList, hmended]
  · intro value hread
    exact read_eq_ok_iff.mpr (Reader.run_of_refused (read_eq_ok_iff.mp hread))
  · intro error herror
    have hnone := hproblem error herror
    exact ⟨fun hlone => by simp [hlone, Problem.ofSurrogate] at hnone,
      fun hunfinished => by simp [hunfinished, Problem.ofSurrogate] at hnone⟩

/-- A pair stays as it is, and an escape behind a high surrogate that is no unit ends both readings. -/
theorem parse_eq_parseRefusing_pair :
    parseRefusing "\"\\ud83d\\ude00\"" = .ok (.string "😀") ∧
      parse "\"\\ud83d\\ude00\"" = .ok (.string "😀") ∧
      parse "\"\\ud83d\\u+e00\"" = .error ⟨.invalidEscape, ⟨1, 13⟩⟩ ∧
      parse "\"\\ud83d\\u+e00\"" = parseRefusing "\"\\uFFFD\\u+e00\"" ∧
      Problem.invalidEscape ≠ .loneSurrogate := by
  have hpair : parseRefusing "\"\\ud83d\\ude00\"" = .ok (.string "😀") :=
    read_eq_ok_iff.mpr ((Reader.run_of_step rfl rfl).trans (Reader.run_of_end rfl))
  have hstop : parse "\"\\ud83d\\u+e00\"" = .error ⟨.invalidEscape, ⟨1, 13⟩⟩ := by
    rw [parse, read, Reader.run_of_halt rfl rfl]
    rfl
  obtain ⟨⟨rewritten, hrewritten, hread⟩, -, hproblem⟩ :=
    parse_eq_parseRefusing "\"\\ud83d\\u+e00\""
  have htext : some rewritten = some "\"\\uFFFD\\u+e00\"".toList :=
    hrewritten.symm.trans (by decide +kernel)
  rw [Option.some.inj htext, String.ofList_toList] at hread
  exact ⟨hpair, (parse_eq_parseRefusing _).2.1 _ hpair, hstop, hread, (hproblem _ hstop).1⟩

end Json

end JsonEdit
