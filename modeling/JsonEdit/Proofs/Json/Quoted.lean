import JsonEdit.Json.Printer
import JsonEdit.Json.Quoted
import Mathlib.Tactic.SplitIfs

/-!
# Reading a quoted string

What is read next depends on the next character, and behind a backslash on the escape. Every character
that is written inside quotes is read back as itself, whatever becomes of surrogates without a partner: a
written string has no escapes of surrogates at all.
-/

namespace JsonEdit.Json

/-! ### What is read next -/

def unit? : List Char → Option Text.CodeUnit
  | a :: b :: c :: d :: _ => Text.codeUnit? a b c d
  | _ => none

section ReadString

variable {lone : LoneSurrogate} {read rest : List Char} {high : Option Text.CodeUnit}
  {unit first second : Text.CodeUnit} {a b c d e f g h : Char}

theorem unit?_eq_some_iff : unit? rest = some unit ↔
    ∃ a b c d more, rest = a :: b :: c :: d :: more ∧ Text.codeUnit? a b c d = some unit := by
  unfold unit?
  split
  · constructor
    · exact fun hunit => ⟨_, _, _, _, _, rfl, hunit⟩
    · rintro ⟨_, _, _, _, _, ⟨⟩, hunit⟩
      exact hunit
  · rename_i hshort
    simp only [reduceCtorEq, false_iff, not_exists, not_and]
    rintro a b c d more rfl
    exact absurd rfl (hshort a b c d more)

theorem readString_unit_none (hunit : unit? rest = none) :
    readString lone read high ('\\' :: 'u' :: rest) = .error (badUnit rest) := by
  by_cases hfour : ∃ a b c d more, rest = a :: b :: c :: d :: more
  · obtain ⟨a, b, c, d, more, rfl⟩ := hfour
    rw [readString, show Text.codeUnit? a b c d = none from hunit]
  · rw [readString]
    rintro a b c d more rfl
    exact hfour ⟨a, b, c, d, more, rfl⟩

theorem readString_unit (hunit : Text.codeUnit? a b c d = some unit) :
    readString lone read none ('\\' :: 'u' :: a :: b :: c :: d :: rest) =
      if unit.isHigh then readString lone read (some unit) rest
      else if unit.isLow && lone = .refused then .error ⟨.loneSurrogate, a :: b :: c :: d :: rest, 4⟩
      else readString lone (unit.single :: read) none rest := by
  rw [readString, hunit]

theorem readString_single (hunit : Text.codeUnit? a b c d = some unit) (hhigh : unit.isHigh = false)
    (hlone : unit.isLow = true → lone = .replaced) :
    readString lone read none ('\\' :: 'u' :: a :: b :: c :: d :: rest) =
      readString lone (unit.single :: read) none rest := by
  have hrefused : (unit.isLow && lone = .refused) = false := by
    cases hlow : unit.isLow with
    | false => rfl
    | true => rw [hlone hlow]; rfl
  rw [readString_unit hunit, hhigh, hrefused]
  rfl

theorem readString_pair (hfirst : Text.codeUnit? a b c d = some first) (hhigh : first.isHigh = true)
    (hsecond : Text.codeUnit? e f g h = some second) (hlow : second.isLow = true) :
    readString lone read none
        ('\\' :: 'u' :: a :: b :: c :: d :: '\\' :: 'u' :: e :: f :: g :: h :: rest) =
      readString lone (first.pair second :: read) none rest := by
  rw [readString_unit hfirst, if_pos hhigh, readString, hsecond]
  exact if_pos hlow

def NoLow (chars : List Char) : Prop :=
  ∀ a b c d more low, chars = '\\' :: 'u' :: a :: b :: c :: d :: more →
    Text.codeUnit? a b c d = some low → low.isLow = false

/-- A high surrogate that is not followed by a low one is read as U+FFFD. -/
theorem readString_unpaired (hunit : Text.codeUnit? a b c d = some unit) (hhigh : unit.isHigh = true)
    (hlow : NoLow rest) :
    readString .replaced read none ('\\' :: 'u' :: a :: b :: c :: d :: rest) =
      readString .replaced (Text.replacement :: read) none rest := by
  rw [readString_unit hunit, if_pos hhigh]
  unfold readString
  split
  · rfl
  · rename_i e f g h more
    cases hsecond : Text.codeUnit? e f g h with
    | none => rfl
    | some second => simp [hlow e f g h more second rfl hsecond]
  all_goals rfl

theorem readString_escape {letter : Char} (hletter : letter ≠ 'u') :
    readString lone read none ('\\' :: letter :: rest) =
      match escaped? letter with
      | some c => readString lone (c :: read) none rest
      | none => .error ⟨.invalidEscape, letter :: rest, 1⟩ := by
  rw [readString]
  · rfl
  · rintro _ _ _ _ _ rfl
    exact absurd rfl hletter
  · exact hletter

theorem readString_char (hbackslash : c ≠ '\\') :
    readString lone read none (c :: rest) =
      if c = '"' then .ok (String.ofList read.reverse, rest)
      else if c.toNat < 0x20 then .error ⟨.controlCharacter, c :: rest, 1⟩
      else readString lone (c :: read) none rest := by
  rw [readString]
  · rfl
  all_goals
    intros
    contradiction

end ReadString

/-! ### A written string -/

theorem codeUnit?_fourHexDigits {n : Nat} (hcontrol : n < 0x20) :
    Text.codeUnit? (Nat.digitChar (n / 4096 % 16)) (Nat.digitChar (n / 256 % 16))
      (Nat.digitChar (n / 16 % 16)) (Nat.digitChar (n % 16)) = some (UInt16.ofNat n) ∧
      Text.CodeUnit.isHigh (UInt16.ofNat n) = false ∧ Text.CodeUnit.isLow (UInt16.ofNat n) = false ∧
      Text.CodeUnit.single (UInt16.ofNat n) = Char.ofNat n := by
  have hall : ∀ n : Fin 0x20,
      Text.codeUnit? (Nat.digitChar (n.val / 4096 % 16)) (Nat.digitChar (n.val / 256 % 16))
        (Nat.digitChar (n.val / 16 % 16)) (Nat.digitChar (n.val % 16)) = some (UInt16.ofNat n.val) ∧
        Text.CodeUnit.isHigh (UInt16.ofNat n.val) = false ∧
        Text.CodeUnit.isLow (UInt16.ofNat n.val) = false ∧
        Text.CodeUnit.single (UInt16.ofNat n.val) = Char.ofNat n.val := by
    decide
  exact hall ⟨n, hcontrol⟩

/-- An escape of one letter. -/
theorem readString_letter (lone : LoneSurrogate) (read : List Char) {letter c : Char}
    (hescaped : escaped? letter = some c) (rest : List Char) :
    readString lone read none ('\\' :: letter :: rest) = readString lone (c :: read) none rest := by
  have hletter : letter ≠ 'u' := by
    rintro rfl
    cases hescaped
  rw [readString_escape hletter, hescaped]

/-- An escape of four hexadecimal digits. -/
theorem readString_control (lone : LoneSurrogate) (read : List Char) {c : Char}
    (hcontrol : c.toNat < 0x20) (rest : List Char) :
    readString lone read none (['\\', 'u'] ++ Text.fourHexDigits c.toNat ++ rest) =
      readString lone (c :: read) none rest := by
  obtain ⟨hunit, hhigh, hlow, hsingle⟩ := codeUnit?_fourHexDigits hcontrol
  rw [Text.fourHexDigits, List.append_assoc]
  simp only [List.cons_append, List.nil_append]
  rw [readString_single hunit hhigh (by simp [hlow]), hsingle, Char.ofNat_toNat]

/-- A character that stands for itself. -/
theorem readString_plain (lone : LoneSurrogate) (read : List Char) {c : Char} (hquote : c ≠ '"')
    (hbackslash : c ≠ '\\') (hcontrol : ¬c.toNat < 0x20) (rest : List Char) :
    readString lone read none (c :: rest) = readString lone (c :: read) none rest := by
  rw [readString_char hbackslash, if_neg hquote, if_neg hcontrol]

/-- One character is read back. -/
theorem readString_quotedChar (lone : LoneSurrogate) (read : List Char) (c : Char)
    (rest : List Char) :
    readString lone read none (quotedChar c ++ rest) = readString lone (c :: read) none rest := by
  unfold quotedChar
  split_ifs with hself hback htab hline hfeed hreturn hcontrol
  · have hescaped : escaped? c = some c := by
      rcases (by simpa using hself : c = '"' ∨ c = '\\') with rfl | rfl <;> rfl
    exact readString_letter lone read hescaped rest
  · subst hback
    exact readString_letter lone read rfl rest
  · subst htab
    exact readString_letter lone read rfl rest
  · subst hline
    exact readString_letter lone read rfl rest
  · subst hfeed
    exact readString_letter lone read rfl rest
  · subst hreturn
    exact readString_letter lone read rfl rest
  · exact readString_control lone read hcontrol rest
  · have hself' : c ≠ '"' ∧ c ≠ '\\' := by simpa using hself
    exact readString_plain lone read hself'.1 hself'.2 hcontrol rest

theorem readString_flatMap (lone : LoneSurrogate) (read chars rest : List Char) :
    readString lone read none (chars.flatMap quotedChar ++ '"' :: rest) =
      .ok (String.ofList (read.reverse ++ chars), rest) := by
  induction chars generalizing read with
  | nil =>
      rw [List.flatMap_nil, List.nil_append, List.append_nil, readString]
      · rfl
      all_goals simp
  | cons c chars ih =>
      rw [List.flatMap_cons, List.append_assoc, readString_quotedChar, ih, List.reverse_cons,
        List.append_assoc, List.singleton_append]

/-- **A quoted string is read back.** -/
theorem readString_quoted (lone : LoneSurrogate) (text : String) (rest : List Char) :
    readString lone [] none (text.toList.flatMap quotedChar ++ '"' :: rest) = .ok (text, rest) := by
  rw [readString_flatMap, List.reverse_nil, List.nil_append, String.ofList_toList]

@[simp]
theorem settle_none (read : List Char) : settle read none = read := rfl

@[simp]
theorem settle_some (read : List Char) (high : Text.CodeUnit) :
    settle read (some high) = Text.replacement :: read := rfl

/-- A string has no more characters than its quotation. -/
theorem length_readString_le {lone : LoneSurrogate} {sofar chars rest : List Char}
    {high : Option Text.CodeUnit} {text : String}
    (hread : readString lone sofar high chars = .ok (text, rest)) :
    text.length + rest.length ≤ (settle sofar high).length + chars.length := by
  fun_induction readString lone sofar high chars <;> simp_all
  -- the closing quote, where the characters become the text
  case case16 =>
    rw [← hread.1, String.length_ofList, List.length_reverse]
    omega
  all_goals omega

end JsonEdit.Json
