import JsonEdit.Proofs.Path.Agreement
import Mathlib.Data.List.Forall2

/-!
# Escapes of unpaired surrogates written anew

A text can be made free of escapes of unpaired surrogates before it is read: each of them is written
anew as the escape of U+FFFD. That is done without regard to quotes, and a plus sign passes for the
first digit of an escape.

Character by character what is written has its old width in bytes and its old lines. The first character
stays, and so does every one that is not in such an escape.
-/

namespace JsonEdit.Text

def mark : List Char := ['\\', 'u', 'F', 'F', 'F', 'D']

/-- The text with the escapes of unpaired surrogates written anew. -/
def mended : List Char → List Char
  | [] => []
  | '\\' :: 'u' :: a :: b :: c :: d :: rest =>
    match Path.escapedUnit? a b c d with
    -- no unit, so an escape may begin at the next character already
    | none => '\\' :: 'u' :: mended (a :: b :: c :: d :: rest)
    | some unit =>
      if unit.isHigh then
        match rest with
        | '\\' :: 'u' :: e :: f :: g :: h :: more =>
          -- a pair stays, and the scan goes on behind the low surrogate
          if (Path.escapedUnit? e f g h).any CodeUnit.isLow then
            '\\' :: 'u' :: a :: b :: c :: d :: '\\' :: 'u' :: e :: f :: g :: h :: mended more
          else mark ++ mended ('\\' :: 'u' :: e :: f :: g :: h :: more)
        | other => mark ++ mended other
      else if unit.isLow then mark ++ mended rest
      else '\\' :: 'u' :: a :: b :: c :: d :: mended rest
  | '\\' :: c :: rest => '\\' :: c :: mended rest
  | c :: rest => c :: mended rest

/-! ### The first character -/

theorem mended_cons {c : Char} (hc : c ≠ '\\') (rest : List Char) :
    mended (c :: rest) = c :: mended rest := by
  rw [mended]
  · rintro _ _ _ _ _ rfl
    exact absurd rfl hc
  · rintro _ _ rfl
    exact absurd rfl hc

/-- The first character stays. -/
theorem head?_mended (text : List Char) : (mended text).head? = text.head? := by
  fun_cases mended text <;> rfl

theorem exists_of_mended_eq_cons {c : Char} {text out : List Char}
    (hmended : mended text = c :: out) (hc : c ≠ '\\') : ∃ rest, text = c :: rest ∧ mended rest = out := by
  have hhead := head?_mended text
  rw [hmended] at hhead
  obtain ⟨rest, rfl⟩ := List.head?_eq_some_iff.mp hhead.symm
  rw [mended_cons hc] at hmended
  exact ⟨rest, rfl, (List.cons.inj hmended).2⟩

theorem exists_mended_backslash (rest : List Char) : ∃ out, mended ('\\' :: rest) = '\\' :: out :=
  List.head?_eq_some_iff.mp (head?_mended ('\\' :: rest))

/-! ### The digits of an escape -/

section Digits

variable {a b c d : Char} {unit : CodeUnit}

theorem ne_of_hexValue? {c other : Char} {value : Nat} (hvalue : hexValue? c = some value)
    (hother : hexValue? other = none) : c ≠ other := by
  rintro rfl
  rw [hother] at hvalue
  cases hvalue

/-- What is neither a hexadecimal digit nor a plus sign is not in an escape. -/
theorem ne_of_escapedUnit? (hunit : Path.escapedUnit? a b c d = some unit) (other : Char)
    (hother : hexValue? other = none) (hplus : other ≠ '+') : ∀ digit ∈ [a, b, c, d], digit ≠ other := by
  simp only [Path.escapedUnit?, codeUnit?, Option.bind_eq_bind, Option.bind_eq_some_iff] at hunit
  obtain ⟨_, ha, _, hb, _, hc, _, hd, -⟩ := hunit
  simp only [List.mem_cons, List.not_mem_nil, or_false]
  rintro digit (rfl | rfl | rfl | rfl)
  · split at ha
    · rename_i hsign
      exact hsign ▸ hplus.symm
    · exact ne_of_hexValue? ha hother
  · exact ne_of_hexValue? hb hother
  · exact ne_of_hexValue? hc hother
  · exact ne_of_hexValue? hd hother

theorem lt_of_hexValue? {c : Char} {value : Nat} (hvalue : hexValue? c = some value) : value < 16 := by
  have hle {last : Char} (hc : decide (c ≤ last) = true) : c.toNat ≤ last.toNat :=
    UInt32.le_iff_toNat_le.mp (Char.le_def.mp (of_decide_eq_true hc))
  unfold hexValue? at hvalue
  split_ifs at hvalue with hdigit hlower hupper
  · have hlast : c.toNat ≤ 57 := hle (Bool.and_eq_true_iff.mp hdigit).2
    have hzero : '0'.toNat = 48 := rfl
    rw [Option.some.injEq] at hvalue
    omega
  · have hlast : c.toNat ≤ 102 := hle (Bool.and_eq_true_iff.mp hlower).2
    have ha : 'a'.toNat = 97 := rfl
    rw [Option.some.injEq] at hvalue
    omega
  · have hlast : c.toNat ≤ 70 := hle (Bool.and_eq_true_iff.mp hupper).2
    have hA : 'A'.toNat = 65 := rfl
    rw [Option.some.injEq] at hvalue
    omega

/-- A unit that is spelled with a plus sign is no surrogate. -/
theorem codeUnit?_of_surrogate (hunit : Path.escapedUnit? a b c d = some unit)
    (hsurrogate : unit.isHigh ∨ unit.isLow) : codeUnit? a b c d = some unit := by
  rw [Path.escapedUnit?] at hunit
  split at hunit
  · simp only [codeUnit?, Option.bind_eq_bind, Option.bind_eq_some_iff] at hunit
    obtain ⟨_, ⟨⟩, second, hb, third, hc, fourth, hd, ⟨⟩⟩ := hunit
    have hsecond := lt_of_hexValue? hb
    have hthird := lt_of_hexValue? hc
    have hfourth := lt_of_hexValue? hd
    exfalso
    simp only [CodeUnit.isHigh, CodeUnit.isLow, Bool.and_eq_true, decide_eq_true_eq,
      UInt16.le_iff_toNat_le, UInt16.toNat_ofNat', UInt16.reduceToNat, Nat.sub_self] at hsurrogate
    omega
  · exact hunit

end Digits

/-! ### Widths and lines -/

/-- Two characters take as many bytes, and both or neither of them end a line. -/
structure Alike (c d : Char) : Prop where
  utf8Size_eq : c.utf8Size = d.utf8Size
  newline_iff : c = '\n' ↔ d = '\n'

theorem Alike.refl (c : Char) : Alike c c := ⟨rfl, .rfl⟩

theorem forall₂_alike_refl (text : List Char) : List.Forall₂ Alike text text :=
  List.forall₂_same.mpr fun c _ => .refl c

theorem forall₂_mark {a b c d : Char} {unit : CodeUnit} (hunit : Path.escapedUnit? a b c d = some unit) :
    List.Forall₂ Alike ['\\', 'u', a, b, c, d] mark := by
  obtain ⟨ha, hb, hc, hd⟩ := Path.Cursor.utf8Size_of_escapedUnit? hunit
  have hne := ne_of_escapedUnit? hunit '\n' rfl (by decide)
  have halike {digit letter : Char} (hmem : digit ∈ [a, b, c, d]) (hdigit : digit.utf8Size = 1)
      (hletter : letter.utf8Size = 1 ∧ letter ≠ '\n') : Alike digit letter :=
    ⟨hdigit.trans hletter.1.symm, iff_of_false (hne digit hmem) hletter.2⟩
  refine .cons (.refl _) (.cons (.refl _) (.cons ?_ (.cons ?_ (.cons ?_ (.cons ?_ .nil)))))
  · exact halike (by simp) ha (by decide)
  · exact halike (by simp) hb (by decide)
  · exact halike (by simp) hc (by decide)
  · exact halike (by simp) hd (by decide)

theorem forall₂_mended (text : List Char) : List.Forall₂ Alike text (mended text) := by
  fun_induction mended text with
  | case1 => exact .nil
  | case2 a b c d rest hunit ih => exact .cons (.refl _) (.cons (.refl _) ih)
  | case3 a b c d unit hunit hhigh e f g h more hlow ih =>
      exact List.rel_append (forall₂_alike_refl ['\\', 'u', a, b, c, d, '\\', 'u', e, f, g, h]) ih
  | case4 a b c d unit hunit hhigh e f g h more hlow ih => exact List.rel_append (forall₂_mark hunit) ih
  | case5 a b c d unit hunit hhigh rest hother ih => exact List.rel_append (forall₂_mark hunit) ih
  | case6 a b c d rest unit hunit hhigh hlow ih => exact List.rel_append (forall₂_mark hunit) ih
  | case7 a b c d rest unit hunit hhigh hlow ih =>
      exact List.rel_append (forall₂_alike_refl ['\\', 'u', a, b, c, d]) ih
  | case8 c rest hother ih => exact .cons (.refl _) (.cons (.refl _) ih)
  | case9 c rest hother hother' ih => exact .cons (.refl _) ih

theorem byteCount_eq_of_alike {text out : List Char} (halike : List.Forall₂ Alike text out) :
    byteCount text = byteCount out := by
  induction halike with
  | nil => rfl
  | cons hc _ ih => rw [byteCount, byteCount, hc.utf8Size_eq, ih]

theorem advance_eq_of_alike {text out : List Char} (halike : List.Forall₂ Alike text out)
    (position : Position) (bytes : Nat) : position.advance text bytes = position.advance out bytes := by
  induction halike generalizing position bytes with
  | nil => rfl
  | cons hc _ ih =>
      rw [Position.advance, Position.advance, hc.utf8Size_eq]
      simp only [hc.newline_iff, ih]

theorem byteCount_mended (text : List Char) : byteCount (mended text) = byteCount text :=
  (byteCount_eq_of_alike (forall₂_mended text)).symm

/-- Every place of the text stays in its line and column. -/
theorem ofByteCount_mended (text : List Char) (bytes : Nat) :
    Position.ofByteCount (mended text) bytes = Position.ofByteCount text bytes :=
  (advance_eq_of_alike (forall₂_mended text) ⟨1, 0⟩ bytes).symm

/-- A text without escapes stays. -/
theorem mended_of_no_escape {text : List Char} (htext : ¬['\\', 'u'] <:+: text) : mended text = text := by
  have hwithin (rest : List Char) : ['\\', 'u'] <:+: '\\' :: 'u' :: rest := ⟨[], rest, rfl⟩
  fun_induction mended text with
  | case1 => rfl
  | case8 c rest hother ih =>
      rw [ih fun hrest => htext (hrest.trans (List.suffix_append ['\\', c] rest).isInfix)]
  | case9 c rest hother hother' ih =>
      rw [ih fun hrest => htext (hrest.trans (List.suffix_cons c rest).isInfix)]
  | _ => exact absurd (hwithin _) htext

end JsonEdit.Text
