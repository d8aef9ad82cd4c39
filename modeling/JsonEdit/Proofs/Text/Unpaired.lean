import JsonEdit.Proofs.Text.Mended

/-!
# Rewriting byte by byte

The escapes of unpaired surrogates are found by going over the bytes of a text. The parts between those
that are written anew are slices of the text, and a slice has no value if an end of it lies inside a
character. An escape that is written anew takes as many bytes as before.

After a backslash the bytes are passed over two at a time, so the place can come to lie inside a
character. It is never taken for the start of an escape there, since no byte of a longer character is a
backslash.
-/

namespace JsonEdit.Text

def encode (text : List Char) : List UInt8 := text.flatMap String.utf8EncodeChar

def unitAt? (bytes : List UInt8) (place : Nat) : Option CodeUnit :=
  match (bytes.drop place).take 4 with
  | [a, b, c, d] =>
    Path.escapedUnit? (Char.ofUInt8 a) (Char.ofUInt8 b) (Char.ofUInt8 c) (Char.ofUInt8 d)
  | _ => none

/-- What to do at a place: to go on so many bytes, or to write the escape there anew. -/
inductive Move where
  | skip (bytes : Nat) (hpositive : 0 < bytes)
  | rewrite

def LowAt (bytes : List UInt8) (place : Nat) : Prop :=
  bytes[place]? = some '\\'.toUInt8 ∧ bytes[place + 1]? = some 'u'.toUInt8 ∧
    (unitAt? bytes (place + 2)).any CodeUnit.isLow
deriving Decidable

def moveAt (bytes : List UInt8) (place : Nat) : Move :=
  if bytes[place]? ≠ some '\\'.toUInt8 then .skip 1 (by decide)
  else if bytes[place + 1]? ≠ some 'u'.toUInt8 then .skip 2 (by decide)
  else
    match unitAt? bytes (place + 2) with
    | none => .skip 2 (by decide)
    | some unit =>
      if unit.isHigh then
        if LowAt bytes (place + 6) then .skip 12 (by decide)
        else .rewrite
      else if unit.isLow then .rewrite
      else .skip 6 (by decide)

/-- Goes over the bytes from a place on. What stands before the place `copied` is written already. -/
def scan? (text written : List Char) (copied place : Nat) : Option (List Char) :=
  if _hinside : place < (encode text).length then
    match moveAt (encode text) place with
    | .skip bytes _hpositive => scan? text written copied (place + bytes)
    | .rewrite => do
      let part ← Path.Cursor.slice? text copied place
      scan? text (written ++ part ++ mark) (place + 6) (place + 6)
  else if copied = 0 then some text
  else do
    let rest ← Path.Cursor.charsFrom? text copied
    some (written ++ rest)
termination_by (encode text).length - place

/-- The text with the escapes of unpaired surrogates written anew, if no slice is taken inside a
character. A text without any `\u` is left at once. -/
def rewritten? (text : List Char) : Option (List Char) :=
  if ['\\', 'u'] <:+: text then scan? text [] 0 0 else some text

/-! ### Bytes and characters -/

theorem encode_cons (c : Char) (rest : List Char) :
    encode (c :: rest) = String.utf8EncodeChar c ++ encode rest := List.flatMap_cons

theorem encode_append (front rest : List Char) : encode (front ++ rest) = encode front ++ encode rest :=
  List.flatMap_append

theorem length_encode (text : List Char) : (encode text).length = byteCount text := by
  induction text with
  | nil => rfl
  | cons c rest ih => rw [encode_cons, List.length_append, String.length_utf8EncodeChar, ih, byteCount]

section Bytes

variable {c : Char} {byte : UInt8} {rest : List Char} {more : List UInt8}

/-- A byte of ASCII stands for a character by itself. -/
theorem eq_of_mem_utf8EncodeChar (hbyte : byte ∈ String.utf8EncodeChar c)
    (hascii : byte.toNat < 0x80) : c = Char.ofUInt8 byte := by
  unfold String.utf8EncodeChar at hbyte
  dsimp only at hbyte
  split_ifs at hbyte
  · rw [List.mem_singleton] at hbyte
    subst hbyte
    have hval (byte : UInt8) : (Char.ofUInt8 byte).val.toNat = byte.toNat := rfl
    refine Char.ext (UInt32.toNat.inj ?_)
    rw [hval, UInt8.toNat_ofNat']
    omega
  all_goals
    simp only [List.mem_cons, List.not_mem_nil, or_false] at hbyte
    rcases hbyte with rfl | rfl | rfl | rfl <;> simp only [UInt8.toNat_ofNat'] at hascii <;> omega

theorem ne_backslash_of_mem (hc : c ≠ '\\') (hbyte : byte ∈ String.utf8EncodeChar c) :
    byte ≠ '\\'.toUInt8 := by
  rintro rfl
  exact hc (eq_of_mem_utf8EncodeChar hbyte (by decide))

theorem utf8Size_ofUInt8_eq_one_iff : (Char.ofUInt8 byte).utf8Size = 1 ↔ byte.toNat < 0x80 := by
  rw [Char.utf8Size_eq_one_iff, UInt32.le_iff_toNat_le]
  exact Nat.lt_succ_iff.symm

theorem ofUInt8_toUInt8 (hsize : c.utf8Size = 1) : Char.ofUInt8 c.toUInt8 = c := by
  have hascii : c.toNat ≤ 127 := UInt32.le_iff_toNat_le.mp (Char.utf8Size_eq_one_iff.mp hsize)
  have hbyte : c.toUInt8.toNat = c.toNat := by
    rw [Char.toUInt8, UInt32.toNat_toUInt8]
    exact Nat.mod_eq_of_lt (Nat.lt_of_le_of_lt hascii (by decide))
  have hmem : c.toUInt8 ∈ String.utf8EncodeChar c := by
    rw [String.utf8EncodeChar_eq_singleton hsize]
    exact List.mem_singleton_self _
  exact (eq_of_mem_utf8EncodeChar hmem (by omega)).symm

/-- What begins with a byte of ASCII begins with its character. -/
theorem exists_of_encode_eq_cons (hencode : encode rest = byte :: more) (hascii : byte.toNat < 0x80) :
    ∃ tail, rest = Char.ofUInt8 byte :: tail ∧ encode tail = more := by
  cases rest with
  | nil => cases hencode
  | cons c tail =>
      rw [encode_cons] at hencode
      have hmem : byte ∈ String.utf8EncodeChar c := by
        have hne : String.utf8EncodeChar c ≠ [] := by
          rw [← List.length_pos_iff, String.length_utf8EncodeChar]
          exact Char.utf8Size_pos c
        obtain ⟨first, others, hfirst⟩ := List.exists_cons_of_ne_nil hne
        rw [hfirst, List.cons_append] at hencode
        rw [hfirst, (List.cons.inj hencode).1]
        exact List.mem_cons_self
      obtain rfl := eq_of_mem_utf8EncodeChar hmem hascii
      rw [String.utf8EncodeChar_eq_singleton (utf8Size_ofUInt8_eq_one_iff.mpr hascii)] at hencode
      exact ⟨tail, rfl, (List.cons.inj hencode).2⟩

theorem exists_of_getElem?_encode (hbyte : (encode rest)[0]? = some byte) (hascii : byte.toNat < 0x80) :
    ∃ tail, rest = Char.ofUInt8 byte :: tail := by
  rw [← List.head?_eq_getElem?] at hbyte
  obtain ⟨more, hmore⟩ := List.head?_eq_some_iff.mp hbyte
  obtain ⟨tail, htail, -⟩ := exists_of_encode_eq_cons hmore hascii
  exact ⟨tail, htail⟩

/-- Bytes spell a unit if and only if the characters do. -/
theorem unitAt?_encode_eq_some_iff {unit : CodeUnit} :
    unitAt? (encode rest) 0 = some unit ↔ ∃ after, Path.Cursor.unitAt? rest = some (unit, after) := by
  constructor
  · intro hunit
    unfold unitAt? at hunit
    split at hunit
    · rename_i a b c d hfour
      obtain ⟨ha, hb, hc, hd⟩ := Path.Cursor.utf8Size_of_escapedUnit? hunit
      rw [utf8Size_ofUInt8_eq_one_iff] at ha hb hc hd
      rw [List.drop_zero] at hfour
      have hbytes : encode rest = a :: b :: c :: d :: (encode rest).drop 4 :=
        calc
          encode rest = (encode rest).take 4 ++ (encode rest).drop 4 := (List.take_append_drop 4 _).symm
          _ = a :: b :: c :: d :: (encode rest).drop 4 := by rw [hfour]; rfl
      obtain ⟨rest, rfl, hrest⟩ := exists_of_encode_eq_cons hbytes ha
      obtain ⟨rest, rfl, hrest⟩ := exists_of_encode_eq_cons hrest hb
      obtain ⟨rest, rfl, hrest⟩ := exists_of_encode_eq_cons hrest hc
      obtain ⟨rest, rfl, -⟩ := exists_of_encode_eq_cons hrest hd
      exact ⟨rest, Path.Cursor.unitAt?_of_some hunit⟩
    · cases hunit
  · rintro ⟨after, hunit⟩
    obtain ⟨a, b, c, d, rfl, hspelled⟩ := Path.Cursor.exists_of_unitAt? hunit
    obtain ⟨ha, hb, hc, hd⟩ := Path.Cursor.utf8Size_of_escapedUnit? hspelled
    have hbytes : encode ([a, b, c, d] ++ after) =
        [a.toUInt8, b.toUInt8, c.toUInt8, d.toUInt8] ++ encode after := by
      simp only [List.cons_append, List.nil_append, encode_cons, String.utf8EncodeChar_eq_singleton,
        ha, hb, hc, hd]
      rfl
    rw [unitAt?, hbytes]
    simpa [ofUInt8_toUInt8, ha, hb, hc, hd] using hspelled

theorem unitAt?_encode (rest : List Char) :
    unitAt? (encode rest) 0 = (Path.Cursor.unitAt? rest).map Prod.fst := by
  ext unit
  rw [unitAt?_encode_eq_some_iff]
  simp

end Bytes

/-! ### The moves -/

theorem drop_encode (before rest : List Char) :
    (encode (before ++ rest)).drop (byteCount before) = encode rest := by
  rw [encode_append, ← length_encode, List.drop_left]

section Places

variable (before rest : List Char) (n : Nat)

theorem getElem?_encode_append :
    (encode (before ++ rest))[byteCount before + n]? = (encode rest)[n]? := by
  rw [← List.getElem?_drop, drop_encode]

theorem unitAt?_encode_append :
    unitAt? (encode (before ++ rest)) (byteCount before + n) = unitAt? (encode rest) n := by
  rw [unitAt?, unitAt?, ← List.drop_drop, drop_encode]

theorem lowAt_encode_append :
    LowAt (encode (before ++ rest)) (byteCount before + n) ↔ LowAt (encode rest) n := by
  simp only [LowAt, Nat.add_assoc, getElem?_encode_append, unitAt?_encode_append]

theorem moveAt_encode_append :
    moveAt (encode (before ++ rest)) (byteCount before + n) = moveAt (encode rest) n := by
  simp only [moveAt, Nat.add_assoc, getElem?_encode_append, unitAt?_encode_append, lowAt_encode_append]

theorem moveAt_boundary :
    moveAt (encode (before ++ rest)) (byteCount before) = moveAt (encode rest) 0 :=
  moveAt_encode_append before rest 0

end Places

theorem lowAt_encode_iff {rest : List Char} : LowAt (encode rest) 0 ↔
    ∃ e f g h more, rest = '\\' :: 'u' :: e :: f :: g :: h :: more ∧
      (Path.escapedUnit? e f g h).any CodeUnit.isLow := by
  constructor
  · rintro ⟨hbackslash, hletter, hlow⟩
    obtain ⟨rest, rfl⟩ := exists_of_getElem?_encode hbackslash (by decide)
    have hnext : (encode (['\\'] ++ rest))[1]? = (encode rest)[0]? := getElem?_encode_append ['\\'] rest 0
    obtain ⟨rest, rfl⟩ := exists_of_getElem?_encode (hnext ▸ hletter) (by decide)
    have hunit : unitAt? _ 2 = _ := unitAt?_encode_append ['\\', 'u'] rest 0
    obtain ⟨low, hspelled, hrange⟩ := (Option.any_eq_true ..).mp (hunit ▸ hlow)
    obtain ⟨more, hmore⟩ := unitAt?_encode_eq_some_iff.mp hspelled
    obtain ⟨e, f, g, h, rfl, hdigits⟩ := Path.Cursor.exists_of_unitAt? hmore
    exact ⟨e, f, g, h, more, rfl, by rw [hdigits]; exact hrange⟩
  · rintro ⟨e, f, g, h, more, rfl, hlow⟩
    have hunit : unitAt? _ 2 = _ := unitAt?_encode_append ['\\', 'u'] (e :: f :: g :: h :: more) 0
    obtain ⟨low, hdigits, hlow⟩ := (Option.any_eq_true ..).mp hlow
    refine ⟨rfl, rfl, ?_⟩
    change (unitAt? (encode (['\\', 'u'] ++ e :: f :: g :: h :: more)) 2).any _
    rw [hunit, unitAt?_encode_eq_some_iff.mpr ⟨more, Path.Cursor.unitAt?_of_some hdigits⟩]
    exact hlow

section Moves

variable {a b c d : Char} {unit : CodeUnit} {rest : List Char}

theorem byteCount_escape (hunit : Path.escapedUnit? a b c d = some unit) :
    byteCount ['\\', 'u', a, b, c, d] = 6 := by
  obtain ⟨ha, hb, hc, hd⟩ := Path.Cursor.utf8Size_of_escapedUnit? hunit
  simp only [byteCount, ha, hb, hc, hd]
  rfl

/-- An escape that spells no unit is no escape, whatever follows. -/
theorem moveAt_unit_none (hunit : Path.Cursor.unitAt? rest = none) :
    moveAt (encode ('\\' :: 'u' :: rest)) 0 = .skip 2 (by decide) := by
  have hplace : unitAt? (encode ('\\' :: 'u' :: rest)) 2 = none :=
    (unitAt?_encode_append ['\\', 'u'] rest 0).trans (by rw [unitAt?_encode, hunit]; rfl)
  have hbackslash : (encode ('\\' :: 'u' :: rest))[0]? = some '\\'.toUInt8 := rfl
  have hletter : (encode ('\\' :: 'u' :: rest))[0 + 1]? = some 'u'.toUInt8 := rfl
  rw [moveAt, if_neg (not_not.mpr hbackslash), if_neg (not_not.mpr hletter), Nat.zero_add, hplace]

theorem moveAt_unit (hunit : Path.escapedUnit? a b c d = some unit) :
    moveAt (encode ('\\' :: 'u' :: a :: b :: c :: d :: rest)) 0 =
      if unit.isHigh then
        if LowAt (encode rest) 0 then .skip 12 (by decide) else .rewrite
      else if unit.isLow then .rewrite
      else .skip 6 (by decide) := by
  have hplace : unitAt? (encode ('\\' :: 'u' :: a :: b :: c :: d :: rest)) 2 = some unit :=
    (unitAt?_encode_append ['\\', 'u'] _ 0).trans
      (unitAt?_encode_eq_some_iff.mpr ⟨rest, Path.Cursor.unitAt?_of_some hunit⟩)
  have hlow : LowAt (encode ('\\' :: 'u' :: a :: b :: c :: d :: rest)) (0 + 6) ↔
      LowAt (encode rest) 0 := by
    rw [Nat.zero_add, ← byteCount_escape hunit]
    exact lowAt_encode_append ['\\', 'u', a, b, c, d] rest 0
  have hbackslash : (encode ('\\' :: 'u' :: a :: b :: c :: d :: rest))[0]? = some '\\'.toUInt8 := rfl
  have hletter : (encode ('\\' :: 'u' :: a :: b :: c :: d :: rest))[0 + 1]? = some 'u'.toUInt8 := rfl
  rw [moveAt, if_neg (not_not.mpr hbackslash), if_neg (not_not.mpr hletter), Nat.zero_add, hplace]
  simp only [hlow]

theorem moveAt_letter (hc : c ≠ 'u') : moveAt (encode ('\\' :: c :: rest)) 0 = .skip 2 (by decide) := by
  have hbackslash : (encode ('\\' :: c :: rest))[0]? = some '\\'.toUInt8 := rfl
  have hletter : (encode ('\\' :: c :: rest))[0 + 1]? ≠ some 'u'.toUInt8 := by
    change (encode (c :: rest))[0]? ≠ _
    intro hhead
    obtain ⟨tail, htail⟩ := exists_of_getElem?_encode hhead (by decide)
    exact hc (List.cons.inj htail).1
  rw [moveAt, if_neg (not_not.mpr hbackslash), if_pos hletter]

end Moves

/-! ### The scan -/

section Scan

variable {text written : List Char} {copied place : Nat}

theorem scan?_past (hpast : (encode text).length ≤ place) :
    scan? text written copied place =
      if copied = 0 then some text
      else (Path.Cursor.charsFrom? text copied).map (written ++ ·) := by
  rw [scan?, dif_neg (Nat.not_lt.mpr hpast)]
  split
  · rfl
  · cases Path.Cursor.charsFrom? text copied <;> rfl

theorem slice?_append {before middle rest : List Char} :
    Path.Cursor.slice? (before ++ middle ++ rest) (byteCount before) (byteCount (before ++ middle)) =
      some middle := by
  have hle : byteCount before ≤ byteCount (before ++ middle) := by
    rw [byteCount_append]
    exact Nat.le_add_right _ _
  rw [Path.Cursor.slice?, Path.Cursor.charsFrom?_eq_some_iff.mpr ⟨before, List.append_assoc .., rfl⟩,
    Path.Cursor.charsFrom?_eq_some_iff.mpr ⟨before ++ middle, rfl, rfl⟩]
  simp only [Option.bind_eq_bind, Option.bind_some, if_pos hle]
  rw [List.length_append, Nat.add_sub_cancel_right, List.take_left]

theorem scan?_skip {n : Nat} {hn : 0 < n} (hmove : moveAt (encode text) place = .skip n hn) :
    scan? text written copied place = scan? text written copied (place + n) := by
  by_cases hinside : place < (encode text).length
  · rw [scan?, dif_pos hinside, hmove]
  · have hpast := Nat.not_lt.mp hinside
    rw [scan?_past hpast, scan?_past (hpast.trans (Nat.le_add_right _ _))]

theorem moveAt_plain {bytes : List UInt8} (hplain : bytes[place]? ≠ some '\\'.toUInt8) :
    moveAt bytes place = .skip 1 (by decide) := if_pos hplain

/-- The scan goes over bytes that are no backslash. -/
theorem scan?_plain {n : Nat} (hplain : ∀ k < n, (encode text)[place + k]? ≠ some '\\'.toUInt8) :
    scan? text written copied place = scan? text written copied (place + n) := by
  induction n with
  | zero => rfl
  | succ n ih =>
      rw [ih fun k hk => hplain k (Nat.lt_succ_of_lt hk)]
      exact scan?_skip (moveAt_plain (hplain n (Nat.lt_succ_self n)))

theorem getElem?_encode_ne {c : Char} {rest : List Char} {n : Nat} (hc : c ≠ '\\') (hn : n < c.utf8Size) :
    (encode (c :: rest))[n]? ≠ some '\\'.toUInt8 := by
  rw [encode_cons, List.getElem?_append_left (by rwa [String.length_utf8EncodeChar])]
  intro hbyte
  exact ne_backslash_of_mem hc (List.mem_of_getElem? hbyte) rfl

/-- From any byte of a character that is no backslash, the scan goes on behind it. -/
theorem scan?_inside {before rest : List Char} {c : Char} (n : Nat) (hc : c ≠ '\\') (hn : n ≤ c.utf8Size) :
    scan? (before ++ c :: rest) written copied (byteCount before + n) =
      scan? (before ++ c :: rest) written copied (byteCount (before ++ [c])) := by
  have hplace : byteCount (before ++ [c]) = byteCount before + n + (c.utf8Size - n) := by
    rw [byteCount_append, byteCount, byteCount]
    omega
  rw [hplace]
  refine scan?_plain fun k hk => ?_
  rw [Nat.add_assoc, getElem?_encode_append]
  exact getElem?_encode_ne hc (by omega)

end Scan

/-- From a place on, the scan copies what stands before it and writes `out` for the rest. -/
def Mends (rest out : List Char) : Prop :=
  ∀ before middle written, (before = [] → written = []) →
    scan? (before ++ middle ++ rest) written (byteCount before) (byteCount (before ++ middle)) =
      some (written ++ middle ++ out)

namespace Mends

variable {rest out : List Char} {c : Char}

theorem nil : Mends [] [] := by
  intro before middle written hwritten
  rw [List.append_nil, List.append_nil, scan?_past (length_encode _).le]
  split
  · rename_i hzero
    have hbefore : before = [] := by
      cases before with
      | nil => rfl
      | cons c before =>
          have hsize := Char.utf8Size_pos c
          rw [byteCount] at hzero
          omega
    rw [hbefore, hwritten hbefore]
  · rw [Path.Cursor.charsFrom?_eq_some_iff.mpr ⟨before, rfl, rfl⟩]
    rfl

/-- What the scan goes over is copied. -/
theorem copy (hmends : Mends rest out) (front : List Char)
    (hscan : ∀ {before written copied},
      scan? (before ++ (front ++ rest)) written copied (byteCount before) =
        scan? (before ++ (front ++ rest)) written copied (byteCount (before ++ front))) :
    Mends (front ++ rest) (front ++ out) := by
  intro before middle written hwritten
  have hrest := hmends before (middle ++ front) written hwritten
  rw [hscan]
  simpa only [List.append_assoc] using hrest

theorem skip {n : Nat} {hn : 0 < n} (hmends : Mends rest out) (front : List Char)
    (hmove : moveAt (encode (front ++ rest)) 0 = .skip n hn) (hfront : byteCount front = n) :
    Mends (front ++ rest) (front ++ out) := by
  refine hmends.copy front fun {before written copied} => ?_
  rw [byteCount_append, hfront]
  exact scan?_skip ((moveAt_boundary before _).trans hmove)

theorem char (hmends : Mends rest out) (hc : c ≠ '\\') : Mends (c :: rest) (c :: out) :=
  hmends.copy [c] (scan?_inside 0 hc (Nat.zero_le _))

/-- The character behind a backslash is passed over with it, from its second byte on by itself. -/
theorem letter (hmends : Mends rest out) (hc : c ≠ 'u') :
    Mends ('\\' :: c :: rest) ('\\' :: c :: out) := by
  by_cases hbackslash : c = '\\'
  · subst hbackslash
    exact hmends.skip ['\\', '\\'] (moveAt_letter hc) rfl
  · refine hmends.copy ['\\', c] fun {before written copied} => ?_
    have hmove : moveAt (encode (before ++ '\\' :: c :: rest)) (byteCount before) = .skip 2 (by decide) :=
      (moveAt_boundary before _).trans (moveAt_letter hc)
    have hinside : scan? (before ++ ['\\'] ++ c :: rest) written copied (byteCount (before ++ ['\\']) + 1) =
        scan? (before ++ ['\\'] ++ c :: rest) written copied (byteCount (before ++ ['\\'] ++ [c])) :=
      scan?_inside 1 hbackslash (Char.utf8Size_pos c)
    rw [byteCount_append, List.append_assoc, List.append_assoc] at hinside
    exact (scan?_skip hmove).trans hinside

theorem last : Mends ['\\'] ['\\'] := by
  refine nil.copy ['\\'] fun {before written copied} => ?_
  have hmove : moveAt (encode (before ++ ['\\'])) (byteCount before) = .skip 2 (by decide) :=
    moveAt_boundary before ['\\']
  have hlength : (encode (before ++ ['\\'])).length = byteCount before + 1 := by
    rw [length_encode, byteCount_append]
    rfl
  have hsize : byteCount (before ++ ['\\']) = byteCount before + 1 := byteCount_append ..
  rw [List.append_nil, scan?_skip hmove, scan?_past (by omega), scan?_past (by omega)]

/-- An escape that is to be written anew. -/
theorem rewrite (hmends : Mends rest out) (front : List Char)
    (hmove : moveAt (encode (front ++ rest)) 0 = .rewrite)
    (hfront : byteCount front = 6) : Mends (front ++ rest) (mark ++ out) := by
  intro before middle written hwritten
  have hne : before ++ middle ++ front ≠ [] := by
    intro hnil
    rw [(List.append_eq_nil_iff.mp hnil).2] at hfront
    cases hfront
  have hrest := hmends (before ++ middle ++ front) [] (written ++ middle ++ mark) (absurd · hne)
  rw [List.append_nil, List.append_nil, byteCount_append _ front, hfront, List.append_assoc _ front]
    at hrest
  have hslice : Path.Cursor.slice? (before ++ middle ++ (front ++ rest)) (byteCount before)
      (byteCount (before ++ middle)) = some middle := slice?_append
  have hinside : byteCount (before ++ middle) <
      (encode (before ++ middle ++ (front ++ rest))).length := by
    rw [length_encode, byteCount_append _ (front ++ rest), byteCount_append front, hfront]
    omega
  rw [scan?, dif_pos hinside, moveAt_boundary, hmove]
  simp only [hslice]
  rw [Option.bind_eq_bind, Option.bind_some, hrest, List.append_assoc _ mark]

end Mends

theorem mends (text : List Char) : Mends text (mended text) := by
  fun_induction mended text with
  | case1 => exact .nil
  | case2 a b c d rest hunit ih =>
      exact ih.skip ['\\', 'u'] (moveAt_unit_none (Path.Cursor.unitAt?_of_none hunit)) rfl
  | case3 a b c d unit hunit hhigh e f g h more hlow ih =>
      obtain ⟨low, hsecond, -⟩ := (Option.any_eq_true ..).mp hlow
      have hmove : moveAt (encode ('\\' :: 'u' :: a :: b :: c :: d ::
          '\\' :: 'u' :: e :: f :: g :: h :: more)) 0 = .skip 12 (by decide) := by
        refine (moveAt_unit hunit).trans ?_
        rw [if_pos hhigh, if_pos (lowAt_encode_iff.mpr ⟨e, f, g, h, more, rfl, hlow⟩)]
      refine ih.skip (['\\', 'u', a, b, c, d] ++ ['\\', 'u', e, f, g, h]) hmove ?_
      rw [byteCount_append, byteCount_escape hunit, byteCount_escape hsecond]
  | case4 a b c d unit hunit hhigh e f g h more hlow ih =>
      refine ih.rewrite ['\\', 'u', a, b, c, d] ?_ (byteCount_escape hunit)
      refine (moveAt_unit hunit).trans ?_
      rw [if_pos hhigh, if_neg]
      intro hlowAt
      obtain ⟨_, _, _, _, _, ⟨⟩, hlow'⟩ := lowAt_encode_iff.mp hlowAt
      exact hlow hlow'
  | case5 a b c d unit hunit hhigh rest hother ih =>
      refine ih.rewrite ['\\', 'u', a, b, c, d] ?_ (byteCount_escape hunit)
      refine (moveAt_unit hunit).trans ?_
      rw [if_pos hhigh, if_neg]
      intro hlowAt
      obtain ⟨_, _, _, _, _, rfl, -⟩ := lowAt_encode_iff.mp hlowAt
      exact hother _ _ _ _ _ rfl
  | case6 a b c d rest unit hunit hhigh hlow ih =>
      refine ih.rewrite ['\\', 'u', a, b, c, d] ?_ (byteCount_escape hunit)
      refine (moveAt_unit hunit).trans ?_
      rw [if_neg hhigh, if_pos hlow]
  | case7 a b c d rest unit hunit hhigh hlow ih =>
      have hmove : moveAt (encode ('\\' :: 'u' :: a :: b :: c :: d :: rest)) 0 = .skip 6 (by decide) := by
        rw [moveAt_unit hunit, if_neg hhigh, if_neg hlow]
      exact ih.skip ['\\', 'u', a, b, c, d] hmove (byteCount_escape hunit)
  | case8 c rest hother ih =>
      by_cases hc : c = 'u'
      · subst hc
        have hunit : Path.Cursor.unitAt? rest = none := by
          refine Option.eq_none_iff_forall_ne_some.mpr fun read hread => ?_
          obtain ⟨a, b, c, d, rfl, -⟩ := Path.Cursor.exists_of_unitAt? hread
          exact hother a b c d _ rfl rfl
        exact ih.skip ['\\', 'u'] (moveAt_unit_none hunit) rfl
      · exact ih.letter hc
  | case9 c rest hother hother' ih =>
      by_cases hc : c = '\\'
      · subst hc
        cases rest with
        | nil => exact .last
        | cons c rest => exact (hother' c rest rfl rfl).elim
      · exact ih.char hc

/-- **The rewriting always has a result.** Every part that it copies lies between characters, and byte by
byte it writes what is written character by character. -/
theorem rewritten?_eq (text : List Char) : rewritten? text = some (mended text) := by
  rw [rewritten?]
  split
  · exact mends text [] [] [] fun _ => rfl
  · rename_i hplain
    rw [mended_of_no_escape hplain]

example : rewritten? "\\\\ud800\\ud800\\udc00\\udc00é\\ud800\\u+041".toList =
    some "\\\\ud800\\ud800\\udc00\\uFFFDé\\uFFFD\\u+041".toList := by decide +kernel

end JsonEdit.Text
