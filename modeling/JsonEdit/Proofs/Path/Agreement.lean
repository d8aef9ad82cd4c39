import JsonEdit.Proofs.Path.Cursor
import Mathlib.Tactic.SplitIfs

/-!
# Reading at byte positions agrees with reading characters

At every place of the text each part of the cursor does what the reader does with the characters left
there. So the whole reading has a result on every text: no slice and no position is ever beyond the text
or inside a character, and every loop ends.
-/

namespace JsonEdit

namespace Path

namespace Cursor

/-! ### Escapes -/

def unitAt? : List Char → Option (Text.CodeUnit × List Char)
  | a :: b :: c :: d :: rest => (escapedUnit? a b c d).map fun unit => (unit, rest)
  | _ => none

theorem utf8Size_of_hexValue? {c : Char} {value : Nat} (hvalue : Text.hexValue? c = some value) :
    c.utf8Size = 1 := by
  have hle {last : Char} (hlast : last.val ≤ 127) (hc : decide (c ≤ last) = true) : c.val ≤ 127 :=
    UInt32.le_trans (Char.le_def.mp (of_decide_eq_true hc)) hlast
  rw [Char.utf8Size_eq_one_iff]
  unfold Text.hexValue? at hvalue
  split_ifs at hvalue with hdigit hlower hupper
  · exact hle (by decide) (Bool.and_eq_true_iff.mp hdigit).2
  · exact hle (by decide) (Bool.and_eq_true_iff.mp hlower).2
  · exact hle (by decide) (Bool.and_eq_true_iff.mp hupper).2

theorem utf8Size_of_escapedUnit? {a b c d : Char} {unit : Text.CodeUnit}
    (hunit : escapedUnit? a b c d = some unit) :
    a.utf8Size = 1 ∧ b.utf8Size = 1 ∧ c.utf8Size = 1 ∧ d.utf8Size = 1 := by
  simp only [escapedUnit?, Text.codeUnit?, Option.bind_eq_bind, Option.bind_eq_some_iff] at hunit
  obtain ⟨_, ha, _, hb, _, hc, _, hd, -⟩ := hunit
  refine ⟨?_, utf8Size_of_hexValue? hb, utf8Size_of_hexValue? hc, utf8Size_of_hexValue? hd⟩
  split at ha
  · rename_i hplus
    rw [hplus]
    rfl
  · exact utf8Size_of_hexValue? ha

section

variable {text rest after : List Char} {first second : Text.CodeUnit} {offset : Nat}

theorem unitAt?_of_some {a b c d : Char} (hunit : escapedUnit? a b c d = some first) :
    unitAt? (a :: b :: c :: d :: rest) = some (first, rest) := by
  rw [unitAt?, hunit, Option.map_some]

theorem unitAt?_of_none {a b c d : Char} (hunit : escapedUnit? a b c d = none) :
    unitAt? (a :: b :: c :: d :: rest) = none := by
  rw [unitAt?, hunit, Option.map_none]

theorem exists_of_unitAt? (hunit : unitAt? rest = some (first, after)) :
    ∃ a b c d, rest = [a, b, c, d] ++ after ∧ escapedUnit? a b c d = some first := by
  unfold unitAt? at hunit
  split at hunit
  · rename_i a b c d tail
    obtain ⟨unit, hunit', ⟨⟩⟩ := Option.map_eq_some_iff.mp hunit
    exact ⟨a, b, c, d, rfl, hunit'⟩
  · cases hunit

/-- A slice of the next four bytes spells a unit if and only if the next four characters do. -/
theorem slice?_unit (hrest : rest <:+ text) :
    (slice? text (placeOf text rest) (placeOf text rest + 4)).bind unitOfSlice? =
      (unitAt? rest).map Prod.fst := by
  cases hunit : unitAt? rest with
  | some result =>
      obtain ⟨unit, after⟩ := result
      obtain ⟨a, b, c, d, rfl, hspelled⟩ := exists_of_unitAt? hunit
      obtain ⟨ha, hb, hc, hd⟩ := utf8Size_of_escapedUnit? hspelled
      have hplace := placeOf_append hrest
      simp only [Text.byteCount, ha, hb, hc, hd] at hplace
      rw [hplace, slice?_placeOf hrest, Option.bind_some]
      exact hspelled
  | none =>
      rw [Option.map_none, Option.bind_eq_none_iff]
      intro chars hslice
      obtain ⟨more, rfl⟩ := prefix_of_slice? hrest hslice
      unfold unitOfSlice?
      split
      · exact Option.map_eq_none_iff.mp hunit
      · rfl

theorem unit_of_unitAt? (hrest : rest <:+ text) (hunit : unitAt? rest = some (first, after)) :
    unit text offset (placeOf text rest) = some (.ok (first, placeOf text after)) := by
  have hslice := slice?_unit hrest
  obtain ⟨a, b, c, d, rfl, hspelled⟩ := exists_of_unitAt? hunit
  obtain ⟨ha, hb, hc, hd⟩ := utf8Size_of_escapedUnit? hspelled
  have hplace := placeOf_append hrest
  simp only [Text.byteCount, ha, hb, hc, hd] at hplace
  have hafter := (List.suffix_append [a, b, c, d] after).trans hrest
  rw [unit, get_bind, hslice, hunit]
  dsimp only [Option.map_some]
  rw [hplace, bind_ok (moveTo_placeOf _ hafter)]
  rfl

theorem unit_of_unitAt?_none (hrest : rest <:+ text) (hunit : unitAt? rest = none) :
    unit text offset (placeOf text rest) = some (.error ⟨.invalidEscape, offset⟩) := by
  rw [unit, get_bind, slice?_unit hrest, hunit]
  rfl

theorem codePoint_single (offset : Nat) (hhigh : first.isHigh = false) (place : Nat) :
    codePoint text first offset place = some (.ok (first.single, place)) := by
  rw [codePoint, if_neg (Bool.eq_false_iff.mp hhigh)]
  rfl

theorem codePoint_lone (offset : Nat) (hrest : rest <:+ text) (hhigh : first.isHigh = true)
    (hlone : ∀ tail, rest ≠ '\\' :: 'u' :: tail) :
    codePoint text first offset (placeOf text rest) =
      some (.ok (Text.replacement, placeOf text rest)) := by
  have hprefix : ['\\', 'u'].isPrefixOf rest = false := Bool.eq_false_iff.mpr fun hprefix => by
    obtain ⟨tail, htail⟩ := List.isPrefixOf_iff_prefix.mp hprefix
    exact hlone tail htail.symm
  rw [codePoint, if_pos hhigh, get_bind, lift_bind (charsFrom?_placeOf hrest), hprefix]
  rfl

/-- Behind a high surrogate the next escape is read ahead. -/
theorem codePoint_ahead (hrest : '\\' :: 'u' :: rest <:+ text) (hhigh : first.isHigh = true) :
    codePoint text first offset (placeOf text ('\\' :: 'u' :: rest)) =
      (unit text offset >>= fun second =>
        if second.isLow then return first.pair second
        else do
          moveTo text (placeOf text ('\\' :: 'u' :: rest))
          return Text.replacement) (placeOf text rest) := by
  have happend : ['\\', 'u'] ++ rest <:+ text := hrest
  have hplace : placeOf text ('\\' :: 'u' :: rest) + 2 = placeOf text rest := placeOf_append happend
  have hafter : rest <:+ text := (List.suffix_append _ rest).trans happend
  have hprefix : ['\\', 'u'].isPrefixOf ('\\' :: 'u' :: rest) = true := rfl
  rw [codePoint, if_pos hhigh, get_bind, lift_bind (charsFrom?_placeOf hrest), if_pos hprefix, hplace,
    bind_ok (moveTo_placeOf _ hafter)]

theorem codePoint_pair (offset : Nat) (hrest : '\\' :: 'u' :: rest <:+ text) (hhigh : first.isHigh = true)
    (hsecond : unitAt? rest = some (second, after)) (hlow : second.isLow = true) :
    codePoint text first offset (placeOf text ('\\' :: 'u' :: rest)) =
      some (.ok (first.pair second, placeOf text after)) := by
  have hafter : rest <:+ text := (List.suffix_append ['\\', 'u'] rest).trans hrest
  rw [codePoint_ahead hrest hhigh, bind_ok (unit_of_unitAt? hafter hsecond), if_pos hlow]
  rfl

/-- Where the next unit is no partner, the position goes back in front of its escape. -/
theorem codePoint_unpaired (offset : Nat) (hrest : '\\' :: 'u' :: rest <:+ text) (hhigh : first.isHigh = true)
    (hsecond : unitAt? rest = some (second, after)) (hlow : second.isLow = false) :
    codePoint text first offset (placeOf text ('\\' :: 'u' :: rest)) =
      some (.ok (Text.replacement, placeOf text ('\\' :: 'u' :: rest))) := by
  have hafter : rest <:+ text := (List.suffix_append ['\\', 'u'] rest).trans hrest
  rw [codePoint_ahead hrest hhigh, bind_ok (unit_of_unitAt? hafter hsecond),
    if_neg (Bool.eq_false_iff.mp hlow), bind_ok (moveTo_placeOf _ hrest)]
  rfl

theorem codePoint_bad (offset : Nat) (hrest : '\\' :: 'u' :: rest <:+ text) (hhigh : first.isHigh = true)
    (hsecond : unitAt? rest = none) :
    codePoint text first offset (placeOf text ('\\' :: 'u' :: rest)) =
      some (.error ⟨.invalidEscape, offset⟩) := by
  have hafter : rest <:+ text := (List.suffix_append ['\\', 'u'] rest).trans hrest
  rw [codePoint_ahead hrest hhigh, bind_error (unit_of_unitAt?_none hafter hsecond)]

theorem escape_letter {letter c : Char} (hrest : letter :: rest <:+ text)
    (hescaped : escaped? letter = some c) :
    escape text offset (placeOf text (letter :: rest)) = some (.ok (c, placeOf text rest)) := by
  rw [escape, bind_ok (bump_cons hrest)]
  dsimp only
  rw [if_neg (ne_unit_of_escaped? hescaped), hescaped]
  rfl

theorem escape_unit (hrest : 'u' :: rest <:+ text) (hunit : unitAt? rest = some (first, after)) :
    escape text offset (placeOf text ('u' :: rest)) =
      codePoint text first offset (placeOf text after) := by
  have htail := (List.suffix_cons 'u' rest).trans hrest
  rw [escape, bind_ok (bump_cons hrest)]
  dsimp only
  rw [if_pos rfl, bind_ok (unit_of_unitAt? htail hunit)]

/-- What is neither a letter of an escape nor a unit is a bad escape. -/
theorem escape_bad (hrest : rest <:+ text)
    (hbad : ∀ letter more, rest = letter :: more →
      escaped? letter = none ∧ (letter = 'u' → unitAt? more = none)) :
    escape text offset (placeOf text rest) = some (.error ⟨.invalidEscape, offset⟩) := by
  rw [escape]
  cases rest with
  | nil =>
      rw [bind_ok bump_nil]
      rfl
  | cons letter rest =>
      obtain ⟨hescaped, hunit⟩ := hbad letter rest rfl
      have htail := (List.suffix_cons letter rest).trans hrest
      rw [bind_ok (bump_cons hrest)]
      dsimp only
      split
      · rename_i hletter
        exact bind_error (unit_of_unitAt?_none htail (hunit hletter))
      · rw [hescaped]
        rfl

end

/-! ### Quoted strings -/

section

variable {text rest after : List Char} {first : Text.CodeUnit} {c : Char} {read : List Char}

theorem quotedRound_backslash (hrest : '\\' :: rest <:+ text) :
    quotedRound text read (placeOf text ('\\' :: rest)) =
      (escape text (placeOf text ('\\' :: rest)) >>= fun c =>
        return .inl (c :: read)) (placeOf text rest) := by
  rw [quotedRound, get_bind, bind_ok (bump_cons hrest)]
  dsimp only
  rw [if_neg (by decide), if_pos rfl]

theorem quotedBody_escape (hrest : '\\' :: rest <:+ text) (hafter : after <:+ rest)
    (hescape : escape text (placeOf text ('\\' :: rest)) (placeOf text rest) =
      some (.ok (c, placeOf text after))) :
    quotedBody text read (placeOf text ('\\' :: rest)) =
      quotedBody text (c :: read) (placeOf text after) := by
  refine loop_next hrest hafter ?_
  rw [quotedRound_backslash hrest, bind_ok hescape]
  rfl

theorem quotedBody_bad (hrest : '\\' :: rest <:+ text)
    (hescape : escape text (placeOf text ('\\' :: rest)) (placeOf text rest) =
      some (.error ⟨.invalidEscape, placeOf text ('\\' :: rest)⟩)) :
    quotedBody text read (placeOf text ('\\' :: rest)) =
      some (placed text (.error ⟨.invalidEscape, '\\' :: rest⟩)) := by
  refine loop_error ?_
  rw [quotedRound_backslash hrest, bind_error hescape]

theorem quotedBody_unit {more : List Char} (hrest : '\\' :: 'u' :: rest <:+ text) (hmore : more <:+ rest)
    (hunit : unitAt? rest = some (first, after))
    (hcode : codePoint text first (placeOf text ('\\' :: 'u' :: rest)) (placeOf text after) =
      some (.ok (c, placeOf text more))) :
    quotedBody text read (placeOf text ('\\' :: 'u' :: rest)) =
      quotedBody text (c :: read) (placeOf text more) := by
  have htail := (List.suffix_cons '\\' _).trans hrest
  refine quotedBody_escape hrest (hmore.trans (List.suffix_cons 'u' rest)) ?_
  rw [escape_unit htail hunit, hcode]

theorem quotedBody_unit_bad (hrest : '\\' :: 'u' :: rest <:+ text)
    (hunit : unitAt? rest = some (first, '\\' :: 'u' :: after)) (hhigh : first.isHigh = true)
    (hsecond : unitAt? after = none) :
    quotedBody text read (placeOf text ('\\' :: 'u' :: rest)) =
      some (placed text (.error ⟨.invalidEscape, '\\' :: 'u' :: rest⟩)) := by
  have htail := (List.suffix_cons '\\' _).trans hrest
  have hafter : '\\' :: 'u' :: after <:+ text := by
    obtain ⟨a, b, c, d, rfl, -⟩ := exists_of_unitAt? hunit
    exact (List.suffix_append ['\\', 'u', a, b, c, d] _).trans hrest
  refine quotedBody_bad hrest ?_
  rw [escape_unit htail hunit, codePoint_bad _ hafter hhigh hsecond]

theorem quotedBody_nil : quotedBody text read (placeOf text []) =
    some (placed text (.error ⟨.unexpectedEnd, []⟩)) := by
  refine loop_error ?_
  rw [quotedRound, get_bind, bind_ok bump_nil]
  rfl

theorem quotedBody_quote (hrest : '"' :: rest <:+ text) :
    quotedBody text read (placeOf text ('"' :: rest)) =
      some (placed text (.ok (String.ofList read.reverse, rest))) := by
  refine loop_done ?_
  rw [quotedRound, get_bind, bind_ok (bump_cons hrest)]
  rfl

theorem quotedBody_char (hrest : c :: rest <:+ text) (hquote : c ≠ '"') (hbackslash : c ≠ '\\') :
    quotedBody text read (placeOf text (c :: rest)) =
      quotedBody text (c :: read) (placeOf text rest) := by
  have hround : quotedRound text read (placeOf text (c :: rest)) =
      some (.ok (.inl (c :: read), placeOf text rest)) := by
    rw [quotedRound, get_bind, bind_ok (bump_cons hrest)]
    dsimp only
    rw [if_neg hquote, if_neg hbackslash]
    rfl
  exact loop_next hrest List.suffix_rfl hround

theorem quotedBody_letter {letter : Char} (hrest : '\\' :: letter :: rest <:+ text)
    (hescaped : escaped? letter = some c) :
    quotedBody text read (placeOf text ('\\' :: letter :: rest)) =
      quotedBody text (c :: read) (placeOf text rest) := by
  have htail := (List.suffix_cons '\\' _).trans hrest
  exact quotedBody_escape hrest (List.suffix_cons letter rest) (escape_letter htail hescaped)

theorem quotedBody_badEscape (hrest : '\\' :: rest <:+ text)
    (hbad : ∀ letter more, rest = letter :: more →
      escaped? letter = none ∧ (letter = 'u' → unitAt? more = none)) :
    quotedBody text read (placeOf text ('\\' :: rest)) =
      some (placed text (.error ⟨.invalidEscape, '\\' :: rest⟩)) :=
  quotedBody_bad hrest (escape_bad ((List.suffix_cons '\\' rest).trans hrest) hbad)

section Unit

variable {second : Text.CodeUnit} {a b d e f g h : Char} {more : List Char}
  (hrest : '\\' :: 'u' :: a :: b :: c :: d :: rest <:+ text)
  (hfirst : escapedUnit? a b c d = some first)

include hrest hfirst

theorem quotedBody_single (hhigh : first.isHigh = false) :
    quotedBody text read (placeOf text ('\\' :: 'u' :: a :: b :: c :: d :: rest)) =
      quotedBody text (first.single :: read) (placeOf text rest) :=
  quotedBody_unit hrest (List.suffix_append [a, b, c, d] rest) (unitAt?_of_some hfirst)
    (codePoint_single _ hhigh _)

theorem quotedBody_lone (hhigh : first.isHigh = true) (hlone : ∀ tail, rest ≠ '\\' :: 'u' :: tail) :
    quotedBody text read (placeOf text ('\\' :: 'u' :: a :: b :: c :: d :: rest)) =
      quotedBody text (Text.replacement :: read) (placeOf text rest) := by
  have hahead := (List.suffix_append ['\\', 'u', a, b, c, d] rest).trans hrest
  exact quotedBody_unit hrest (List.suffix_append [a, b, c, d] rest) (unitAt?_of_some hfirst)
    (codePoint_lone _ hahead hhigh hlone)

theorem quotedBody_pair (hhigh : first.isHigh = true)
    (hahead : rest = '\\' :: 'u' :: e :: f :: g :: h :: more)
    (hsecond : escapedUnit? e f g h = some second) (hlow : second.isLow = true) :
    quotedBody text read (placeOf text ('\\' :: 'u' :: a :: b :: c :: d :: rest)) =
      quotedBody text (first.pair second :: read) (placeOf text more) := by
  subst hahead
  have hahead := (List.suffix_append ['\\', 'u', a, b, c, d] _).trans hrest
  exact quotedBody_unit hrest (List.suffix_append [a, b, c, d, '\\', 'u', e, f, g, h] more)
    (unitAt?_of_some hfirst) (codePoint_pair _ hahead hhigh (unitAt?_of_some hsecond) hlow)

theorem quotedBody_unpaired (hhigh : first.isHigh = true)
    (hahead : rest = '\\' :: 'u' :: e :: f :: g :: h :: more)
    (hsecond : escapedUnit? e f g h = some second) (hlow : second.isLow = false) :
    quotedBody text read (placeOf text ('\\' :: 'u' :: a :: b :: c :: d :: rest)) =
      quotedBody text (Text.replacement :: read) (placeOf text rest) := by
  subst hahead
  have hahead := (List.suffix_append ['\\', 'u', a, b, c, d] _).trans hrest
  exact quotedBody_unit hrest (List.suffix_append [a, b, c, d] _) (unitAt?_of_some hfirst)
    (codePoint_unpaired _ hahead hhigh (unitAt?_of_some hsecond) hlow)

end Unit

/-- **The body of a string is read as by the reader of characters**, piece by piece. -/
theorem quotedBody_placeOf (hrest : rest <:+ text) :
    quotedBody text read (placeOf text rest) = some (placed text (readQuotedBody read rest)) := by
  fun_induction readQuotedBody read rest with
  | case1 read => exact quotedBody_nil
  | case2 read rest => exact quotedBody_quote hrest
  | case3 read a b c d rest _ hfirst =>
      refine quotedBody_badEscape hrest ?_
      rintro _ _ ⟨⟩
      exact ⟨rfl, fun _ => unitAt?_of_none hfirst⟩
  | case4 read a b c d first hfirst hhigh e f g h more hsecond =>
      exact quotedBody_unit_bad hrest (unitAt?_of_some hfirst) hhigh (unitAt?_of_none hsecond)
  | case5 read a b c d first hfirst hhigh e f g h more second hsecond hlow ih =>
      rw [quotedBody_pair hrest hfirst hhigh rfl hsecond hlow]
      exact ih ((List.suffix_append ['\\', 'u', a, b, c, d, '\\', 'u', e, f, g, h] more).trans hrest)
  | case6 read a b c d first hfirst hhigh e f g h more second hsecond hlow ih =>
      rw [quotedBody_unpaired hrest hfirst hhigh rfl hsecond (Bool.eq_false_iff.mpr hlow)]
      exact ih ((List.suffix_append ['\\', 'u', a, b, c, d] _).trans hrest)
  | case7 read a b c d first hfirst hhigh tail hshort =>
      refine quotedBody_unit_bad hrest (unitAt?_of_some hfirst) hhigh ?_
      rw [unitAt?]
      exact hshort
  | case8 read a b c d first hfirst hhigh other _ hother ih =>
      rw [quotedBody_lone hrest hfirst hhigh hother]
      exact ih ((List.suffix_append ['\\', 'u', a, b, c, d] other).trans hrest)
  | case9 read a b c d rest first hfirst hhigh ih =>
      rw [quotedBody_single hrest hfirst (Bool.eq_false_iff.mpr hhigh)]
      exact ih ((List.suffix_append ['\\', 'u', a, b, c, d] rest).trans hrest)
  | case10 read letter rest _ c hescaped ih =>
      rw [quotedBody_letter hrest hescaped]
      exact ih ((List.suffix_append ['\\', letter] rest).trans hrest)
  | case11 read letter rest hshort hescaped =>
      refine quotedBody_badEscape hrest ?_
      rintro _ _ ⟨⟩
      refine ⟨hescaped, fun hletter => ?_⟩
      rw [unitAt?]
      exact fun a b c d more => hshort a b c d more hletter
  | case12 read =>
      refine quotedBody_badEscape hrest ?_
      rintro _ _ ⟨⟩
  | case13 read c rest hquote _ hletter hend ih =>
      have hbackslash : c ≠ '\\' := by
        rintro rfl
        cases rest with
        | nil => exact hend rfl rfl
        | cons letter more => exact hletter letter more rfl rfl
      rw [quotedBody_char hrest hquote hbackslash]
      exact ih ((List.suffix_cons c rest).trans hrest)

end

/-! ### The readers agree -/

/-- At every place of the text the cursor does what the reader does with the characters left there. -/
def Follows {α : Type} (text : List Char) (cursor : Cursor α) (read : List Char → Read α) : Prop :=
  ∀ rest, rest <:+ text → cursor (placeOf text rest) = some (placed text (read rest))

section

variable (text : List Char)

theorem follows_quoted : Follows text (quoted text) readQuoted := by
  intro rest hrest
  have hexpect := expect_placeOf '"' hrest
  rw [quoted, readQuoted]
  cases hread : Path.expect '"' rest with
  | error stop =>
      rw [hread] at hexpect
      exact bind_error hexpect
  | ok after =>
      rw [hread] at hexpect
      rw [bind_ok hexpect]
      obtain rfl := expect_eq_ok_iff.mp hread
      exact quotedBody_placeOf ((List.suffix_cons '"' after).trans hrest)

variable {text} in
theorem slice?_takeWhile {rest : List Char} (p : Char → Bool) (hrest : rest <:+ text) :
    slice? text (placeOf text rest) (placeOf text (rest.dropWhile p)) = some (rest.takeWhile p) := by
  have hsplit : rest.takeWhile p ++ rest.dropWhile p = rest := List.takeWhile_append_dropWhile
  have hslice := slice?_placeOf (hsplit.symm ▸ hrest : rest.takeWhile p ++ rest.dropWhile p <:+ text)
  rwa [hsplit] at hslice

variable {text} in
/-- A run is empty if and only if the position stays where it was. -/
theorem placeOf_eq_dropWhile_iff {rest : List Char} (p : Char → Bool) (hrest : rest <:+ text) :
    placeOf text rest = placeOf text (rest.dropWhile p) ↔ (rest.takeWhile p).isEmpty := by
  have hsplit : rest.takeWhile p ++ rest.dropWhile p = rest := List.takeWhile_append_dropWhile
  have hplace := placeOf_append (hsplit.symm ▸ hrest : rest.takeWhile p ++ rest.dropWhile p <:+ text)
  rw [hsplit] at hplace
  cases hrun : rest.takeWhile p with
  | nil =>
      rw [hrun, Text.byteCount] at hplace
      simpa using hplace
  | cons c run =>
      have hsize := Char.utf8Size_pos c
      rw [hrun, Text.byteCount] at hplace
      simp only [List.isEmpty_cons, Bool.false_eq_true, iff_false]
      omega

theorem follows_name : Follows text (name text) readName := by
  intro rest hrest
  rw [name, bind_ok (peek_placeOf hrest)]
  by_cases hquote : rest.head? = some '"'
  · obtain ⟨tail, rfl⟩ := List.head?_eq_some_iff.mp hquote
    rw [readName_quote]
    exact follows_quoted text _ hrest
  · rw [readName_plain hquote, if_neg hquote, get_bind, bind_ok (skipWhile_placeOf _ hrest), get_bind]
    simp only [placeOf_eq_dropWhile_iff _ hrest]
    split
    · rfl
    · rw [lift_bind (slice?_takeWhile _ hrest)]
      rfl

theorem follows_position : Follows text (position text) readPosition := by
  intro rest hrest
  rw [position, get_bind, bind_ok (skipWhile_placeOf _ hrest), get_bind,
    lift_bind (slice?_takeWhile _ hrest), readPosition]
  split <;> rfl

section Separated

variable {α : Type} {text rest : List Char} {item : Cursor α} {read : List Char → Read α}
  {spelled : α → List Char → Prop}

theorem step_of_follows {after : List Char} {value : α} (hexact : Exact spelled read)
    (hitem : Follows text item read) (hrest : rest <:+ text) (hread : read rest = .ok (value, after)) :
    item (placeOf text rest) = some (.ok (value, placeOf text after)) ∧ after <:+ rest := by
  have hplaced := hitem rest hrest
  obtain ⟨front, -, rfl⟩ := hexact.sound hread
  rw [hread] at hplaced
  exact ⟨hplaced, List.suffix_append front after⟩

/-- A comma leads to the next item. -/
theorem loop_comma {close : Char} {items : List α} (hexact : Exact spelled read)
    (hitem : Follows text item read) (hclose : ',' ≠ close) (hrest : ',' :: rest <:+ text) :
    loop text (separatedRound text item close) items (placeOf text (',' :: rest)) =
      (item >>= fun next => loop text (separatedRound text item close) (next :: items))
        (placeOf text rest) := by
  have htail := (List.suffix_cons ',' rest).trans hrest
  have hround : separatedRound text item close items (placeOf text (',' :: rest)) =
      (item >>= fun next => return .inl (next :: items)) (placeOf text rest) := by
    rw [separatedRound, bind_ok (bump_cons hrest)]
    dsimp only
    rw [if_neg hclose, if_pos rfl]
  cases hread : read rest with
  | error stop =>
      have hplaced := hitem rest htail
      rw [hread] at hplaced
      rw [bind_error hplaced] at hround ⊢
      exact loop_error hround
  | ok result =>
      obtain ⟨hplaced, hafter⟩ := step_of_follows hexact hitem htail hread
      rw [bind_ok hplaced] at hround ⊢
      exact loop_next hrest hafter hround

/-- The loop goes on from the items it has as the reader does, and puts them in front. -/
theorem loop_separated (consumes : Consumes read) (close : Char) (hexact : Exact spelled read)
    (hitem : Follows text item read) (items : List α) (hrest : rest <:+ text) :
    (item >>= fun next => loop text (separatedRound text item close) (next :: items))
        (placeOf text rest) =
      some (placed text ((readSeparated read consumes close rest).map fun result =>
        (items.reverse ++ result.1, result.2))) := by
  fun_induction readSeparated read consumes close rest generalizing items with
  | case1 rest stop hread =>
      have hplaced := hitem rest hrest
      rw [hread] at hplaced
      exact bind_error hplaced
  | case2 rest value hread =>
      obtain ⟨hplaced, -⟩ := step_of_follows hexact hitem hrest hread
      rw [bind_ok hplaced]
      refine loop_error ?_
      rw [separatedRound, bind_ok bump_nil]
      rfl
  | case3 rest value after hread =>
      obtain ⟨hplaced, hafter⟩ := step_of_follows hexact hitem hrest hread
      rw [bind_ok hplaced]
      refine loop_done ?_
      rw [separatedRound, bind_ok (bump_cons (hafter.trans hrest))]
      dsimp only
      rw [if_pos rfl, List.reverse_cons]
      rfl
  | case4 rest value after stop hothers hread hcomma ih =>
      obtain ⟨hplaced, hafter⟩ := step_of_follows hexact hitem hrest hread
      have hmore := ih (value :: items) ((List.suffix_cons ',' after).trans (hafter.trans hrest))
      rw [hothers] at hmore
      rw [bind_ok hplaced, loop_comma hexact hitem hcomma (hafter.trans hrest), hmore]
      rfl
  | case5 rest value after others final hothers hread hcomma ih =>
      obtain ⟨hplaced, hafter⟩ := step_of_follows hexact hitem hrest hread
      have hmore := ih (value :: items) ((List.suffix_cons ',' after).trans (hafter.trans hrest))
      rw [hothers, Except.map, List.reverse_cons, List.append_assoc] at hmore
      rw [bind_ok hplaced, loop_comma hexact hitem hcomma (hafter.trans hrest), hmore]
      rfl
  | case6 rest value next after hread hclose hcomma =>
      obtain ⟨hplaced, hafter⟩ := step_of_follows hexact hitem hrest hread
      rw [bind_ok hplaced]
      refine loop_error ?_
      rw [separatedRound, bind_ok (bump_cons (hafter.trans hrest))]
      dsimp only
      rw [if_neg hclose, if_neg hcomma]
      exact unexpected_placeOf (hafter.trans hrest)

theorem follows_separated (consumes : Consumes read) (close : Char) (hexact : Exact spelled read)
    (hitem : Follows text item read) :
    Follows text (separated text item close) (readSeparated read consumes close) := by
  intro rest hrest
  rw [separated, loop_separated consumes close hexact hitem [] hrest]
  cases readSeparated read consumes close rest <;> rfl

end Separated

variable {text} in
theorem map_placeOf {α β : Type} {cursor : Cursor α} {place : Nat} {result : Read α} (f : α → β)
    (hcursor : cursor place = some (placed text result)) :
    (cursor >>= fun value => pure (f value)) place =
      some (placed text (result.map fun read => (f read.1, read.2))) := by
  cases result with
  | error stop => exact bind_error hcursor
  | ok value => exact bind_ok hcursor

variable {text} in
theorem expect_then_placeOf {β : Type} {rest : List Char} (wanted : Char) (value : β)
    (hrest : rest <:+ text) :
    (expect text wanted >>= fun _ => pure value) (placeOf text rest) =
      some (placed text (match Path.expect wanted rest with
        | .error stop => .error stop
        | .ok after => .ok (value, after))) := by
  rw [map_placeOf (fun _ => value) (expect_placeOf wanted hrest)]
  cases Path.expect wanted rest <;> rfl

theorem follows_bracket : Follows text (bracket text) readBracket := by
  intro rest hrest
  rw [bracket, bind_ok (peek_placeOf hrest)]
  by_cases hstar : rest.head? = some '*'
  · obtain ⟨tail, rfl⟩ := List.head?_eq_some_iff.mp hstar
    rw [if_pos hstar, bind_ok (bump_cons hrest)]
    exact expect_then_placeOf ']' Step.elements ((List.suffix_cons '*' tail).trans hrest)
  · have hseparated := follows_separated consumes_readPosition ']' exact_readPosition
      (follows_position text) rest hrest
    rw [if_neg hstar, readBracket]
    · rw [map_placeOf stepOfPositions hseparated]
      cases readSeparated readPosition consumes_readPosition ']' rest <;> rfl
    · rintro tail rfl
      exact hstar rfl

theorem follows_brace : Follows text (brace text) readBrace := by
  intro rest hrest
  rw [brace, bind_ok (peek_placeOf hrest)]
  by_cases hstar : rest.head? = some '*'
  · obtain ⟨tail, rfl⟩ := List.head?_eq_some_iff.mp hstar
    have htail := (List.suffix_cons '*' tail).trans hrest
    rw [if_pos hstar, bind_ok (bump_cons hrest)]
    cases tail with
    | nil =>
        rw [bind_ok bump_nil]
        rfl
    | cons c tail =>
        rw [bind_ok (bump_cons htail)]
        by_cases hclose : c = '\x7d'
        · subst hclose
          rfl
        by_cases hcolon : c = ':'
        · subst hcolon
          exact expect_then_placeOf '\x7d' Step.names ((List.suffix_cons ':' tail).trans htail)
        · dsimp only
          rw [if_neg hclose, if_neg hcolon, unexpected_placeOf htail, readBrace]
          all_goals
            rintro _ ⟨⟩
            contradiction
  · have hseparated := follows_separated consumes_readQuoted '\x7d' exact_readQuoted
      (follows_quoted text) rest hrest
    rw [if_neg hstar, readBrace]
    · rw [map_placeOf stepOfKeys hseparated]
      cases readSeparated readQuoted consumes_readQuoted '\x7d' rest <;> rfl
    all_goals
      rintro tail rfl
      exact hstar rfl

variable {text} in
theorem step_placeOf {c : Char} {rest : List Char} (hrest : c :: rest <:+ text) :
    step text c (placeOf text (c :: rest)) = some (placed text (readStep (c :: rest))) := by
  have htail := (List.suffix_cons c rest).trans hrest
  rw [step]
  split
  · rename_i hpoint
    subst hpoint
    rw [bind_ok (bump_cons hrest)]
    rw [map_placeOf Step.field (follows_name text rest htail), readStep]
    cases readName rest <;> rfl
  split
  · rename_i hbracket
    subst hbracket
    rw [bind_ok (bump_cons hrest)]
    exact follows_bracket text rest htail
  split
  · rename_i hbrace
    subst hbrace
    rw [bind_ok (bump_cons hrest)]
    exact follows_brace text rest htail
  · rw [readStep]
    · rfl
    all_goals
      rintro _ ⟨⟩
      contradiction

variable {text} in
theorem stepsRound_placeOf (steps : Path) {rest : List Char} (hrest : rest <:+ text) (hsome : rest ≠ []) :
    stepsRound text steps (placeOf text rest) =
      some (placed text ((readStep rest).map fun read => (.inl (read.1 :: steps), read.2))) := by
  obtain ⟨c, tail, rfl⟩ := List.exists_cons_of_ne_nil hsome
  rw [stepsRound, bind_ok (peek_placeOf hrest)]
  exact map_placeOf (fun next => Sum.inl (next :: steps)) (step_placeOf hrest)

variable {text} in
theorem stepsAfter_next (steps : Path) {rest after : List Char} {next : Step} (hrest : rest <:+ text)
    (hread : readStep rest = .ok (next, after)) :
    stepsAfter text steps (placeOf text rest) = stepsAfter text (next :: steps) (placeOf text after) ∧
      after <:+ rest := by
  obtain ⟨front, hfront, rfl⟩ := exact_readStep.sound hread
  obtain ⟨c, -, more, rfl⟩ := exists_cons_of_spelled hfront
  have hround := stepsRound_placeOf steps hrest (List.cons_ne_nil _ _)
  rw [hread] at hround
  exact ⟨loop_next hrest (List.suffix_append more after) hround, List.suffix_append _ _⟩

variable {text} in
theorem stepsAfter_placeOf (steps : Path) {rest : List Char} (hrest : rest <:+ text) :
    stepsAfter text steps (placeOf text rest) =
      some (placed text ((readSteps rest).map fun path => (steps.reverse ++ path, []))) := by
  fun_induction readSteps rest generalizing steps with
  | case1 rest hempty =>
      obtain rfl := List.isEmpty_iff.mp hempty
      refine loop_done ?_
      rw [stepsRound, bind_ok (peek_placeOf hrest), List.append_nil]
      rfl
  | case2 rest hsome stop hread =>
      have hround := stepsRound_placeOf steps hrest (by simpa using hsome)
      rw [hread] at hround
      exact loop_error hround
  | case3 rest hsome next after hread stop hsteps ih =>
      obtain ⟨hnext, hafter⟩ := stepsAfter_next steps hrest hread
      rw [hnext, ih (next :: steps) (hafter.trans hrest), hsteps]
      rfl
  | case4 rest hsome next after hread path hsteps ih =>
      obtain ⟨hnext, hafter⟩ := stepsAfter_next steps hrest hread
      rw [hnext, ih (next :: steps) (hafter.trans hrest), hsteps, Except.map, List.reverse_cons,
        List.append_assoc]
      rfl

end

/-- **Reading at byte positions agrees with reading characters.** -/
theorem parse?_eq (text : String) : parse? text = some (parse text) := by
  have hstart : placeOf text.toList text.toList = 0 := Nat.sub_self _
  have hsteps := stepsAfter_placeOf [] (List.suffix_rfl : text.toList <:+ text.toList)
  rw [hstart] at hsteps
  rw [parse?, parse, ofChars?]
  by_cases hpoint : text.toList = ['.']
  · rw [if_pos (.inr hpoint), if_pos hpoint]
  rw [if_neg hpoint]
  by_cases hempty : text.toList = []
  · rw [if_pos (.inl hempty), hempty, readSteps, List.isEmpty_nil, if_pos rfl]
    rfl
  · rw [if_neg (not_or.mpr ⟨hempty, hpoint⟩)]
    change Prod.fst <$> stepsAfter text.toList [] 0 = _
    rw [hsteps]
    cases readSteps text.toList <;> rfl

end Cursor

/-- **Reading a path never leaves the text, and errors are true of it.** Read at byte positions, every
text gives the same result, so no position or slice is beyond the text or inside a character. The offset
of an error is such a position as well, and what the error says is true there. -/
theorem parse_inside_text (text : String) :
    Cursor.parse? text = some (parse text) ∧
    ∀ error, parse text = .error error → error.IsTrueOf text.toList :=
  ⟨Cursor.parse?_eq text, fun _ => isTrueOf_of_parse⟩

/-- An escape that breaks off behind a character of two bytes. -/
theorem parse_inside_text_escape :
    parse ".\"é\\ud83d\\u12\"" = .error ⟨.invalidEscape, 4⟩ ∧
      Cursor.parse? ".\"é\\ud83d\\u12\"" = some (.error ⟨.invalidEscape, 4⟩) ∧
        ParseError.IsTrueOf ".\"é\\ud83d\\u12\"".toList ⟨.invalidEscape, 4⟩ := by
  have hread : readStep ['.', '"', 'é', '\\', 'u', 'd', '8', '3', 'd', '\\', 'u', '1', '2', '"'] =
      .error ⟨.invalidEscape, ['\\', 'u', 'd', '8', '3', 'd', '\\', 'u', '1', '2', '"']⟩ := rfl
  have hparse : parse ".\"é\\ud83d\\u12\"" = .error ⟨.invalidEscape, 4⟩ := by
    have hchars : ".\"é\\ud83d\\u12\"".toList =
        ['.', '"', 'é', '\\', 'u', 'd', '8', '3', 'd', '\\', 'u', '1', '2', '"'] := rfl
    rw [parse, hchars, ofChars?, if_neg (by decide), readSteps_of_ne_nil (List.cons_ne_nil _ _), hread]
    rfl
  obtain ⟨hcursor, herror⟩ := parse_inside_text ".\"é\\ud83d\\u12\""
  exact ⟨hparse, hparse ▸ hcursor, herror _ hparse⟩

end Path

end JsonEdit
