import JsonEdit.Proofs.Json.Numeral
import JsonEdit.Proofs.Json.Surrogates

/-!
# Strings in trees and in paths

A string between quotes is read in a tree and in a path, by readers that treat surrogates in different
ways: one keeps a high surrogate until it has seen what follows, and the other looks ahead. What the
first one reads, the second one reads as well, with the same characters. The second one also takes a
plus sign behind `\u` and control characters.

A row of escapes of units is read as the units are decoded, whatever pairs there are among them.
-/

namespace JsonEdit

open Text (CodeUnit)

namespace Json

inductive Escapes : List CodeUnit → List Char → Prop where
  | nil : Escapes [] []
  | cons {a b c d : Char} {unit : CodeUnit} {units : List CodeUnit} {body : List Char}
      (hunit : Text.codeUnit? a b c d = some unit) (hunits : Escapes units body) :
      Escapes (unit :: units) ('\\' :: 'u' :: a :: b :: c :: d :: body)

section Read

variable {read rest chars : List Char} {result : String × List Char} {a b c d e f g h : Char}
  {unit second : CodeUnit}

theorem exists_unit_of_readString {lone : LoneSurrogate} {high : Option CodeUnit}
    (hread : readString lone read high ('\\' :: 'u' :: rest) = .ok result) :
    ∃ a b c d more unit, rest = a :: b :: c :: d :: more ∧ Text.codeUnit? a b c d = some unit := by
  cases hunit : unit? rest with
  | none =>
      rw [readString_unit_none hunit] at hread
      cases hread
  | some unit =>
      obtain ⟨a, b, c, d, more, hrest, hspelled⟩ := unit?_eq_some_iff.mp hunit
      exact ⟨a, b, c, d, more, unit, hrest, hspelled⟩

/-- What is read of an escape is a unit to either reader. -/
theorem codeUnit?_eq_escapedUnit? {lone : LoneSurrogate} {high : Option CodeUnit}
    (hread : readString lone read high ('\\' :: 'u' :: a :: b :: c :: d :: rest) = .ok result) :
    Text.codeUnit? a b c d = Path.escapedUnit? a b c d := by
  obtain ⟨_, _, _, _, _, unit, ⟨⟩, hunit⟩ := exists_unit_of_readString hread
  rw [hunit, Path.escapedUnit?_of_codeUnit? hunit]

theorem noLow_of_escapedUnit?
    (hlow : ∀ low, Path.escapedUnit? a b c d = some low → low.isLow = false) :
    NoLow ('\\' :: 'u' :: a :: b :: c :: d :: rest) := by
  rintro _ _ _ _ _ low ⟨⟩ hspelled
  exact hlow low (Path.escapedUnit?_of_codeUnit? hspelled)

/-! ### What is left to read

If a string is read then what stands behind its first piece is read, with one character more. -/

theorem escapedUnit?_ne_none (hread : readString .replaced read none
    ('\\' :: 'u' :: a :: b :: c :: d :: rest) = .ok result) : Path.escapedUnit? a b c d ≠ none := by
  obtain ⟨_, _, _, _, _, unit, ⟨⟩, hspelled⟩ := exists_unit_of_readString hread
  rw [Path.escapedUnit?_of_codeUnit? hspelled]
  exact Option.some_ne_none unit

theorem readString_of_pair (hread : readString .replaced read none
      ('\\' :: 'u' :: a :: b :: c :: d :: '\\' :: 'u' :: e :: f :: g :: h :: rest) = .ok result)
    (hfirst : Path.escapedUnit? a b c d = some unit) (hhigh : unit.isHigh = true)
    (hsecond : Path.escapedUnit? e f g h = some second) (hlow : second.isLow = true) :
    readString .replaced (unit.pair second :: read) none rest = .ok result := by
  have hfirst := Text.codeUnit?_of_surrogate hfirst (.inl hhigh)
  have hsecond := Text.codeUnit?_of_surrogate hsecond (.inr hlow)
  rwa [readString_pair hfirst hhigh hsecond hlow] at hread

theorem readString_of_unpaired (hread : readString .replaced read none
      ('\\' :: 'u' :: a :: b :: c :: d :: rest) = .ok result)
    (hunit : Path.escapedUnit? a b c d = some unit) (hhigh : unit.isHigh = true) (hlow : NoLow rest) :
    readString .replaced (Text.replacement :: read) none rest = .ok result := by
  have hunit := Text.codeUnit?_of_surrogate hunit (.inl hhigh)
  rwa [readString_unpaired hunit hhigh hlow] at hread

theorem readString_of_single (hread : readString .replaced read none
      ('\\' :: 'u' :: a :: b :: c :: d :: rest) = .ok result)
    (hunit : Path.escapedUnit? a b c d = some unit) (hhigh : unit.isHigh = false) :
    readString .replaced (unit.single :: read) none rest = .ok result := by
  have hunit := (codeUnit?_eq_escapedUnit? hread).trans hunit
  rwa [readString_single hunit hhigh fun _ => rfl] at hread

theorem exists_escaped_of_readString {letter : Char}
    (hread : readString .replaced read none ('\\' :: letter :: rest) = .ok result)
    (hunit : ∀ a b c d more, letter = 'u' → rest ≠ a :: b :: c :: d :: more) :
    ∃ c, escaped? letter = some c := by
  have hletter : letter ≠ 'u' := by
    rintro rfl
    obtain ⟨_, _, _, _, _, _, rfl, -⟩ := exists_unit_of_readString hread
    exact hunit _ _ _ _ _ rfl rfl
  refine Option.ne_none_iff_exists'.mp fun hnone => ?_
  rw [readString_escape hletter, hnone] at hread
  cases hread

theorem readString_of_char (hread : readString .replaced read none (c :: rest) = .ok result)
    (hbackslash : c ≠ '\\') (hquote : c ≠ '"') :
    readString .replaced (c :: read) none rest = .ok result := by
  rw [readString_char hbackslash, if_neg hquote] at hread
  split at hread
  · cases hread
  · exact hread

/-- **What is read between quotes in a tree is read between quotes in a path.** -/
theorem readQuotedBody_of_readString (hread : readString .replaced read none chars = .ok result) :
    Path.readQuotedBody read chars = .ok result := by
  fun_induction Path.readQuotedBody read chars with
  | case1 => cases hread
  | case2 read rest =>
      rw [readString_char (by decide), if_pos rfl] at hread
      cases hread
      rfl
  | case3 read a b c d rest _ hunit => exact (escapedUnit?_ne_none hread hunit).elim
  | case4 read a b c d unit hunit hhigh e f g h more hsecond =>
      have hnoLow : NoLow ('\\' :: 'u' :: e :: f :: g :: h :: more) :=
        noLow_of_escapedUnit? (by simp [hsecond])
      have hrest := readString_of_unpaired hread hunit hhigh hnoLow
      exact (escapedUnit?_ne_none hrest hsecond).elim
  | case5 read a b c d unit hunit hhigh e f g h more second hsecond hlow ih =>
      exact ih (readString_of_pair hread hunit hhigh hsecond hlow)
  | case6 read a b c d unit hunit hhigh e f g h more second hsecond hlow ih =>
      have hnoLow : NoLow ('\\' :: 'u' :: e :: f :: g :: h :: more) :=
        noLow_of_escapedUnit? (by simpa [hsecond] using hlow)
      exact ih (readString_of_unpaired hread hunit hhigh hnoLow)
  | case7 read a b c d unit hunit hhigh tail hshort =>
      have hnoLow : NoLow ('\\' :: 'u' :: tail) := by
        rintro _ _ _ _ _ low ⟨⟩
        exact (hshort _ _ _ _ _ rfl).elim
      have hrest := readString_of_unpaired hread hunit hhigh hnoLow
      obtain ⟨_, _, _, _, _, _, rfl, -⟩ := exists_unit_of_readString hrest
      exact (hshort _ _ _ _ _ rfl).elim
  | case8 read a b c d unit hunit hhigh rest hother hother' ih =>
      have hnoLow : NoLow rest := by
        rintro _ _ _ _ _ low rfl
        exact (hother' _ rfl).elim
      exact ih (readString_of_unpaired hread hunit hhigh hnoLow)
  | case9 read a b c d rest unit hunit hhigh ih =>
      exact ih (readString_of_single hread hunit (Bool.eq_false_iff.mpr hhigh))
  | case10 read letter rest hother c hescaped ih =>
      rw [readString_letter .replaced read hescaped] at hread
      exact ih hread
  | case11 read letter rest hother hescaped =>
      obtain ⟨c, hletter⟩ := exists_escaped_of_readString hread hother
      cases hletter.symm.trans hescaped
  | case12 => cases hread
  | case13 read c rest hquote hunit hletter hend ih =>
      have hbackslash : c ≠ '\\' := by
        rintro rfl
        cases rest with
        | nil => exact hend rfl rfl
        | cons letter rest => exact hletter letter rest rfl rfl
      exact ih (readString_of_char hread hbackslash hquote)

/-- A unit that is not a surrogate of a pair is read on its own. -/
theorem readString_alone (hunit : Text.codeUnit? a b c d = some unit)
    (hlow : unit.isHigh = true → NoLow rest) :
    readString .replaced read none ('\\' :: 'u' :: a :: b :: c :: d :: rest) =
      readString .replaced (unit.single :: read) none rest := by
  cases hhigh : unit.isHigh with
  | false => exact readString_single hunit hhigh fun _ => rfl
  | true => rw [readString_unpaired hunit hhigh (hlow hhigh), Path.single_of_isHigh hhigh]

theorem noLow_quote (rest : List Char) : NoLow ('"' :: rest) := by
  rintro _ _ _ _ _ _ ⟨⟩

/-- Escapes of units are read as what the units spell in UTF-16. -/
theorem readString_escapes {units : List CodeUnit} {body : List Char} (hbody : Escapes units body)
    (read rest : List Char) :
    readString .replaced read none (body ++ '"' :: rest) =
      .ok (String.ofList (read.reverse ++ CodeUnit.decode units), rest) := by
  fun_induction CodeUnit.decode units generalizing body read with
  | case1 =>
      cases hbody
      rw [List.nil_append, readString_char (by decide), if_pos rfl, List.append_nil]
  | case2 last =>
      cases hbody with
      | cons hunit hnil =>
          cases hnil
          refine (readString_alone hunit fun _ => noLow_quote rest).trans ?_
          rw [readString_char (by decide), if_pos rfl, List.reverse_cons]
  | case3 first second more hpair ih =>
      obtain ⟨hhigh, hlow⟩ := Bool.and_eq_true_iff.mp hpair
      cases hbody with
      | @cons a b c d _ _ _ hfirst hbody =>
          cases hbody with
          | @cons e f g h _ _ body hsecond hbody =>
              calc
                readString .replaced read none ('\\' :: 'u' :: a :: b :: c :: d ::
                    '\\' :: 'u' :: e :: f :: g :: h :: (body ++ '"' :: rest)) =
                  readString .replaced (first.pair second :: read) none (body ++ '"' :: rest) :=
                    readString_pair hfirst hhigh hsecond hlow
                _ = .ok (String.ofList ((first.pair second :: read).reverse ++ CodeUnit.decode more),
                    rest) := ih hbody _
                _ = .ok (String.ofList (read.reverse ++ first.pair second :: CodeUnit.decode more),
                    rest) := by rw [Path.reverse_cons_append]
  | case4 first second more hpair ih =>
      cases hbody with
      | @cons a b c d _ _ body hfirst hbody =>
          have hlow : first.isHigh = true → NoLow (body ++ '"' :: rest) := by
            intro hhigh
            rw [hhigh, Bool.true_and] at hpair
            cases hbody with
            | cons hsecond _ =>
                rintro _ _ _ _ _ low ⟨⟩ hspelled
                obtain rfl : second = low := Option.some.inj (hsecond.symm.trans hspelled)
                exact Bool.eq_false_iff.mpr hpair
          calc
            readString .replaced read none ('\\' :: 'u' :: a :: b :: c :: d :: (body ++ '"' :: rest)) =
              readString .replaced (first.single :: read) none (body ++ '"' :: rest) :=
                readString_alone hfirst hlow
            _ = .ok (String.ofList ((first.single :: read).reverse ++ CodeUnit.decode (second :: more)),
                rest) := ih hbody _
            _ = .ok (String.ofList (read.reverse ++ first.single :: CodeUnit.decode (second :: more)),
                rest) := by rw [Path.reverse_cons_append]

end Read

end Json

/-! ### Whole texts -/

namespace Json

variable {text x : String}

theorem next?_string (body : List Char) : Lexeme.next? .replaced ('"' :: body) =
    some (Lexeme.ofRead ('"' :: body) .string (readString .replaced [] none body)) := rfl

/-- A text between quotes that is read as a string is that string and nothing else. -/
theorem parse_string_eq_ok_iff {body : List Char} (hbody : text.toList = '"' :: body)
    (hlast : text.toList.getLast? = some '"') :
    parse text = .ok (.string x) ↔ readString .replaced [] none body = .ok (x, []) := by
  have hnext := next?_string body
  rw [parse, read_eq_ok_iff, hbody]
  cases hread : readString .replaced [] none body with
  | error stop =>
      rw [hread] at hnext
      rw [Reader.run_of_halt hnext rfl]
      simp
  | ok result =>
      obtain ⟨name, rest⟩ := result
      rw [hread] at hnext
      rw [Reader.run_of_step hnext rfl, Reader.complete, Reader.run_done_eq_ok_iff]
      have hquoted := readQuotedBody_of_readString hread
      obtain ⟨_, front, -, hchars, -⟩ := Path.row_of_readQuotedBody hquoted
      constructor
      · rintro ⟨hblank, ⟨⟩⟩
        have htext : text.toList = ('"' :: front ++ ['"']) ++ rest := by simp [hbody, hchars]
        rw [Lexeme.eq_nil_of_isBlank htext (by simp [hlast, Lexeme.isBlank]) hblank]
      · rintro ⟨⟩
        exact ⟨by simp, rfl⟩

/-- **A string is the same in a tree and in a path.** What a text between quotes is read as in a tree is
the name of the field, and the key, that it is read as in a path. If there are only escapes of units of
UTF-16 between the quotes, in either case of the digits, it is read as what the units spell, with U+FFFD
for each surrogate that has no partner. -/
theorem parse_string_agrees (hfirst : text.toList.head? = some '"')
    (hlast : text.toList.getLast? = some '"') :
    (∀ x, parse text = .ok (.string x) →
      Path.parse ("." ++ text) = .ok [.field x] ∧
        Path.parse ("\x7b" ++ text ++ "\x7d") = .ok [.key x]) ∧
    ∀ units body, text.toList = '"' :: body ++ ['"'] → Escapes units body →
      parse text = .ok (ofUtf16 units) := by
  constructor
  · intro x hparse
    obtain ⟨body, hbody⟩ := List.head?_eq_some_iff.mp hfirst
    have hread := readQuotedBody_of_readString ((parse_string_eq_ok_iff hbody hlast).mp hparse)
    obtain ⟨pieces, front, hpieces, hchars, hx⟩ := Path.row_of_readQuotedBody hread
    have hspelled : Path.QuotedSpelled Path.escapedUnit? x text.toList :=
      ⟨pieces, front, hpieces, hbody.trans (by rw [hchars]; rfl), hx⟩
    have hfield : Path.Row (Step.Spelled Path.escapedUnit?) [.field x] ('.' :: text.toList ++ []) :=
      .cons (.field (.quoted hspelled)) .nil
    have hkey : Path.Row (Step.Spelled Path.escapedUnit?) [.key x]
        ('\x7b' :: text.toList ++ ['\x7d'] ++ []) := .cons (.key hspelled) .nil
    rw [List.append_nil] at hfield hkey
    exact ⟨Path.parse_eq_ok_iff.mpr (.inl (by simpa using hfield)),
      Path.parse_eq_ok_iff.mpr (.inl (by simpa using hkey))⟩
  · exact fun units body htext hunits =>
      (parse_string_eq_ok_iff htext hlast).mpr (readString_escapes hunits [] [])

/-- A pair, a low surrogate and a high one without partners, with digits of either case. -/
theorem parse_string_agrees_mixed :
    parse "\"\\ud83d\\uDE00\\udc00\\uD800\"" = .ok (.string "😀\uFFFD\uFFFD") ∧
      Path.parse ".\"\\ud83d\\uDE00\\udc00\\uD800\"" = .ok [.field "😀\uFFFD\uFFFD"] ∧
      Path.parse "\x7b\"\\ud83d\\uDE00\\udc00\\uD800\"\x7d" = .ok [.key "😀\uFFFD\uFFFD"] := by
  have hfirst : "\"\\ud83d\\uDE00\\udc00\\uD800\"".toList.head? = some '"' := rfl
  obtain ⟨hpath, hunits⟩ := parse_string_agrees hfirst rfl
  have hbody : Escapes [0xD83D, 0xDE00, 0xDC00, 0xD800] "\\ud83d\\uDE00\\udc00\\uD800".toList :=
    .cons rfl (.cons rfl (.cons rfl (.cons rfl .nil)))
  have hparse := hunits _ _ rfl hbody
  exact ⟨hparse, hpath _ hparse⟩

end Json

end JsonEdit
