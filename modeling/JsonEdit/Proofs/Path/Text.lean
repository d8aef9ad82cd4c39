import JsonEdit.Json.Conversion
import JsonEdit.Path.Printer
import JsonEdit.Proofs.Json.Quoted
import JsonEdit.Proofs.Path.Reader
import Mathlib.Tactic.SplitIfs

/-!
# The text of a path is read back

Printing spells a path in the documented grammar, so the reader takes the text back. Only the number of
items tells a step with several places from a step with one, so a step with several has to list two at
least; the reader makes no others.
-/

namespace JsonEdit

namespace Step

/-- A step with several listed places lists at least two. -/
def Plural : Step → Prop
  | .indices positions => 2 ≤ positions.length
  | .keys texts => 2 ≤ texts.length
  | _ => True

def Addressable : Step → Prop
  | .index position => position < 2 ^ 64
  | .indices positions => ∀ position ∈ positions, position < 2 ^ 64
  | _ => True

end Step

namespace Path

def Plural (path : Path) : Prop := ∀ step ∈ path, step.Plural

def Addressable (path : Path) : Prop := ∀ step ∈ path, step.Addressable

/-! ### What is printed is spelled -/

theorem positionSpelled_positionChars {n : Nat} (hn : n < 2 ^ 64) :
    PositionSpelled n (positionChars n) :=
  ⟨Nat.toDigits_ne_nil, fun _ => Nat.isDigit_of_mem_toDigits (by decide) (by decide),
    Nat.ofDigitChars_toDigits (by decide) (by decide), hn⟩

/-- A character is printed as one piece, which stands for it before any other pieces. -/
theorem exists_piece (c : Char) :
    ∃ piece : Piece, piece.Spelled Text.codeUnit? (quotedChar c) ∧
      ∀ pieces, Piece.decode (piece :: pieces) = c :: Piece.decode pieces := by
  unfold quotedChar
  split_ifs with hself hline hreturn htab hcontrol
  · have hletter : (c, c) ∈ Piece.letters := by
      rcases (by simpa using hself : c = '"' ∨ c = '\\') with rfl | rfl <;> decide
    exact ⟨.character c, .letter hletter, fun _ => rfl⟩
  · subst hline
    exact ⟨.character '\n', .letter (by decide), fun _ => rfl⟩
  · subst hreturn
    exact ⟨.character '\r', .letter (by decide), fun _ => rfl⟩
  · subst htab
    exact ⟨.character '\t', .letter (by decide), fun _ => rfl⟩
  · obtain ⟨hunit, hhigh, -, hsingle⟩ := Json.codeUnit?_fourHexDigits hcontrol
    refine ⟨.unit (UInt16.ofNat c.toNat), .unit hunit, fun pieces => ?_⟩
    have halone : Alone (UInt16.ofNat c.toNat) pieces := fun h => by
      rw [hhigh] at h
      cases h
    rw [decode_alone halone, hsingle, Char.ofNat_toNat]
  · have hplain : c ≠ '"' ∧ c ≠ '\\' := by simpa using hself
    exact ⟨.character c, .plain hplain.1 hplain.2, fun _ => rfl⟩

theorem exists_pieces (chars : List Char) :
    ∃ pieces, Row (Piece.Spelled Text.codeUnit?) pieces (chars.flatMap quotedChar) ∧
      Piece.decode pieces = chars := by
  induction chars with
  | nil => exact ⟨[], .nil, rfl⟩
  | cons c chars ih =>
      obtain ⟨piece, hpiece, hdecode⟩ := exists_piece c
      obtain ⟨pieces, hpieces, rfl⟩ := ih
      exact ⟨piece :: pieces, .cons hpiece hpieces, hdecode pieces⟩

theorem quotedSpelled_quoted (text : String) :
    QuotedSpelled Text.codeUnit? text (quoted text) := by
  obtain ⟨pieces, hpieces, hdecode⟩ := exists_pieces text.toList
  exact ⟨pieces, _, hpieces, rfl, by rw [hdecode, String.ofList_toList]⟩

/-- The name of a field is spelled, with its quotes or without. -/
theorem nameSpelled_printed (name : String) :
    NameSpelled Text.codeUnit? name (if isPlainName name then name.toList else quoted name) := by
  split_ifs with hplain
  · rw [isPlainName, Bool.and_eq_true, List.all_eq_true] at hplain
    exact .plain (by simpa using hplain.1) hplain.2
  · exact .quoted (quotedSpelled_quoted name)

theorem separated_commaSeparated {α : Type} {spelled : α → List Char → Prop} {write : α → List Char}
    {items : List α} (hitems : items ≠ []) (hitem : ∀ item ∈ items, spelled item (write item)) :
    Separated spelled items (commaSeparated (items.map write)) := by
  induction items with
  | nil => exact absurd rfl hitems
  | cons item items ih =>
      obtain ⟨hfirst, hothers⟩ := List.forall_mem_cons.mp hitem
      by_cases hlast : items = []
      · subst hlast
        rw [List.map_singleton, commaSeparated, List.intercalate_singleton]
        exact .last hfirst
      · have hmap : items.map write ≠ [] := by simpa using hlast
        rw [List.map_cons, commaSeparated, List.intercalate_cons_of_ne_nil hmap, List.append_assoc]
        exact .cons hfirst (ih hlast hothers)

theorem ne_nil_of_plural {α : Type} {items : List α} (hplural : 2 ≤ items.length) : items ≠ [] :=
  List.ne_nil_of_length_pos (Nat.zero_lt_of_lt hplural)

theorem spelled_chars {step : Step} (hplural : step.Plural) (haddressable : step.Addressable) :
    step.Spelled Text.codeUnit? step.chars := by
  cases step with
  | field name => exact .field (nameSpelled_printed name)
  | index position => exact .index (positionSpelled_positionChars haddressable)
  | indices positions =>
      exact .indices hplural (separated_commaSeparated (ne_nil_of_plural hplural) fun position hmem =>
        positionSpelled_positionChars (haddressable position hmem))
  | elements => exact .elements
  | values => exact .values
  | names => exact .names
  | key text => exact .key (quotedSpelled_quoted text)
  | keys texts =>
      exact .keys hplural (separated_commaSeparated (ne_nil_of_plural hplural) fun text _ =>
        quotedSpelled_quoted text)

theorem row_flatMap {path : Path} (hplural : path.Plural) (haddressable : path.Addressable) :
    Row (Step.Spelled Text.codeUnit?) path (path.flatMap Step.chars) := by
  induction path with
  | nil => exact .nil
  | cons step steps ih =>
      obtain ⟨hstep, hsteps⟩ := List.forall_mem_cons.mp hplural
      obtain ⟨hstep', hsteps'⟩ := List.forall_mem_cons.mp haddressable
      exact .cons (spelled_chars hstep hstep') (ih hsteps hsteps')

/-- The text of a path spells it in the documented grammar. -/
theorem spelled_text {path : Path} (hplural : path.Plural) (haddressable : path.Addressable) :
    path.Spelled Text.codeUnit? path.text.toList := by
  rw [text, String.toList_ofList]
  cases path with
  | nil => exact .inr ⟨rfl, rfl⟩
  | cons step steps => exact .inl (row_flatMap hplural haddressable)

/-- **A path is read back from its text** if its steps can be told from their texts. -/
theorem parse_text {path : Path} (hplural : path.Plural) (haddressable : path.Addressable) :
    parse path.text = .ok path :=
  parse_eq_ok_iff.mpr <| (spelled_text hplural haddressable).mono fun _ _ _ _ _ _ =>
    escapedUnit?_of_codeUnit?

/-- **The text of a path is read back.** -/
theorem ofText_text {path : Path} (hplural : path.Plural) (haddressable : path.Addressable) :
    Path.ofText path.text = .ok path := by
  rw [Path.ofText, parse_text hplural haddressable]
  rfl

/-! ### What is read is printed -/

section Spelled

variable {unit? : Char → Char → Char → Char → Option Text.CodeUnit} {chars : List Char}

theorem plural_of_spelled {step : Step} (hstep : step.Spelled unit? chars) : step.Plural := by
  cases hstep with
  | indices hplural => exact hplural
  | keys hplural => exact hplural
  | _ => trivial

theorem lt_of_separated {positions : List Nat} (hpositions : Separated PositionSpelled positions chars) :
    ∀ position ∈ positions, position < 2 ^ 64 := by
  induction hpositions with
  | last hposition => exact List.forall_mem_singleton.mpr hposition.2.2.2
  | cons hposition _ ih => exact List.forall_mem_cons.mpr ⟨hposition.2.2.2, ih⟩

theorem addressable_of_spelled {step : Step} (hstep : step.Spelled unit? chars) :
    step.Addressable := by
  cases hstep with
  | index hposition => exact hposition.2.2.2
  | indices _ hpositions => exact lt_of_separated hpositions
  | _ => trivial

/-- A property of every spelled step holds of every step of a spelled path. -/
theorem Spelled.forall_step {path : Path} {p : Step → Prop} (hpath : path.Spelled unit? chars)
    (hp : ∀ step part, step.Spelled unit? part → p step) : ∀ step ∈ path, p step := by
  obtain hrow | ⟨rfl, -⟩ := hpath
  · induction hrow with
    | nil => exact List.forall_mem_nil p
    | cons hstep _ ih => exact List.forall_mem_cons.mpr ⟨hp _ _ hstep, ih⟩
  · exact List.forall_mem_nil p

end Spelled

/-- **The text of a path is read back, and what is read is printed.** A path whose steps list at least
two places wherever they list places is read back from its text, and no other path is read. -/
theorem parse_text_roundTrip (path : Path) :
    (path.Plural → path.Addressable → parse path.text = .ok path) ∧
    ∀ text, parse text = .ok path →
      path.Plural ∧ path.Addressable ∧ parse path.text = .ok path := by
  refine ⟨parse_text, fun text hparse => ?_⟩
  have hspelled := parse_eq_ok_iff.mp hparse
  have hplural : path.Plural := hspelled.forall_step fun _ _ => plural_of_spelled
  have haddressable : path.Addressable := hspelled.forall_step fun _ _ => addressable_of_spelled
  exact ⟨hplural, haddressable, parse_text hplural haddressable⟩

/-- An empty key and one with a quotation mark, as one step with several keys. -/
theorem parse_text_roundTrip_keys :
    parse "\x7b\"\",\"a\\\"\"\x7d[7]" = .ok [.keys ["", "a\""], .index 7] ∧
      Path.Plural [.keys ["", "a\""], .index 7] := by
  have hplural : Path.Plural [.keys ["", "a\""], .index 7] := by
    simp [Path.Plural, Step.Plural]
  have haddressable : Path.Addressable [.keys ["", "a\""], .index 7] := by
    simp [Path.Addressable, Step.Addressable]
  obtain ⟨hback, hforth⟩ := parse_text_roundTrip [.keys ["", "a\""], .index 7]
  have hparse : parse "\x7b\"\",\"a\\\"\"\x7d[7]" = .ok [.keys ["", "a\""], .index 7] :=
    hback hplural haddressable
  exact ⟨hparse, (hforth _ hparse).1⟩

end Path

end JsonEdit
