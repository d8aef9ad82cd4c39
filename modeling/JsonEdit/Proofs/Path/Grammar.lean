import JsonEdit.Path.Basic
import JsonEdit.Path.Name
import JsonEdit.Text.Surrogate
import Mathlib.Algebra.Order.Ring.Nat
import Mathlib.Data.List.Infix

/-!
# The grammar of paths

What the characters of a path may be is said here without a reader, by one rule for each row of the
table of steps. A text has at most one reading: a name without quotes or a position goes on as far as it
can, and no step begins with a character that could continue one.

The grammar depends on what may spell a unit of UTF-16 behind `\u`. The documented escapes have exactly
four hexadecimal digits there; the reader also takes a plus sign in place of the first. That is the
only difference between the documented grammar and the one that is read.
-/

namespace JsonEdit

namespace Path

/-- An item between quotes: a character, or a unit of UTF-16 that is written as an escape. -/
inductive Piece where
  | character (c : Char)
  | unit (unit : Text.CodeUnit)

/-- Parts that spell the items, one after another. -/
inductive Row {α : Type} (spelled : α → List Char → Prop) : List α → List Char → Prop where
  | nil : Row spelled [] []
  | cons {item : α} {items : List α} {front rest : List Char} (hitem : spelled item front)
      (hitems : Row spelled items rest) : Row spelled (item :: items) (front ++ rest)

inductive Separated {α : Type} (spelled : α → List Char → Prop) : List α → List Char → Prop where
  | last {item : α} {front : List Char} (hitem : spelled item front) :
      Separated spelled [item] front
  | cons {item : α} {items : List α} {front rest : List Char} (hitem : spelled item front)
      (hitems : Separated spelled items rest) : Separated spelled (item :: items) (front ++ ',' :: rest)

namespace Piece

def letters : List (Char × Char) :=
  [('"', '"'), ('\\', '\\'), ('/', '/'), ('b', '\x08'), ('f', '\x0c'), ('n', '\n'), ('r', '\r'),
    ('t', '\t')]

/-- How a piece is written. A unit of UTF-16 is spelled by four characters behind `\u`. -/
inductive Spelled (unit? : Char → Char → Char → Char → Option Text.CodeUnit) :
    Piece → List Char → Prop where
  | plain {c : Char} (hquote : c ≠ '"') (hbackslash : c ≠ '\\') :
      Spelled unit? (.character c) [c]
  | letter {letter c : Char} (hletter : (letter, c) ∈ letters) :
      Spelled unit? (.character c) ['\\', letter]
  | unit {a b c d : Char} {unit : Text.CodeUnit} (hunit : unit? a b c d = some unit) :
      Spelled unit? (.unit unit) ['\\', 'u', a, b, c, d]

/-- The text that pieces spell together. Two adjacent units may be the surrogates of one character; a
surrogate on its own is read as U+FFFD. -/
def decode : List Piece → List Char
  | [] => []
  | .character c :: rest => c :: decode rest
  | .unit first :: .unit second :: rest =>
    if first.isHigh && second.isLow then Text.CodeUnit.pair first second :: decode rest
    else Text.CodeUnit.single first :: decode (.unit second :: rest)
  | .unit alone :: rest => Text.CodeUnit.single alone :: decode rest

end Piece

def PositionSpelled (position : Nat) (chars : List Char) : Prop :=
  chars ≠ [] ∧ (∀ c ∈ chars, c.isDigit) ∧ Nat.ofDigitChars 10 chars 0 = position ∧ position < 2 ^ 64

section

variable (unit? : Char → Char → Char → Char → Option Text.CodeUnit)

def QuotedSpelled (text : String) (chars : List Char) : Prop :=
  ∃ pieces body, Row (Piece.Spelled unit?) pieces body ∧ chars = '"' :: body ++ ['"'] ∧
    text = String.ofList (Piece.decode pieces)

inductive NameSpelled : String → List Char → Prop where
  | plain {name : String} (hname : name ≠ "") (hchars : ∀ c ∈ name.toList, isNameChar c) :
      NameSpelled name name.toList
  | quoted {name : String} {chars : List Char} (hname : QuotedSpelled unit? name chars) :
      NameSpelled name chars

end

end Path

inductive Step.Spelled (unit? : Char → Char → Char → Char → Option Text.CodeUnit) :
    Step → List Char → Prop where
  | field {name : String} {chars : List Char} (hname : Path.NameSpelled unit? name chars) :
      Spelled unit? (.field name) ('.' :: chars)
  | index {position : Nat} {chars : List Char} (hposition : Path.PositionSpelled position chars) :
      Spelled unit? (.index position) ('[' :: chars ++ [']'])
  | indices {positions : List Nat} {chars : List Char} (hplural : 2 ≤ positions.length)
      (hpositions : Path.Separated Path.PositionSpelled positions chars) :
      Spelled unit? (.indices positions) ('[' :: chars ++ [']'])
  | elements : Spelled unit? .elements ['[', '*', ']']
  | values : Spelled unit? .values ['\x7b', '*', '\x7d']
  | names : Spelled unit? .names ['\x7b', '*', ':', '\x7d']
  | key {text : String} {chars : List Char} (htext : Path.QuotedSpelled unit? text chars) :
      Spelled unit? (.key text) ('\x7b' :: chars ++ ['\x7d'])
  | keys {texts : List String} {chars : List Char} (hplural : 2 ≤ texts.length)
      (htexts : Path.Separated (Path.QuotedSpelled unit?) texts chars) :
      Spelled unit? (.keys texts) ('\x7b' :: chars ++ ['\x7d'])

namespace Path

/-- How a path is written: as its steps, and the root also as a single point. -/
def Spelled (unit? : Char → Char → Char → Char → Option Text.CodeUnit) (path : Path)
    (chars : List Char) : Prop :=
  Row (Step.Spelled unit?) path chars ∨ path = root ∧ chars = ['.']
/-! ### What may spell a unit -/

section Parts

variable {α : Type} {spelled other : α → List Char → Prop} {items : List α} {chars : List Char}

theorem Row.mono (hchars : Row spelled items chars)
    (hpart : ∀ item part, part <:+: chars → spelled item part → other item part) :
    Row other items chars := by
  induction hchars with
  | nil => exact .nil
  | cons hitem _ ih =>
      exact .cons (hpart _ _ (List.prefix_append _ _).isInfix hitem) (ih fun item part hwithin =>
        hpart item part (hwithin.trans (List.suffix_append _ _).isInfix))

theorem Separated.mono (hchars : Separated spelled items chars)
    (hpart : ∀ item part, part <:+: chars → spelled item part → other item part) :
    Separated other items chars := by
  induction hchars with
  | last hitem => exact .last (hpart _ _ List.infix_rfl hitem)
  | @cons item items front rest hitem _ ih =>
      have hsuffix : rest <:+ front ++ ',' :: rest :=
        (List.suffix_cons ',' rest).trans (List.suffix_append front _)
      exact .cons (hpart _ _ (List.prefix_append _ _).isInfix hitem) (ih fun item part hwithin =>
        hpart item part (hwithin.trans hsuffix.isInfix))

theorem Separated.ne_nil (hchars : Separated spelled items chars) : items ≠ [] := by
  cases hchars <;> exact List.cons_ne_nil _ _

theorem Separated.exists_front (hchars : Separated spelled items chars) :
    ∃ item front rest, spelled item front ∧ chars = front ++ rest := by
  cases hchars with
  | last hitem => exact ⟨_, _, [], hitem, (List.append_nil _).symm⟩
  | cons hitem _ => exact ⟨_, _, _, hitem, rfl⟩

end Parts

section Units

variable {unit? other? : Char → Char → Char → Char → Option Text.CodeUnit} {chars part : List Char}

/-- What spells a unit behind `\u` in the characters, spells it in the other way too. -/
def UnitsWithin (unit? other? : Char → Char → Char → Char → Option Text.CodeUnit)
    (chars : List Char) : Prop :=
  ∀ a b c d unit, ['\\', 'u', a, b, c, d] <:+: chars → unit? a b c d = some unit →
    other? a b c d = some unit

theorem UnitsWithin.of_part (hunits : UnitsWithin unit? other? chars) (hpart : part <:+: chars) :
    UnitsWithin unit? other? part :=
  fun a b c d unit hunit => hunits a b c d unit (hunit.trans hpart)

theorem Piece.Spelled.mono {piece : Piece} (hunits : UnitsWithin unit? other? chars)
    (hpiece : piece.Spelled unit? chars) : piece.Spelled other? chars := by
  cases hpiece with
  | plain hquote hbackslash => exact .plain hquote hbackslash
  | letter hletter => exact .letter hletter
  | unit hunit => exact .unit (hunits _ _ _ _ _ List.infix_rfl hunit)

theorem QuotedSpelled.mono {text : String} (hunits : UnitsWithin unit? other? chars)
    (htext : QuotedSpelled unit? text chars) : QuotedSpelled other? text chars := by
  obtain ⟨pieces, body, hbody, rfl, rfl⟩ := htext
  have hwithin : body <:+: '"' :: body ++ ['"'] := ⟨['"'], ['"'], rfl⟩
  exact ⟨pieces, body, hbody.mono fun piece part hpart =>
    Piece.Spelled.mono (hunits.of_part (hpart.trans hwithin)), rfl, rfl⟩

theorem NameSpelled.mono {name : String} (hunits : UnitsWithin unit? other? chars)
    (hname : NameSpelled unit? name chars) : NameSpelled other? name chars := by
  cases hname with
  | plain hname hchars => exact .plain hname hchars
  | quoted hname => exact .quoted (hname.mono hunits)

end Units

end Path

theorem Step.Spelled.mono {unit? other? : Char → Char → Char → Char → Option Text.CodeUnit}
    {step : Step} {chars : List Char} (hunits : Path.UnitsWithin unit? other? chars)
    (hstep : step.Spelled unit? chars) : step.Spelled other? chars := by
  cases hstep with
  | field hname => exact .field (hname.mono (hunits.of_part (List.suffix_cons _ _).isInfix))
  | index hposition => exact .index hposition
  | indices hplural hpositions => exact .indices hplural hpositions
  | elements => exact .elements
  | values => exact .values
  | names => exact .names
  | key htext => exact .key (htext.mono (hunits.of_part ⟨['\x7b'], ['\x7d'], rfl⟩))
  | keys hplural htexts =>
      refine .keys hplural (htexts.mono fun text part hpart htext => htext.mono (hunits.of_part ?_))
      exact hpart.trans ⟨['\x7b'], ['\x7d'], rfl⟩

namespace Path

/-- The grammar grows with what may spell a unit. -/
theorem Spelled.mono {unit? other? : Char → Char → Char → Char → Option Text.CodeUnit} {path : Path}
    {chars : List Char} (hunits : UnitsWithin unit? other? chars) (hpath : path.Spelled unit? chars) :
    path.Spelled other? chars :=
  hpath.imp_left fun hsteps => hsteps.mono fun _ _ hpart => Step.Spelled.mono (hunits.of_part hpart)

end Path

end JsonEdit
