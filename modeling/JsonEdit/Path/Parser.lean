import JsonEdit.Number.Power
import JsonEdit.Path.Printer
import JsonEdit.Text.Position
import JsonEdit.Text.Quoted
import JsonEdit.Text.Surrogate

/-!
# Reading a path

The text of a path is read step by step. Each reader takes the characters that are left and returns
what it read with the characters after it. A reader that stops returns the characters from the place
where it stopped; the offset of an error is the number of bytes before that place.

Quoted names use the escapes of JSON. A surrogate escape without its partner is read as U+FFFD.
-/

namespace JsonEdit.Path

inductive Misread where
  | unexpectedChar (found : Char)
  | unexpectedEnd
  | emptyField
  | invalidIndex
  | invalidEscape
  deriving DecidableEq

/-- Why a text is not a path, and how many bytes stand before that place. -/
structure ParseError where
  misread : Misread
  offset : Nat
  deriving DecidableEq

def ParseError.message (error : ParseError) : String :=
  let cause := match error.misread with
    | .unexpectedChar found => s!"unexpected character {Text.quotedSingle found}"
    | .unexpectedEnd => "unexpected end of path"
    | .emptyField => "empty field name"
    | .invalidIndex => "invalid index"
    | .invalidEscape => "invalid escape sequence"
  s!"{cause} at offset {error.offset}"

structure Stop where
  misread : Misread
  rest : List Char

abbrev Read (α : Type) := Except Stop (α × List Char)

def unexpected : List Char → Stop
  | [] => ⟨.unexpectedEnd, []⟩
  | found :: rest => ⟨.unexpectedChar found, found :: rest⟩

def expect (wanted : Char) (chars : List Char) : Except Stop (List Char) :=
  match chars with
  | [] => .error (unexpected [])
  | found :: rest => if found = wanted then .ok rest else .error (unexpected (found :: rest))

def escaped? : Char → Option Char
  | '"' => some '"'
  | '\\' => some '\\'
  | '/' => some '/'
  | 'b' => some '\x08'
  | 'f' => some '\x0c'
  | 'n' => some '\n'
  | 'r' => some '\r'
  | 't' => some '\t'
  | _ => none

/-- The unit of four hexadecimal digits; a plus sign may stand in place of the first. -/
def escapedUnit? (a b c d : Char) : Option Text.CodeUnit :=
  Text.codeUnit? (if a = '+' then '0' else a) b c d

/-- Reads a quoted name after its opening quote. `read` holds the characters so far, last first. -/
def readQuotedBody (read : List Char) : List Char → Read String
  | [] => .error ⟨.unexpectedEnd, []⟩
  | '"' :: rest => .ok (String.ofList read.reverse, rest)
  | '\\' :: 'u' :: a :: b :: c :: d :: rest =>
    let here := '\\' :: 'u' :: a :: b :: c :: d :: rest
    match escapedUnit? a b c d with
    | none => .error ⟨.invalidEscape, here⟩
    | some unit =>
      if Text.CodeUnit.isHigh unit then
        match rest with
        | '\\' :: 'u' :: e :: f :: g :: h :: more =>
          match escapedUnit? e f g h with
          | none => .error ⟨.invalidEscape, here⟩
          | some second =>
            if Text.CodeUnit.isLow second then
              readQuotedBody (Text.CodeUnit.pair unit second :: read) more
            else readQuotedBody (Text.replacement :: read) ('\\' :: 'u' :: e :: f :: g :: h :: more)
        | '\\' :: 'u' :: _ => .error ⟨.invalidEscape, here⟩
        | other => readQuotedBody (Text.replacement :: read) other
      else readQuotedBody (Text.CodeUnit.single unit :: read) rest
  | '\\' :: letter :: rest =>
    match escaped? letter with
    | some c => readQuotedBody (c :: read) rest
    | none => .error ⟨.invalidEscape, '\\' :: letter :: rest⟩
  | ['\\'] => .error ⟨.invalidEscape, ['\\']⟩
  | c :: rest => readQuotedBody (c :: read) rest

def readQuoted (chars : List Char) : Read String :=
  match expect '"' chars with
  | .error stop => .error stop
  | .ok rest => readQuotedBody [] rest

def positionBound : Nat := pow2 64

def positionOfDigits (digits : List Char) : Nat :=
  digits.foldl (fun n c => n * 10 + (c.toNat - '0'.toNat)) 0

def readPosition (chars : List Char) : Read Nat :=
  let digits := chars.takeWhile Char.isDigit
  if digits.isEmpty || positionBound ≤ positionOfDigits digits then .error ⟨.invalidIndex, chars⟩
  else .ok (positionOfDigits digits, chars.dropWhile Char.isDigit)

def readName (chars : List Char) : Read String :=
  match chars with
  | '"' :: rest => readQuotedBody [] rest
  | _ =>
    let name := chars.takeWhile isNameChar
    if name.isEmpty then .error ⟨.emptyField, chars⟩
    else .ok (String.ofList name, chars.dropWhile isNameChar)

/-! ### Readers leave fewer characters -/

def Consumes {α : Type} (read : List Char → Read α) : Prop :=
  ∀ chars value rest, read chars = .ok (value, rest) → rest.length < chars.length

theorem length_of_expect {wanted : Char} {chars rest : List Char}
    (hread : expect wanted chars = .ok rest) : rest.length < chars.length := by
  unfold expect at hread
  split at hread
  · cases hread
  · split at hread
    · cases hread
      exact Nat.lt_succ_self _
    · cases hread

theorem length_of_readQuotedBody {sofar chars : List Char} {name : String} {rest : List Char}
    (hread : readQuotedBody sofar chars = .ok (name, rest)) : rest.length < chars.length := by
  fun_induction readQuotedBody sofar chars <;> simp_all <;> omega

theorem consumes_readQuoted : Consumes readQuoted := by
  intro chars name rest hread
  unfold readQuoted at hread
  split at hread
  · cases hread
  · rename_i hquote
    exact Nat.lt_trans (length_of_readQuotedBody hread) (length_of_expect hquote)

theorem length_dropWhile_of_ne_nil {p : Char → Bool} {chars : List Char}
    (hsome : (chars.takeWhile p).isEmpty = false) :
    (chars.dropWhile p).length < chars.length := by
  have hparts := congrArg List.length (List.takeWhile_append_dropWhile (p := p) (l := chars))
  have hpositive := List.length_pos_iff.mpr (List.isEmpty_eq_false_iff.mp hsome)
  rw [List.length_append] at hparts
  omega

theorem consumes_readPosition : Consumes readPosition := by
  intro chars position rest hread
  unfold readPosition at hread
  simp only at hread
  split at hread
  · cases hread
  · rename_i hdigits
    cases hread
    rw [Bool.or_eq_true, not_or, Bool.not_eq_true] at hdigits
    exact length_dropWhile_of_ne_nil hdigits.1

theorem consumes_readName : Consumes readName := by
  intro chars name rest hread
  unfold readName at hread
  split at hread
  · exact Nat.lt_succ_of_lt (length_of_readQuotedBody hread)
  · simp only at hread
    split at hread
    · cases hread
    · rename_i hname
      cases hread
      exact length_dropWhile_of_ne_nil (Bool.eq_false_iff.mpr hname)

/-! ### Steps -/

/-- Reads items with commas between them, up to the closing character. -/
def readSeparated {α : Type} (item : List Char → Read α) (consumes : Consumes item) (close : Char)
    (chars : List Char) : Read (List α) :=
  match _hread : item chars with
  | .error stop => .error stop
  | .ok (_, []) => .error (unexpected [])
  | .ok (value, next :: rest) =>
    if next = close then .ok ([value], rest)
    else if next = ',' then
      match readSeparated item consumes close rest with
      | .error stop => .error stop
      | .ok (values, after) => .ok (value :: values, after)
    else .error (unexpected (next :: rest))
  termination_by chars.length
  decreasing_by
    have hlt := consumes _ _ _ _hread
    rw [List.length_cons] at hlt
    omega

theorem consumes_readSeparated {α : Type} {item : List Char → Read α} {consumes : Consumes item}
    {close : Char} : Consumes (readSeparated item consumes close) := by
  intro chars values rest hread
  fun_induction readSeparated item consumes close chars generalizing values rest with
  | case1 | case2 | case4 | case6 => cases hread
  | case3 =>
      rename_i hitem
      cases hread
      exact Nat.lt_of_succ_lt (consumes _ _ _ hitem)
  | case5 =>
      rename_i hrest hitem hclose ih
      cases hread
      have hlt := consumes _ _ _ hitem
      have hlt' := ih _ _ hrest
      rw [List.length_cons] at hlt
      omega

/-- One position is a single step, and any other number of them a step with several. -/
def stepOfPositions : List Nat → Step
  | [position] => .index position
  | positions => .indices positions

def stepOfKeys : List String → Step
  | [text] => .key text
  | texts => .keys texts

def readBracket (chars : List Char) : Read Step :=
  match chars with
  | '*' :: rest =>
    match expect ']' rest with
    | .error stop => .error stop
    | .ok after => .ok (.elements, after)
  | _ =>
    match readSeparated readPosition consumes_readPosition ']' chars with
    | .error stop => .error stop
    | .ok (positions, after) => .ok (stepOfPositions positions, after)

def readBrace (chars : List Char) : Read Step :=
  match chars with
  | '*' :: '\x7d' :: rest => .ok (.values, rest)
  | '*' :: ':' :: rest =>
    match expect '\x7d' rest with
    | .error stop => .error stop
    | .ok after => .ok (.names, after)
  | '*' :: rest => .error (unexpected rest)
  | _ =>
    match readSeparated readQuoted consumes_readQuoted '\x7d' chars with
    | .error stop => .error stop
    | .ok (texts, after) => .ok (stepOfKeys texts, after)

def readStep (chars : List Char) : Read Step :=
  match chars with
  | '.' :: rest =>
    match readName rest with
    | .error stop => .error stop
    | .ok (name, after) => .ok (.field name, after)
  | '[' :: rest => readBracket rest
  | '\x7b' :: rest => readBrace rest
  | _ => .error (unexpected chars)

theorem consumes_readBracket : Consumes readBracket := by
  intro chars step rest hread
  unfold readBracket at hread
  split at hread
  · split at hread
    · cases hread
    · rename_i hclose
      cases hread
      exact Nat.lt_succ_of_lt (length_of_expect hclose)
  · split at hread
    · cases hread
    · rename_i hpositions
      cases hread
      exact consumes_readSeparated _ _ _ hpositions

theorem consumes_readBrace : Consumes readBrace := by
  intro chars step rest hread
  unfold readBrace at hread
  split at hread
  · cases hread
    exact Nat.lt_succ_of_lt (Nat.lt_succ_self _)
  · split at hread
    · cases hread
    · rename_i hclose
      cases hread
      exact Nat.lt_succ_of_lt (Nat.lt_succ_of_lt (length_of_expect hclose))
  · cases hread
  · split at hread
    · cases hread
    · rename_i hkeys
      cases hread
      exact consumes_readSeparated _ _ _ hkeys

theorem consumes_readStep : Consumes readStep := by
  intro chars step rest hread
  unfold readStep at hread
  split at hread
  · split at hread
    · cases hread
    · rename_i hname
      cases hread
      exact Nat.lt_succ_of_lt (consumes_readName _ _ _ hname)
  · exact Nat.lt_succ_of_lt (consumes_readBracket _ _ _ hread)
  · exact Nat.lt_succ_of_lt (consumes_readBrace _ _ _ hread)
  · cases hread

def readSteps (chars : List Char) : Except Stop Path :=
  if chars.isEmpty then .ok []
  else
    match _hread : readStep chars with
    | .error stop => .error stop
    | .ok (step, rest) =>
      match readSteps rest with
      | .error stop => .error stop
      | .ok steps => .ok (step :: steps)
  termination_by chars.length
  decreasing_by exact consumes_readStep _ _ _ _hread

/-! ### The whole text -/

/-- Reads characters as a path; a single point is the root. -/
def ofChars? (chars : List Char) : Except ParseError Path :=
  if chars = ['.'] then .ok root
  else
    match readSteps chars with
    | .ok steps => .ok steps
    | .error stop => .error ⟨stop.misread, Text.byteCount chars - Text.byteCount stop.rest⟩

def parse (text : String) : Except ParseError Path := ofChars? text.toList

end JsonEdit.Path
