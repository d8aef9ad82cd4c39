import JsonEdit.Json.Basic
import JsonEdit.Json.Quoted
import JsonEdit.Number.Reader

/-!
# Lexemes

Between blanks, a JSON text consists of brackets, braces, colons, commas, words, numbers and strings.
A word, number or string that breaks off is a lexeme too, with the place where it does: whether that
is what is wrong with the text depends on whether such a lexeme may stand there at all.
-/

namespace JsonEdit

inductive Token where
  | openList
  | closeList
  | openObject
  | closeObject
  | colon
  | comma
  | word (read : Except Stop Json)
  | number (read : Except Stop Number)
  | string (read : Except Stop String)
  /-- a character that begins no lexeme -/
  | other

/-- A token and the characters of the text from its first one on. -/
structure Lexeme where
  token : Token
  start : List Char

namespace Lexeme

def isBlank (c : Char) : Bool := c = ' ' || c = '\t' || c = '\n' || c = '\r'

def punctuation? : Char → Option Token
  | '[' => some .openList
  | ']' => some .closeList
  | '\x7b' => some .openObject
  | '\x7d' => some .closeObject
  | ':' => some .colon
  | ',' => some .comma
  | _ => none

/-- The value of the word that begins with a character, and the rest of the word. -/
def word? : Char → Option (Json × List Char)
  | 'n' => some (.null, ['u', 'l', 'l'])
  | 't' => some (.bool true, ['r', 'u', 'e'])
  | 'f' => some (.bool false, ['a', 'l', 's', 'e'])
  | _ => none

def readWord : (word chars : List Char) → Except Stop (List Char)
  | [], chars => .ok chars
  | _ :: _, [] => .error ⟨.endInValue, [], 0⟩
  | letter :: letters, c :: rest =>
    if c = letter then readWord letters rest else .error ⟨.expectedWord, c :: rest, 1⟩

def ofRead {α : Type} (start : List Char) (token : Except Stop α → Token) :
    Except Stop (α × List Char) → Lexeme × List Char
  | .error stop => (⟨token (.error stop), start⟩, [])
  | .ok (value, rest) => (⟨token (.ok value), start⟩, rest)

def beginning (lone : Json.LoneSurrogate) (c : Char) (rest : List Char) : Lexeme × List Char :=
  match punctuation? c with
  | some token => (⟨token, c :: rest⟩, rest)
  | none =>
    if c = '"' then ofRead (c :: rest) .string (Json.readString lone [] none rest)
    else if c = '-' || c.isDigit then ofRead (c :: rest) .number (Number.read (c :: rest))
    else
      match word? c with
      | some (value, letters) =>
        ofRead (c :: rest) .word ((readWord letters rest).map fun after => (value, after))
      | none => (⟨.other, c :: rest⟩, [])

def next? (lone : Json.LoneSurrogate) : List Char → Option (Lexeme × List Char)
  | [] => none
  | c :: rest => if isBlank c then next? lone rest else some (beginning lone c rest)

/-! ### Lexemes have characters -/

theorem length_of_readWord {letters chars rest : List Char}
    (hread : readWord letters chars = .ok rest) : rest.length ≤ chars.length := by
  fun_induction readWord letters chars with
  | case1 chars =>
      cases hread
      exact Nat.le_refl _
  | case2 => cases hread
  | case3 letters c after ih =>
      have hle := ih hread
      rw [List.length_cons]
      omega
  | case4 => cases hread

/-- A reader that leaves fewer characters than a bound leaves fewer behind the lexeme too. -/
theorem length_ofRead_lt {α : Type} (start : List Char) (token : Except Stop α → Token)
    {read : Except Stop (α × List Char)} {bound : Nat} (hbound : 0 < bound)
    (hshorter : ∀ value after, read = .ok (value, after) → after.length < bound) :
    (ofRead start token read).2.length < bound := by
  cases read with
  | error stop => exact hbound
  | ok pair => exact hshorter pair.1 pair.2 rfl

theorem length_beginning (lone : Json.LoneSurrogate) (c : Char) (rest : List Char) :
    (beginning lone c rest).2.length < (c :: rest).length := by
  have hpositive : 0 < (c :: rest).length := Nat.zero_lt_succ _
  unfold beginning
  split
  · exact Nat.lt_succ_self _
  · split
    · apply length_ofRead_lt _ _ hpositive
      intro text after hread
      exact Nat.lt_succ_of_lt (Json.length_of_readString hread)
    · split
      · apply length_ofRead_lt _ _ hpositive
        intro number after hread
        exact Number.length_of_read hread
      · split
        · rename_i value letters hword
          apply length_ofRead_lt _ _ hpositive
          intro word after hread
          cases hletters : readWord letters rest with
          | error stop =>
              rw [hletters] at hread
              cases hread
          | ok tail =>
              rw [hletters] at hread
              cases hread
              exact Nat.lt_succ_of_le (length_of_readWord hletters)
        · exact hpositive

theorem length_of_next? {lone : Json.LoneSurrogate} {chars rest : List Char} {lexeme : Lexeme}
    (hnext : next? lone chars = some (lexeme, rest)) : rest.length < chars.length := by
  induction chars with
  | nil => cases hnext
  | cons c tail ih =>
      unfold next? at hnext
      split at hnext
      · exact Nat.lt_succ_of_lt (ih hnext)
      · have hlt := length_beginning lone c tail
        rwa [Option.some.inj hnext] at hlt

end Lexeme

end JsonEdit
