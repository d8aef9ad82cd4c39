import JsonEdit.Json.Problem
import JsonEdit.Text.Surrogate

/-!
# Reading a string

A string is read after its opening quote. The usual letters stand for controls, and `u` with four
hexadecimal digits for a unit of UTF-16. Two such escapes in a row may spell one character as a high
and a low surrogate. A surrogate escape without its partner is either refused or read as U+FFFD.
-/

namespace JsonEdit.Json

/-- What becomes of a surrogate escape without its partner. -/
inductive LoneSurrogate where
  | refused
  | replaced
  deriving DecidableEq

def escaped? : Char → Option Char
  | '"' => some '"'
  | '\\' => some '\\'
  | '/' => some '/'
  | 'b' => some '\x08'
  | 'f' => some '\x0c'
  | 'n' => some '\n'
  | 'r' => some '\r'
  | 't' => some '\t'
  | _ => none

/-- What stands after the `u` of an escape is not four hexadecimal digits. -/
def badUnit (rest : List Char) : Stop :=
  if Text.byteCount (rest.take 4) < 4 then ⟨.endInString, [], 0⟩ else ⟨.invalidEscape, rest, 4⟩

/-- The characters read so far, with U+FFFD for a high surrogate that found no partner. -/
def settle (read : List Char) : Option Text.CodeUnit → List Char
  | none => read
  | some _ => Text.replacement :: read

/-- Reads a string after its opening quote. `read` holds the characters so far, last first; `high` is
the high surrogate whose escape has just been read. -/
def readString (lone : LoneSurrogate) (read : List Char) (high : Option Text.CodeUnit) :
    List Char → Except Stop (String × List Char)
  | [] => .error ⟨.endInString, [], 0⟩
  | '\\' :: 'u' :: a :: b :: c :: d :: rest =>
    match Text.codeUnit? a b c d with
    | none => .error (badUnit (a :: b :: c :: d :: rest))
    | some unit =>
      match high with
      | some first =>
        if Text.CodeUnit.isLow unit then
          readString lone (Text.CodeUnit.pair first unit :: read) none rest
        else if lone = .refused then .error ⟨.loneSurrogate, a :: b :: c :: d :: rest, 4⟩
        else if Text.CodeUnit.isHigh unit then
          readString lone (Text.replacement :: read) (some unit) rest
        else readString lone (Text.CodeUnit.single unit :: Text.replacement :: read) none rest
      | none =>
        if Text.CodeUnit.isHigh unit then readString lone read (some unit) rest
        else if Text.CodeUnit.isLow unit && lone = .refused then
          .error ⟨.loneSurrogate, a :: b :: c :: d :: rest, 4⟩
        else readString lone (Text.CodeUnit.single unit :: read) none rest
  | '\\' :: 'u' :: rest => .error (badUnit rest)
  | '\\' :: letter :: rest =>
    if high.isSome && lone = .refused then .error ⟨.unfinishedPair, letter :: rest, 1⟩
    else
      match escaped? letter with
      | some c => readString lone (c :: settle read high) none rest
      | none => .error ⟨.invalidEscape, letter :: rest, 1⟩
  | ['\\'] => .error ⟨.endInString, [], 0⟩
  | c :: rest =>
    if high.isSome && lone = .refused then .error ⟨.unfinishedPair, c :: rest, 1⟩
    else if c = '"' then .ok (String.ofList (settle read high).reverse, rest)
    else if c.toNat < 0x20 then .error ⟨.controlCharacter, c :: rest, 1⟩
    else readString lone (c :: settle read high) none rest

theorem length_of_readString {lone : LoneSurrogate} {sofar : List Char}
    {high : Option Text.CodeUnit} {chars : List Char} {text : String} {rest : List Char}
    (hread : readString lone sofar high chars = .ok (text, rest)) :
    rest.length < chars.length := by
  fun_induction readString lone sofar high chars <;> simp_all <;> omega

end JsonEdit.Json
