import JsonEdit.Text.Position

/-!
# What is wrong with a text

A reader of JSON text stops at the first byte that cannot stand where it stands, or at the end of the
text. It hands back the characters from some place on and the number of their bytes up to and
including the offending one. Relative to the whole text that is a line and a column.
-/

namespace JsonEdit

inductive Problem where
  | endInValue
  | endInList
  | endInObject
  | endInString
  | expectedValue
  | expectedWord
  | expectedColon
  | expectedListEnd
  | expectedObjectEnd
  | trailingComma
  | keyNotString
  | invalidNumber
  | invalidEscape
  | controlCharacter
  | trailingCharacters
  | tooDeep
  | loneSurrogate
  | unfinishedPair
  /-- a value stands where the text of a number is due -/
  | expectedNumberText (found : String)
  deriving DecidableEq

def Problem.message : Problem → String
  | .endInValue => "EOF while parsing a value"
  | .endInList => "EOF while parsing a list"
  | .endInObject => "EOF while parsing an object"
  | .endInString => "EOF while parsing a string"
  | .expectedValue => "expected value"
  | .expectedWord => "expected ident"
  | .expectedColon => "expected `:`"
  | .expectedListEnd => "expected `,` or `]`"
  | .expectedObjectEnd => "expected `,` or `\x7d`"
  | .trailingComma => "trailing comma"
  | .keyNotString => "key must be a string"
  | .invalidNumber => "invalid number"
  | .invalidEscape => "invalid escape"
  | .controlCharacter => "control character (\\u0000-\\u001F) found while parsing a string"
  | .trailingCharacters => "trailing characters"
  | .tooDeep => "recursion limit exceeded"
  | .loneSurrogate => "lone leading surrogate in hex escape"
  | .unfinishedPair => "unexpected end of hex escape"
  | .expectedNumberText found =>
    "invalid type: " ++ found ++ ", expected string containing a number"

/-- A reader stopped after the first `bytes` bytes of the characters `rest`. -/
structure Stop where
  problem : Problem
  rest : List Char
  bytes : Nat

namespace Stop

/-- The first of the characters cannot stand here; if there is none, the text ended too early. -/
def here (atEnd otherwise : Problem) : List Char → Stop
  | [] => ⟨atEnd, [], 0⟩
  | rest => ⟨otherwise, rest, 1⟩

end Stop

structure ReadError where
  problem : Problem
  position : Text.Position
  deriving DecidableEq

namespace ReadError

def ofStop (text : List Char) (stop : Stop) : ReadError :=
  ⟨stop.problem, .ofByteCount text (Text.byteCount text - Text.byteCount stop.rest + stop.bytes)⟩

def message (error : ReadError) : String :=
  s!"{error.problem.message} at line {error.position.line} column {error.position.column}"

end ReadError

end JsonEdit
