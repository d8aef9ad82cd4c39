import JsonEdit.Json.Lexeme
import JsonEdit.Number.Integer

/-!
# Reading a tree

A text is read lexeme by lexeme. Between two lexemes the reader is in a state that says what may come
next and what the open lists and objects hold so far; after a complete value it goes on with the
innermost of them. At most 127 of them may be open at a time.

An entry whose key has already occurred changes the value at the first occurrence. Exponents of
numbers are brought into their normal form. An object whose first key is `numberKey` stands for the
number that the string at this key writes, and has no other entries.
-/

namespace JsonEdit

/-- Why reading stopped: at a place in the text, or at a place in the string that was to be read as a
number. -/
inductive Halt where
  | stop (stop : Stop)
  | withinNumberText (error : ReadError)

/-- A list or an object that is open around a value that is due. -/
inductive Frame where
  /-- the elements so far, last first -/
  | list (items : List Json)
  /-- the entries so far and the key of the value that is due -/
  | object (entries : Entries Json) (key : String)

inductive Reader where
  /-- a value -/
  | valueDue (frames : List Frame)
  /-- an element; the end of the list only if there is no element yet -/
  | itemDue (items : List Json) (frames : List Frame)
  /-- a comma or the end of a list -/
  | afterItem (items : List Json) (frames : List Frame)
  /-- a key; the end of the object only if there is no entry yet -/
  | keyDue (entries : Entries Json) (frames : List Frame)
  /-- a colon -/
  | colonDue (entries : Entries Json) (key : String) (frames : List Frame)
  /-- a comma or the end of an object -/
  | afterEntry (entries : Entries Json) (frames : List Frame)
  /-- a colon after the key of a number -/
  | numberColonDue (frames : List Frame)
  /-- the text of a number -/
  | numberTextDue (frames : List Frame)
  /-- the end of an object that is a number -/
  | afterNumber (number : Number) (frames : List Frame)
  /-- nothing -/
  | done (value : Json)

namespace Reader

def depthLimit : Nat := 127

/-- The key of an object that stands for a number. -/
def numberKey : String := "$serde_json::private::Number"

def complete (value : Json) : List Frame → Reader
  | [] => .done value
  | .list items :: frames => .afterItem (value :: items) frames
  | .object entries key :: frames => .afterEntry (entries.put key value) frames

def closeList (items : List Json) (frames : List Frame) : Reader :=
  complete (.array items.reverse) frames

/-- The first byte of a lexeme cannot stand where it stands. -/
def refuse {α : Type} (problem : Problem) (lexeme : Lexeme) : Except Halt α :=
  .error (.stop ⟨problem, lexeme.start, 1⟩)

def continueWith {α : Type} (next : α → Except Halt Reader) : Except Stop α → Except Halt Reader
  | .ok read => next read
  | .error stop => .error (.stop stop)

def beginValue (frames : List Frame) (lexeme : Lexeme) : Except Halt Reader :=
  match lexeme.token with
  | .openList =>
    if depthLimit ≤ frames.length then refuse .tooDeep lexeme else .ok (.itemDue [] frames)
  | .openObject =>
    if depthLimit ≤ frames.length then refuse .tooDeep lexeme else .ok (.keyDue [] frames)
  | .word read => continueWith (fun value => .ok (complete value frames)) read
  | .number read => continueWith (fun number => .ok (complete (.number number.normal) frames)) read
  | .string read => continueWith (fun text => .ok (complete (.string text) frames)) read
  | _ => refuse .expectedValue lexeme

/-- A lexeme stands where the text of a number is due. What is wrong with it is shown after it, but
before a list or an object. -/
def refuseNumberText (found : String) (lexeme : Lexeme) (length : Nat) : Except Halt Reader :=
  .error (.stop ⟨.expectedNumberText found, lexeme.start, length⟩)

/-- How a number is referred to that stands where the text of a number is due: an integer of 64 bits,
signed if it is negative, by its value, and any other number by what it is. -/
def describeNumber (number : Number) : String :=
  let positive := IntegerKind.u64.holds number.whole
  let negative := number.whole ≠ 0 && IntegerKind.i64.holds (-number.whole)
  if number.fraction.isEmpty && number.exponent.isNone &&
      (if number.negative then negative else positive) then
    "integer `" ++ number.text ++ "`"
  else "number"

def beginNumberText (frames : List Frame) (lexeme : Lexeme) : Except Halt Reader :=
  match lexeme.token with
  | .string read =>
    continueWith (fun text =>
      match Number.readAll text.toList with
      | .ok number => .ok (.afterNumber number frames)
      | .error stop => .error (.withinNumberText (.ofStop text.toList stop))) read
  | .word read =>
    continueWith (fun value =>
      match value with
      | .bool true => refuseNumberText "boolean `true`" lexeme 4
      | .bool false => refuseNumberText "boolean `false`" lexeme 5
      | _ => refuseNumberText "null" lexeme 4) read
  | .number read =>
    continueWith
      (fun number => refuseNumberText (describeNumber number) lexeme number.chars.length) read
  | .openList => refuseNumberText "sequence" lexeme 0
  | .openObject => refuseNumberText "map" lexeme 0
  | _ => refuse .expectedValue lexeme

def step (reader : Reader) (lexeme : Lexeme) : Except Halt Reader :=
  match reader with
  | .valueDue frames => beginValue frames lexeme
  | .itemDue items frames =>
    match lexeme.token with
    | .closeList =>
      if items.isEmpty then .ok (closeList [] frames) else refuse .trailingComma lexeme
    | _ => beginValue (.list items :: frames) lexeme
  | .afterItem items frames =>
    match lexeme.token with
    | .comma => .ok (.itemDue items frames)
    | .closeList => .ok (closeList items frames)
    | _ => refuse .expectedListEnd lexeme
  | .keyDue entries frames =>
    match lexeme.token with
    | .string read =>
      continueWith (fun key =>
        if entries.isEmpty && key = numberKey then .ok (.numberColonDue frames)
        else .ok (.colonDue entries key frames)) read
    | .closeObject =>
      if entries.isEmpty then .ok (complete (.object []) frames) else refuse .trailingComma lexeme
    | _ => refuse .keyNotString lexeme
  | .colonDue entries key frames =>
    match lexeme.token with
    | .colon => .ok (.valueDue (.object entries key :: frames))
    | _ => refuse .expectedColon lexeme
  | .afterEntry entries frames =>
    match lexeme.token with
    | .comma => .ok (.keyDue entries frames)
    | .closeObject => .ok (complete (.object entries) frames)
    | _ => refuse .expectedObjectEnd lexeme
  | .numberColonDue frames =>
    match lexeme.token with
    | .colon => .ok (.numberTextDue frames)
    | _ => refuse .expectedColon lexeme
  | .numberTextDue frames => beginNumberText frames lexeme
  | .afterNumber number frames =>
    match lexeme.token with
    | .closeObject => .ok (complete (.number number.normal) frames)
    | .comma => refuse .trailingComma lexeme
    | _ => refuse .trailingCharacters lexeme
  | .done _ => refuse .trailingCharacters lexeme

def finish : Reader → Except Halt Json
  | .done value => .ok value
  | .valueDue _ | .numberTextDue _ => .error (.stop ⟨.endInValue, [], 0⟩)
  | .itemDue items _ =>
    .error (.stop ⟨if items.isEmpty then .endInList else .endInValue, [], 0⟩)
  | .afterItem _ _ => .error (.stop ⟨.endInList, [], 0⟩)
  | .keyDue entries _ =>
    .error (.stop ⟨if entries.isEmpty then .endInObject else .endInValue, [], 0⟩)
  | .colonDue _ _ _ | .afterEntry _ _ | .numberColonDue _ | .afterNumber _ _ =>
    .error (.stop ⟨.endInObject, [], 0⟩)

def run (lone : Json.LoneSurrogate) (reader : Reader) (chars : List Char) : Except Halt Json :=
  match _hnext : Lexeme.next? lone chars with
  | none => reader.finish
  | some (lexeme, rest) =>
    match reader.step lexeme with
    | .error halt => .error halt
    | .ok reader => reader.run lone rest
  termination_by chars.length
  decreasing_by exact Lexeme.length_of_next? _hnext

end Reader

namespace Json

def read (lone : LoneSurrogate) (chars : List Char) : Except ReadError Json :=
  match Reader.run lone (.valueDue []) chars with
  | .ok value => .ok value
  | .error (.stop stop) => .error (.ofStop chars stop)
  | .error (.withinNumberText error) => .error error

/-- Reads a text as a tree. Surrogate escapes without a partner are read as U+FFFD. -/
def parse (text : String) : Except ReadError Json := read .replaced text.toList

/-- Reads a text as a tree. Surrogate escapes without a partner are refused. -/
def parseRefusing (text : String) : Except ReadError Json := read .refused text.toList

/-- The string that units of UTF-16 spell, with U+FFFD for each surrogate without a partner. -/
def ofUtf16 (units : List Text.CodeUnit) : Json := .string (String.ofList (Text.CodeUnit.decode units))

end Json

end JsonEdit
