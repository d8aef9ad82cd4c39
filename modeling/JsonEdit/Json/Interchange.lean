import JsonEdit.Json.Conversion
import JsonEdit.Json.Printer

/-!
# The interchange model

Other programs exchange trees in which no key is repeated and a number is a text that nobody has
checked. A tree loses repeated keys on the way there, and its exponents take their normal form. On the
way back a text that is not a number is a fault at its place, or becomes null where no fault can be
reported.
-/

namespace JsonEdit

inductive Interchange where
  | null
  | bool (value : Bool)
  | number (text : String)
  | string (value : String)
  | array (items : List Interchange)
  | object (entries : List (String × Interchange))

namespace Json

mutual

def toInterchange : Json → Interchange
  | .null => .null
  | .bool value => .bool value
  | .number value => .number value.normal.text
  | .string value => .string value
  | .array items => .array (toInterchangeItems items)
  | .object entries => .object (Entries.firsts (toInterchangeEntries entries))

def toInterchangeItems : List Json → List Interchange
  | [] => []
  | item :: rest => item.toInterchange :: toInterchangeItems rest

def toInterchangeEntries : List (String × Json) → List (String × Interchange)
  | [] => []
  | (key, value) :: rest => (key, value.toInterchange) :: toInterchangeEntries rest

end

end Json

namespace Interchange

mutual

def toJson : Interchange → Except Fault Json
  | .null => .ok .null
  | .bool value => .ok (.bool value)
  | .number text => (Number.ofText text).map .number
  | .string value => .ok (.string value)
  | .array items => (toJsonItems 0 items).map .array
  | .object entries => (toJsonEntries entries).map .object

def toJsonItems (position : Nat) : List Interchange → Except Fault (List Json)
  | [] => .ok []
  | item :: rest =>
    match item.toJson with
    | .error fault => .error (fault.within (.index position))
    | .ok value => (toJsonItems (position + 1) rest).map (value :: ·)

def toJsonEntries : List (String × Interchange) → Except Fault (List (String × Json))
  | [] => .ok []
  | (key, item) :: rest =>
    match item.toJson with
    | .error fault => .error (fault.within (.field key))
    | .ok value => (toJsonEntries rest).map ((key, value) :: ·)

end

mutual

/-- The tree of an interchange form, with null for a text that is not a number. -/
def toJsonOrNull : Interchange → Json
  | .null => .null
  | .bool value => .bool value
  | .number text => ((Number.parse? text).map Json.number).getD .null
  | .string value => .string value
  | .array items => .array (toJsonOrNullItems items)
  | .object entries => .object (toJsonOrNullEntries entries)

def toJsonOrNullItems : List Interchange → List Json
  | [] => []
  | item :: rest => item.toJsonOrNull :: toJsonOrNullItems rest

def toJsonOrNullEntries : List (String × Interchange) → List (String × Json)
  | [] => []
  | (key, item) :: rest => (key, item.toJsonOrNull) :: toJsonOrNullEntries rest

end

mutual

def chars : Interchange → List Char
  | .null => ['n', 'u', 'l', 'l']
  | .bool true => ['t', 'r', 'u', 'e']
  | .bool false => ['f', 'a', 'l', 's', 'e']
  | .number text => text.toList
  | .string value => Json.quoted value
  | .array items => Json.bracketed .compact 0 '[' ']' (itemsChars items)
  | .object entries => Json.bracketed .compact 0 '\x7b' '\x7d' (entriesChars entries)

def itemsChars : List Interchange → List Char
  | [] => []
  | item :: rest => item.chars ++ (if rest.isEmpty then [] else [',']) ++ itemsChars rest

def entriesChars : List (String × Interchange) → List Char
  | [] => []
  | (key, item) :: rest =>
    Json.quoted key ++ ':' :: item.chars ++ (if rest.isEmpty then [] else [',']) ++
      entriesChars rest

end

def text (value : Interchange) : String := String.ofList value.chars

end Interchange

end JsonEdit
