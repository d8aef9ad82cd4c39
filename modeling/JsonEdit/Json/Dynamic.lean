import JsonEdit.Json.Conversion
import JsonEdit.Number.Decimal

/-!
# Dynamic values

Dynamic values are shared with typed records. They know several kinds of numbers, maps with keys of
any kind, and variants. A number of a tree takes the narrowest kind that holds its value; a number
that is no integer, or too large for 64 bits, is kept as it is written. Of a repeated key only the
first occurrence is taken along.

In the other direction a map whose keys are all strings becomes an object, any other map an array of
pairs, and a variant an object with one entry.
-/

namespace JsonEdit

inductive Dynamic where
  | unit
  | boolean (value : Bool)
  | int (value : IntegerKind.i32.Value)
  | long (value : IntegerKind.i64.Value)
  | double (value : Float)
  | decimal (value : Number)
  | string (value : String)
  | sequence (items : List Dynamic)
  | record (fields : List (String × Dynamic))
  | map (entries : List (Dynamic × Dynamic))
  | variant (name : String) (value : Dynamic)

namespace Dynamic

def typeName : Dynamic → String
  | .unit => "unit"
  | .boolean _ => "boolean"
  | .int _ => "int"
  | .long _ => "long"
  | .double _ => "double"
  | .decimal _ => "big decimal"
  | .string _ => "string"
  | .sequence _ => "sequence"
  | .record _ => "record"
  | .map _ => "map"
  | .variant _ _ => "variant"

def string? : Dynamic → Option String
  | .string value => some value
  | _ => none

def ofNumber (number : Number) : Dynamic :=
  match number.integerOf? .i32 with
  | some value => .int value
  | none =>
    match number.integerOf? .i64 with
    | some value => .long value
    | none => .decimal number

mutual

def ofJson : Json → Dynamic
  | .null => .unit
  | .bool value => .boolean value
  | .number value => ofNumber value
  | .string value => .string value
  | .array items => .sequence (ofJsonItems items)
  | .object entries => .record (Entries.firsts (ofJsonEntries entries))

def ofJsonItems : List Json → List Dynamic
  | [] => []
  | item :: rest => ofJson item :: ofJsonItems rest

def ofJsonEntries : List (String × Json) → List (String × Dynamic)
  | [] => []
  | (key, value) :: rest => (key, ofJson value) :: ofJsonEntries rest

end

/-- The tree of a map, given each key as a string, if it is one, and the trees of key and value. -/
def jsonOfMap (entries : List (Option String × Json × Json)) : Json :=
  match entries.mapM fun (key, _, value) => key.map (·, value) with
  | some fields => .object fields
  | none => .array (entries.map fun (_, key, value) => .array [key, value])

mutual

def toJson : Dynamic → Json
  | .unit => .null
  | .boolean value => .bool value
  | .int value => .number (.ofInt value.val)
  | .long value => .number (.ofInt value.val)
  | .double value => .ofFloat value
  | .decimal value => .number value
  | .string value => .string value
  | .sequence items => .array (toJsonItems items)
  | .record fields => .object (toJsonFields fields)
  | .map entries => jsonOfMap (toJsonEntries entries)
  | .variant name value => .object [(name, value.toJson)]

def toJsonItems : List Dynamic → List Json
  | [] => []
  | item :: rest => item.toJson :: toJsonItems rest

def toJsonFields : List (String × Dynamic) → List (String × Json)
  | [] => []
  | (name, value) :: rest => (name, value.toJson) :: toJsonFields rest

/-- The trees of the keys and values of a map, with the keys that are strings. -/
def toJsonEntries : List (Dynamic × Dynamic) → List (Option String × Json × Json)
  | [] => []
  | (key, value) :: rest => (key.string?, key.toJson, value.toJson) :: toJsonEntries rest

end

end Dynamic

end JsonEdit
