import JsonEdit.Json.Conversion
import JsonEdit.Number.Decimal

/-!
# Typed values

A schema says which values are expected and how they stand in a tree. Null stands for an absent
optional value, an array for a list and an object for a map. A float that is not finite is written as
null, and an integer has to fit its kind. A fault in an element or entry is reported at its place.
-/

namespace JsonEdit

/-- A type of values that have a form as trees. -/
inductive Schema where
  | bool
  | string
  | number
  | decimal
  | float
  | json
  | integer (kind : IntegerKind)
  | option (of : Schema)
  | list (of : Schema)
  /-- values by key -/
  | map (of : Schema)

namespace Schema

abbrev Value : Schema → Type
  | .bool => Bool
  | .string => String
  | .number => Number
  | .decimal => Decimal
  | .float => Float
  | .json => Json
  | .integer kind => kind.Value
  | .option of => Option of.Value
  | .list of => List of.Value
  | .map of => SortedEntries of.Value

def encode : (schema : Schema) → schema.Value → Json
  | .bool, value => .bool value
  | .string, value => .string value
  | .number, value => .number value
  | .decimal, value => .number value.toNumber
  | .float, value => .ofFloat value
  | .json, value => value
  | .integer _, value => .number (.ofInt value.val)
  | .option _, none => .null
  | .option of, some value => of.encode value
  | .list of, values => .array (values.map of.encode)
  | .map of, values => .object (values.entries.map fun (key, value) => (key, of.encode value))

def mismatch {α : Type} (expected : Json.Kind) (found : Json) : Except Fault α :=
  .error ⟨.expectedKind expected found.kind, []⟩

def numberIn : Json → Except Fault Number
  | .number value => .ok value
  | other => mismatch .number other

def decodeItems {α : Type} (decode : Json → Except Fault α) (position : Nat) :
    List Json → Except Fault (List α)
  | [] => .ok []
  | item :: rest =>
    match decode item with
    | .error fault => .error (fault.within (.index position))
    | .ok value => (decodeItems decode (position + 1) rest).map (value :: ·)

def decodeEntries {α : Type} (decode : Json → Except Fault α) :
    Entries Json → Except Fault (Entries α)
  | [] => .ok []
  | (key, value) :: rest =>
    match decode value with
    | .error fault => .error (fault.within (.field key))
    | .ok decoded => (decodeEntries decode rest).map ((key, decoded) :: ·)

def decode : (schema : Schema) → Json → Except Fault schema.Value
  | .bool, tree =>
    match tree with
    | .bool value => .ok value
    | other => mismatch .boolean other
  | .string, tree =>
    match tree with
    | .string value => .ok value
    | other => mismatch .string other
  | .number, tree => numberIn tree
  | .decimal, tree =>
    (numberIn tree).bind fun number =>
      match number.decimal? with
      | some value => .ok value
      | none => .error ⟨.beyondDecimal number, []⟩
  | .float, tree => (numberIn tree).map Number.toFloat
  | .json, tree => .ok tree
  | .integer kind, tree =>
    (numberIn tree).bind fun number =>
      match number.integerOf? kind with
      | some value => .ok value
      | none => .error ⟨.doesNotFit number kind.name, []⟩
  | .option of, tree =>
    match tree with
    | .null => .ok none
    | other => (of.decode other).map some
  | .list of, tree =>
    match tree with
    | .array items => decodeItems of.decode 0 items
    | other => mismatch .array other
  | .map of, tree =>
    match tree with
    | .object entries =>
      (decodeEntries of.decode (Entries.firsts entries)).map SortedEntries.ofEntries
    | other => mismatch .object other

end Schema

end JsonEdit
