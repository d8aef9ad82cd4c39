import JsonEdit.Json.Entries
import JsonEdit.Number.Basic

/-!
# Trees

A tree is a JSON value. Numbers are kept as they are written, and the entries of an object keep their
order and may repeat a key.
-/

namespace JsonEdit

inductive Json where
  | null
  | bool (value : Bool)
  | number (value : Number)
  | string (value : String)
  | array (items : List Json)
  | object (entries : List (String × Json))
  deriving Inhabited

namespace Json

/-- The kinds of values, in ascending order. -/
inductive Kind where
  | null
  | boolean
  | number
  | string
  | array
  | object
  deriving DecidableEq, Ord

def Kind.name : Kind → String
  | .null => "null"
  | .boolean => "boolean"
  | .number => "number"
  | .string => "string"
  | .array => "array"
  | .object => "object"

def kind : Json → Kind
  | .null => .null
  | .bool _ => .boolean
  | .number _ => .number
  | .string _ => .string
  | .array _ => .array
  | .object _ => .object

def isNull : Json → Bool
  | .null => true
  | _ => false

def isContainer : Json → Bool
  | .array _ | .object _ => true
  | _ => false

/-- The value is an array without elements or an object without entries. -/
def isEmptyContainer : Json → Bool
  | .array items => items.isEmpty
  | .object entries => entries.isEmpty
  | _ => false

def narrow? (kind : Kind) (value : Json) : Option Json :=
  if value.kind = kind then some value else none

def bool? : Json → Option Bool
  | .bool value => some value
  | _ => none

def number? : Json → Option Number
  | .number value => some value
  | _ => none

def string? : Json → Option String
  | .string value => some value
  | _ => none

def items? : Json → Option (List Json)
  | .array items => some items
  | _ => none

def entries? : Json → Option (Entries Json)
  | .object entries => some entries
  | _ => none

/-- The value of the first entry of an object with this key. -/
def field? (key : String) (value : Json) : Option Json := value.entries?.bind (Entries.find? key)

def element? (position : Nat) (value : Json) : Option Json := value.items?.bind (·[position]?)

end Json

end JsonEdit
