import JsonEdit.Json.Locate
import JsonEdit.Json.Schema

/-!
# Selections

A selection is the values that a query found, in order, or the fault that it ended with. A fault goes
through every further step untouched.
-/

namespace JsonEdit

/-- Values in order, or a fault. -/
structure Selection where
  values : Except Fault (List Json)

namespace Selection

def ofList (values : List Json) : Selection := ⟨.ok values⟩

def failed (fault : Fault) : Selection := ⟨.error fault⟩

def empty : Selection := ofList []

/-! ### State -/

def isSuccess (selection : Selection) : Bool := selection.values.isOk

def fault? (selection : Selection) : Option Fault :=
  match selection.values with
  | .ok _ => none
  | .error fault => some fault

/-- The values; none if there is a fault. -/
def toList (selection : Selection) : List Json := selection.values.toOption.getD []

def size (selection : Selection) : Nat := selection.toList.length

def isEmpty (selection : Selection) : Bool := selection.isSuccess && selection.toList.isEmpty

/-! ### Taking values out -/

def one (selection : Selection) : Except Fault Json :=
  match selection.values with
  | .ok [value] => .ok value
  | .ok values => .error ⟨.notExactlyOne values.length, []⟩
  | .error fault => .error fault

def any (selection : Selection) : Except Fault Json :=
  match selection.values with
  | .ok (value :: _) => .ok value
  | .ok [] => .error ⟨.noneFound, []⟩
  | .error fault => .error fault

/-- The only value, or else an array of the values. -/
def all (selection : Selection) : Except Fault Json :=
  selection.values.map fun
    | [value] => value
    | values => .array values

def toArray (selection : Selection) : Except Fault Json := selection.values.map .array

def decode (schema : Schema) (selection : Selection) : Except Fault schema.Value :=
  selection.one.bind schema.decode

/-- All values, decoded. A fault is reported at the position of its value. -/
def decodeAll (schema : Schema) (selection : Selection) : Except Fault (List schema.Value) :=
  selection.values.bind (Schema.decodeItems schema.decode 0)

def fold {β : Type} (step : β → Json → β) (start : β) (selection : Selection) : Except Fault β :=
  selection.values.map (·.foldl step start)

/-! ### Further steps -/

def map (image : Json → Json) (selection : Selection) : Selection :=
  ⟨selection.values.map (·.map image)⟩

def filter (chosen : Json → Bool) (selection : Selection) : Selection :=
  ⟨selection.values.map (·.filter chosen)⟩

def filterMap (image : Json → Option Json) (selection : Selection) : Selection :=
  ⟨selection.values.map (·.filterMap image)⟩

/-- The selections of all values in a row; the first fault ends it. -/
def flatMap (next : Json → Selection) (selection : Selection) : Selection :=
  ⟨do
    let values ← selection.values
    return (← values.mapM fun value => (next value).values).flatten⟩

def ofKind (kind : Json.Kind) (selection : Selection) : Selection :=
  selection.filter fun value => value.kind = kind

def get (path : Path) (selection : Selection) : Selection :=
  selection.flatMap fun value => ofList (value.get path)

/-- The values of both selections; two faults become one. -/
def append (first second : Selection) : Selection :=
  match first.values, second.values with
  | .ok front, .ok back => ofList (front ++ back)
  | .error fault, .error other => failed (fault.and other)
  | .error fault, .ok _ => failed fault
  | .ok _, .error fault => failed fault

/-- The other selection if this one ended with a fault. -/
def orElse (first second : Selection) : Selection := if first.isSuccess then first else second

end Selection

end JsonEdit
