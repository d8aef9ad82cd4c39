import JsonEdit.Fault
import JsonEdit.Json.Reader
import JsonEdit.Number.Float
import JsonEdit.Text.Utf8

/-!
# Values from texts and floats

A text is read as a tree, a number or a path, and a float is written as a number. What cannot be done
is a fault at the root.
-/

namespace JsonEdit

def Json.ofText (text : String) : Except Fault Json :=
  (Json.parse text).mapError fun error => ⟨.unreadable error, []⟩

/-- The tree that bytes are read as, with U+FFFD for what is not well formed. -/
def Json.ofBytes (bytes : List UInt8) : Except Fault Json := Json.ofText (Text.Utf8.decode bytes)

def Path.ofText (text : String) : Except Fault Path :=
  (Path.parse text).mapError fun error => ⟨.invalidPath error, []⟩

def Number.ofText (text : String) : Except Fault Number :=
  match Number.parse? text with
  | some number => .ok number
  | none => .error ⟨.invalidNumber text, []⟩

def Number.ofFloat (value : Float) : Except Fault Number :=
  match Number.ofFloat? value with
  | some number => .ok number
  | none => .error ⟨.notFiniteNumber (Number.nonFiniteText value), []⟩

/-- The number that writes a float; null if there is none. -/
def Json.ofFloat (value : Float) : Json := ((Number.ofFloat? value).map Json.number).getD .null

end JsonEdit
