import JsonEdit.Number.Integer

/-!
# Typed keys

The keys of an object are strings. A program may use integers, single characters or booleans as keys;
each such key has exactly one text, and a text that is not the text of a key is not read as one.
-/

namespace JsonEdit

/-- A type whose values serve as object keys. -/
class ObjectKey (α : Type) where
  /-- the text of a key -/
  text : α → String
  /-- the key that has this text -/
  ofText? : String → Option α

namespace ObjectKey

def natOfDigits? (digits : List Char) : Option Nat :=
  if digits.isEmpty || !digits.all Char.isDigit then none else some (Nat.ofDigitChars 10 digits 0)

def intOfChars? : List Char → Option Int
  | '-' :: digits => (natOfDigits? digits).map fun n : Nat => -(n : Int)
  | '+' :: digits => (natOfDigits? digits).map fun n : Nat => (n : Int)
  | digits => (natOfDigits? digits).map fun n : Nat => (n : Int)

def intText (n : Int) : String :=
  if n < 0 then "-" ++ String.ofList (Nat.toDigits 10 n.natAbs)
  else String.ofList (Nat.toDigits 10 n.natAbs)

instance : ObjectKey String where
  text key := key
  ofText? text := some text

instance : ObjectKey Char where
  text key := String.ofList [key]
  ofText? text :=
    match text.toList with
    | [key] => some key
    | _ => none

instance : ObjectKey Bool where
  text key := if key then "true" else "false"
  ofText? text := if text = "true" then some true else if text = "false" then some false else none

/-- Many texts are read as one integer, but an integer key has only the text that writes it, so `+1`,
`01` and `-0` are no keys. -/
instance (kind : IntegerKind) : ObjectKey kind.Value where
  text key := intText key.val
  ofText? text :=
    ((intOfChars? text.toList).bind kind.value?).filter fun key => intText key.val = text

end ObjectKey

end JsonEdit
