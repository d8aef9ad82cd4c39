import JsonEdit.Text.Alphanumeric

/-!
# Plain names

A field name stands in a path without quotes when it is not empty and holds only letters, digits and
the characters `_`, `$` and `-`.
-/

namespace JsonEdit.Path

def isNameChar (c : Char) : Bool :=
  Text.isAlphanumeric c || c = '_' || c = '$' || c = '-'

def isPlainName (name : String) : Bool :=
  !name.isEmpty && name.toList.all isNameChar

end JsonEdit.Path
