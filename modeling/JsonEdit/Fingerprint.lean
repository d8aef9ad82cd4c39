/-!
# Fingerprints

The fingerprint of a value is made by a hash function, which is given the data of the value piece by
piece. The hash function is not of interest here: values with the same pieces have the same fingerprint
under each of them.
-/

namespace JsonEdit

/-- What a hash function is given at once. -/
inductive HashPiece where
  /-- the position of a kind among all kinds -/
  | kind (position : Nat)
  | truth (value : Bool)
  | integer (value : Int)
  | text (value : String)
  | length (count : Nat)
  deriving DecidableEq

abbrev Fingerprint := List HashPiece

end JsonEdit
