/-!
# Powers

The powers that the sizes of integers and the places of decimals are measured in.
-/

namespace JsonEdit

def pow2 (n : Nat) : Nat := Nat.pow 2 n

def pow10 (n : Nat) : Nat := Nat.pow 10 n

end JsonEdit
