/-!
# Blocks of code points

A character class beyond ASCII is a list of closed ranges of code points, in ascending order.
-/

namespace JsonEdit.Text

/-- Closed ranges of code points, first and last. -/
abbrev Blocks := List (Nat × Nat)

namespace Blocks

def contains (blocks : Blocks) (c : Char) : Bool :=
  blocks.any fun (first, last) => first ≤ c.toNat && c.toNat ≤ last

end Blocks

end JsonEdit.Text
