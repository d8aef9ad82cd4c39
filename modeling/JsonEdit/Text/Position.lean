/-!
# Places in a text

A place in a text is counted in the bytes of its UTF-8 form. For a reader it is shown as a line,
counted from one, and a column, the number of bytes since the line began.
-/

namespace JsonEdit.Text

def byteCount : List Char → Nat
  | [] => 0
  | c :: rest => c.utf8Size + byteCount rest

structure Position where
  line : Nat
  column : Nat
  deriving DecidableEq

namespace Position

/-- The place reached from `position` by going over `bytes` more bytes of the characters. -/
def advance (position : Position) : List Char → Nat → Position
  | [], _ => position
  | c :: rest, bytes =>
    if bytes < c.utf8Size then ⟨position.line, position.column + bytes⟩
    else
      let next : Position :=
        if c = '\n' then ⟨position.line + 1, 0⟩ else ⟨position.line, position.column + c.utf8Size⟩
      next.advance rest (bytes - c.utf8Size)

def ofByteCount (chars : List Char) (bytes : Nat) : Position := advance ⟨1, 0⟩ chars bytes

end Position

end JsonEdit.Text
