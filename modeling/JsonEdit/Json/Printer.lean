import JsonEdit.Json.Basic
import JsonEdit.Text.Hex

/-!
# The text of a tree

A tree is written without any blanks, or with every element and entry on a line of its own, indented
by two blanks for each level. Both are the same writing with different gaps.
-/

namespace JsonEdit

inductive Layout where
  | compact
  | indented
  deriving DecidableEq

namespace Layout

def lineBreak (layout : Layout) (depth : Nat) : List Char :=
  match layout with
  | .compact => []
  | .indented => '\n' :: List.replicate (2 * depth) ' '

def colon : Layout → List Char
  | .compact => [':']
  | .indented => [':', ' ']

end Layout

namespace Json

def quotedChar (c : Char) : List Char :=
  if c = '"' || c = '\\' then ['\\', c]
  else if c = '\x08' then ['\\', 'b']
  else if c = '\t' then ['\\', 't']
  else if c = '\n' then ['\\', 'n']
  else if c = '\x0c' then ['\\', 'f']
  else if c = '\r' then ['\\', 'r']
  else if c.toNat < 0x20 then ['\\', 'u'] ++ Text.fourHexDigits c.toNat
  else [c]

def quoted (text : String) : List Char := '"' :: text.toList.flatMap quotedChar ++ ['"']

def bracketed (layout : Layout) (depth : Nat) (opening closing : Char) (items : List Char) :
    List Char :=
  if items.isEmpty then [opening, closing]
  else opening :: items ++ layout.lineBreak depth ++ [closing]

mutual

def write (layout : Layout) (depth : Nat) : Json → List Char
  | .null => ['n', 'u', 'l', 'l']
  | .bool true => ['t', 'r', 'u', 'e']
  | .bool false => ['f', 'a', 'l', 's', 'e']
  | .number value => value.normal.chars
  | .string value => quoted value
  | .array items => bracketed layout depth '[' ']' (writeItems layout (depth + 1) items)
  | .object entries =>
    bracketed layout depth '\x7b' '\x7d' (writeEntries layout (depth + 1) entries)

def writeItems (layout : Layout) (depth : Nat) : List Json → List Char
  | [] => []
  | item :: rest =>
    layout.lineBreak depth ++ write layout depth item ++ (if rest.isEmpty then [] else [',']) ++
      writeItems layout depth rest

def writeEntries (layout : Layout) (depth : Nat) : List (String × Json) → List Char
  | [] => []
  | (key, value) :: rest =>
    layout.lineBreak depth ++ quoted key ++ layout.colon ++ write layout depth value ++
      (if rest.isEmpty then [] else [',']) ++ writeEntries layout depth rest

end

def toText (layout : Layout) (value : Json) : String := String.ofList (value.write layout 0)

def compactText (value : Json) : String := value.toText .compact

/-- The text with a line for every element and entry. -/
def indentedText (value : Json) : String := value.toText .indented

end Json

end JsonEdit
