import JsonEdit.Path.Basic
import JsonEdit.Path.Name
import JsonEdit.Text.Hex

/-!
# The text of a path

A field is a point and its name, positions stand in brackets and keys in braces: `.a."b c"[0,2]{"k"}`.
The stars `[*]`, `{*}` and `{*:}` stand for every element, every entry's value and every entry's key.
The root is a single point.
-/

namespace JsonEdit

def Path.quotedChar (c : Char) : List Char :=
  if c = '"' || c = '\\' then ['\\', c]
  else if c = '\n' then ['\\', 'n']
  else if c = '\r' then ['\\', 'r']
  else if c = '\t' then ['\\', 't']
  else if c.toNat < 0x20 then ['\\', 'u'] ++ Text.fourHexDigits c.toNat
  else [c]

def Path.quoted (key : String) : List Char :=
  '"' :: key.toList.flatMap Path.quotedChar ++ ['"']

def Path.positionChars (position : Nat) : List Char := Nat.toDigits 10 position

def Path.commaSeparated (items : List (List Char)) : List Char := [','].intercalate items

namespace Step

def chars : Step → List Char
  | .field name => '.' :: if Path.isPlainName name then name.toList else Path.quoted name
  | .index position => '[' :: Path.positionChars position ++ [']']
  | .indices positions =>
    '[' :: Path.commaSeparated (positions.map Path.positionChars) ++ [']']
  | .elements => ['[', '*', ']']
  | .values => ['\x7b', '*', '\x7d']
  | .names => ['\x7b', '*', ':', '\x7d']
  | .key text => '\x7b' :: Path.quoted text ++ ['\x7d']
  | .keys texts => '\x7b' :: Path.commaSeparated (texts.map Path.quoted) ++ ['\x7d']

def text (step : Step) : String := String.ofList step.chars

end Step

namespace Path

def chars : Path → List Char
  | [] => ['.']
  | steps => steps.flatMap Step.chars

def text (path : Path) : String := String.ofList path.chars

end Path

end JsonEdit
