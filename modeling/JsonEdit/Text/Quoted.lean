import JsonEdit.Text.Hex
import JsonEdit.Text.Invisible

/-!
# Quoting inside messages

A message shows a piece of input between quotes. The quote and the backslash take a backslash, the
usual controls have their letters, and a character without a glyph is written by its code point
between braces, as in `\u{7}`.
-/

namespace JsonEdit.Text

def quotedChar (quote c : Char) : List Char :=
  if c = quote || c = '\\' then ['\\', c]
  else if c = '\n' then ['\\', 'n']
  else if c = '\r' then ['\\', 'r']
  else if c = '\t' then ['\\', 't']
  else if c = '\x00' then ['\\', '0']
  else if isInvisible c then ['\\', 'u', '\x7b'] ++ hexDigits c.toNat ++ ['\x7d']
  else [c]

def quoted (text : String) : String :=
  String.ofList ('"' :: text.toList.flatMap (quotedChar '"') ++ ['"'])

def quotedSingle (c : Char) : String :=
  String.ofList ('\'' :: quotedChar '\'' c ++ ['\''])

end JsonEdit.Text
