import Terse.Digits
import Terse.Text.Hidden

/-!
# Quoted texts

The form in which listings show a text: between double quotes, with a backslash in front of
quotes, backslashes and the usual control characters, and with the code point in place of every
other character that has no shape of its own.
-/

namespace Terse.Text

/-- A character inside a quoted text. -/
def quotedChar (c : Char) : List Char :=
  if c = '\x00' then ['\\', '0']
  else if c = '\t' then ['\\', 't']
  else if c = '\r' then ['\\', 'r']
  else if c = '\n' then ['\\', 'n']
  else if c = '\\' then ['\\', '\\']
  else if c = '\x22' then ['\\', '\x22']
  else if isHidden c then ['\\', 'u', '\x7b'] ++ Digits.chars 16 c.toNat ++ ['\x7d']
  else [c]

/-- A text between double quotes. -/
def quoted (text : String) : String :=
  String.ofList (['\x22'] ++ text.toList.flatMap quotedChar ++ ['\x22'])

end Terse.Text
