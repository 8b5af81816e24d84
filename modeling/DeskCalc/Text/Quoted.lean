import DeskCalc.Text.Printable

/-!
# Quoted text

A text between double quotes. Quotes and backslashes are escaped by a backslash, a few control
characters have escapes of their own, and whatever cannot be seen, or would be drawn onto the
character before it, is written as its code point.
-/

namespace DeskCalc.Text

/-- The code point of a character in braces. -/
def codePointEscape (c : Char) : List Char :=
  ['\\', 'u', '\x7b'] ++ Nat.toDigits 16 c.toNat ++ ['\x7d']

/-- How a character is written between quotes. -/
def escape (c : Char) : List Char :=
  if c = '\x00' then ['\\', '0']
  else if c = '\t' then ['\\', 't']
  else if c = '\r' then ['\\', 'r']
  else if c = '\n' then ['\\', 'n']
  else if c = '"' ∨ c = '\\' then ['\\', c]
  else if extendsGrapheme c ∨ !isPrintable c then codePointEscape c
  else [c]

/-- The text between double quotes. -/
def quoted (text : String) : String :=
  String.ofList ('"' :: (text.toList.flatMap escape ++ ['"']))

end DeskCalc.Text
