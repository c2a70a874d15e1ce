import Stencil.Text.Blank
import Stencil.Text.Hex

/-!
# String literals of the script language

A text is written between double quotes with the quote, the backslash and all control characters
escaped, so that no character of it can end the literal.
-/

namespace Stencil.Text

def literalChar (c : Char) : List Char :=
  if c = '"' then ['\\', '"']
  else if c = '\\' then ['\\', '\\']
  else if c = '\n' then ['\\', 'n']
  else if c = '\r' then ['\\', 'r']
  else if c = '\t' then ['\\', 't']
  else if isControl c then '\\' :: 'u' :: hexDigits upperHexDigit 4 c.toNat
  else [c]

def literalChars (cs : List Char) : List Char :=
  '"' :: (cs.flatMap literalChar ++ ['"'])

def literal (s : String) : String := String.ofList (literalChars s.toList)

end Stencil.Text
