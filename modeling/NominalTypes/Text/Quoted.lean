import NominalTypes.Text.Hex
import NominalTypes.Text.Printable
import NominalTypes.Text.Surrogate

/-!
# Quoted text

Text inside a message stands in quotes. Single quotes are used unless the text holds a single quote
and no double quote. The quote itself, the backslash, the tab and the line ends are escaped with a
backslash, and characters that are not printable are written as hexadecimal escapes.
-/

namespace NominalTypes.Text

def quoteMark (cs : List Char) : Char :=
  if cs.contains '\'' && !cs.contains '"' then '"' else '\''

/-- A code point that is not printable, as the shortest hexadecimal escape that holds it. -/
def hexEscape (n : Nat) : List Char :=
  if n ≤ 0xff then '\\' :: 'x' :: hexDigits 2 n
  else if n ≤ 0xffff then '\\' :: 'u' :: hexDigits 4 n
  else '\\' :: 'U' :: hexDigits 8 n

/-- A character of text that is enclosed in `mark`. -/
def quotedChar (mark c : Char) : List Char :=
  if c == mark || c == '\\' then ['\\', c]
  else if c == '\t' then ['\\', 't']
  else if c == '\n' then ['\\', 'n']
  else if c == '\r' then ['\\', 'r']
  else if isPrintable c then [c]
  else hexEscape c.toNat

/-- A code point of text that is enclosed in `mark`; half of a surrogate pair is not printable. -/
def quotedPoint (mark : Char) (n : Nat) : List Char :=
  if isHalf n then hexEscape n else quotedChar mark (Char.ofNat n)

/-- The text in quotation marks, with escapes. -/
def quote (s : String) : String :=
  let cs := s.toList
  let mark := quoteMark cs
  String.ofList (mark :: (codePoints cs).flatMap (quotedPoint mark) ++ [mark])

end NominalTypes.Text
