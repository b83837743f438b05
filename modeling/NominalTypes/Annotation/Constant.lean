import NominalTypes.Error
import NominalTypes.Text.Hex

/-!
# Constants in source text

Truth values, numbers and text as literals. A number that is not finite is written as the division
that gives it. In text, what is not printable ASCII is escaped by its UTF-16 units.
-/

namespace NominalTypes

/-- The UTF-16 units of a character; a stand-in is the half that it stands for. -/
def utf16Units (c : Char) : List Nat :=
  let n := Text.code c
  if n > 0xFFFF then [Text.highHalf n, Text.lowHalf n] else [n]

def literalChar (c : Char) : List Char :=
  match c with
  | '\x08' => ['\\', 'b']
  | '\t' => ['\\', 't']
  | '\n' => ['\\', 'n']
  | '\x0c' => ['\\', 'f']
  | '\r' => ['\\', 'r']
  | '"' => ['\\', '"']
  | '\\' => ['\\', '\\']
  | c =>
    if 31 < c.toNat && c.toNat < 127 then [c]
    else (utf16Units c).flatMap fun n => '\\' :: 'u' :: Text.hexDigits 4 n

def textLiteral (s : String) : String :=
  "\"" ++ String.ofList (s.toList.flatMap literalChar) ++ "\""

def floatLiteral (x : Float) : String :=
  if x.isNaN then "0.0/0.0"
  else if x.isInf then (if x > 0 then "1.0/0.0" else "-1.0/0.0")
  else Decimal.floatText x

/-- The literal for a constant: a truth value, a number or text. -/
def constantLiteral (d : Datum) : Result String :=
  match d with
  | .bool b => return if b then "true" else "false"
  | .int n => return toString n
  | .float x => return floatLiteral x
  | .text s => return textLiteral s
  | d => throw (.kind (.notAConstant d))

end NominalTypes
