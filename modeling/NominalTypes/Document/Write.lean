import NominalTypes.Document.Datum

/-!
# Writing JSON text

Document values as JSON text without blanks. Beyond the standard, infinities and the undefined
number are written by their names. In strings the quotation mark and the backslash are escaped by a
backslash, and control characters and halves of surrogate pairs by their numbers.
-/

namespace NominalTypes.Document

def jsonChar (c : Char) : List Char :=
  let n := Text.code c
  if c == '"' || c == '\\' then ['\\', c]
  else if n < 32 || Text.isHalf n then '\\' :: 'u' :: Text.hexDigits 4 n
  else [c]

def jsonString (s : String) : String :=
  "\"" ++ String.ofList (s.toList.flatMap jsonChar) ++ "\""

def jsonFloat (x : Float) : String :=
  if x.isNaN then "NaN"
  else if x.isInf then (if x > 0 then "Infinity" else "-Infinity")
  else Decimal.floatText x

mutual

def writeJson : Datum → String
  | .null => "null"
  | .bool true => "true"
  | .bool false => "false"
  | .int n => toString n
  | .float x => jsonFloat x
  | .text s => jsonString s
  | .list items => "[" ++ ",".intercalate (writeItems items) ++ "]"
  | .object fields => "\x7b" ++ ",".intercalate (writeFields fields) ++ "\x7d"

def writeItems : List Datum → List String
  | [] => []
  | d :: ds => writeJson d :: writeItems ds

def writeFields : List (String × Datum) → List String
  | [] => []
  | (key, d) :: fs => (jsonString key ++ ":" ++ writeJson d) :: writeFields fs

end

end NominalTypes.Document
