import NominalTypes.Text.Blank
import NominalTypes.Text.Digit

/-!
# Reading numbers

Integers are decimal digits with an optional sign. Floating-point numbers are decimal notation with
or without an exponent, or the names of infinity and of the undefined number. Blanks around a number
do not count, single underscores may stand between digits, and the digits may be of any script.
Integers have a limited number of digits.
-/

namespace NominalTypes.Decimal

/-- The floating-point number nearest to `digits * 10 ^ exponent`. Decimal points beyond four
hundred places on either side are out of range and answered at once. -/
def toFloat (digits : Nat) (exponent : Int) : Float :=
  let point : Int := (Nat.toDigits 10 digits).length + exponent
  if digits == 0 || point < -400 then 0.0
  else if 400 < point then 1.0 / 0.0
  else Float.ofScientific digits (exponent < 0) exponent.natAbs

def digitsValue (digits : List Char) : Nat :=
  digits.foldl (fun n c => 10 * n + (c.toNat - '0'.toNat)) 0

/-- A nonempty run of decimal digits at the front, and the rest. -/
def takeDigits (cs : List Char) : List Char × List Char :=
  (cs.takeWhile Char.isDigit, cs.dropWhile Char.isDigit)

/-- A sign at the front, as whether it is a minus sign, and the rest. -/
def takeSign : List Char → Bool × List Char
  | '-' :: rest => (true, rest)
  | '+' :: rest => (false, rest)
  | cs => (false, cs)

/-- The exponent part `e±n` at the end of a decimal; nothing at all counts as exponent zero. -/
def readExponent? : List Char → Option Int
  | [] => some 0
  | c :: rest =>
    if c == 'e' || c == 'E' then
      let (negative, rest) := takeSign rest
      let (digits, rest) := takeDigits rest
      if digits.isEmpty || !rest.isEmpty then none
      else
        let n : Int := digitsValue digits
        some (if negative then -n else n)
    else none

/-- An unsigned decimal such as `12`, `12.5`, `.5` or `1e100`. -/
def readUnsigned? (cs : List Char) : Option Float :=
  let (whole, rest) := takeDigits cs
  let (fraction, rest) :=
    match rest with
    | '.' :: rest => takeDigits rest
    | rest => ([], rest)
  if whole.isEmpty && fraction.isEmpty then none
  else
    (readExponent? rest).map fun e =>
      toFloat (digitsValue (whole ++ fraction)) (e - fraction.length)

/-- The text without underscores, each of which has to stand between two digits. -/
def joinDigits? : List Char → Option (List Char)
  | [] => some []
  | c :: '_' :: rest =>
    if c.isDigit && rest.head?.any Char.isDigit then (joinDigits? rest).map (c :: ·) else none
  | '_' :: _ => none
  | c :: rest => (joinDigits? rest).map (c :: ·)

/-- Whether the character is white space that may stand around a number. The information separators
may not. -/
def isPadding (c : Char) : Bool :=
  Text.isBlank c && !(28 ≤ c.toNat && c.toNat < 32)

/-- The characters of a number with ASCII digits, without blanks around it and without
underscores. -/
def numeral? (s : String) : Option (List Char) :=
  let cs := (s.toList.dropWhile isPadding).reverse.dropWhile isPadding
  joinDigits? (cs.reverse.map Text.asciiDigit)

/-- The most digits that an integer may have, leading zeros included. -/
def maxDigits : Nat :=
  4300

def readInt? (s : String) : Option Int := do
  let (negative, cs) := takeSign (← numeral? s)
  let (digits, rest) := takeDigits cs
  if digits.isEmpty || !rest.isEmpty || maxDigits < digits.length then none
  else
    let n : Int := digitsValue digits
    return if negative then -n else n

/-- The floating-point number that the text denotes. -/
def readFloat? (s : String) : Option Float := do
  let (negative, cs) := takeSign (← numeral? s)
  let name := String.ofList (cs.map Char.toLower)
  let magnitude ←
    if name == "inf" || name == "infinity" then some (1.0 / 0.0)
    else if name == "nan" then some (0.0 / 0.0)
    else readUnsigned? cs
  return if negative then -magnitude else magnitude

end NominalTypes.Decimal
