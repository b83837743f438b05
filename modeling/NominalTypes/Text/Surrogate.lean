/-!
# Halves of surrogate pairs

JSON text can escape one half of a surrogate pair without the other. No character is such a half, so
text keeps it as a stand-in: the character at the same place in the last plane for private use. A
character that has itself the place of a stand-in is kept as the stand-ins for its two halves. So
every sequence of code points, halves included, has its own text.

## Main definitions

* `Text.standIn`: the character that stands for a half.
* `Text.code`: the number that a character counts as.
* `Text.codePoints`: the code points that text stands for.
* `Text.fromOutside`: text from outside, with nothing in the places of stand-ins.
* `Text.le`: the order of texts by their code points.
-/

namespace NominalTypes.Text

/-- Whether a number is the first half of a surrogate pair. -/
def isHigh (u : Nat) : Bool :=
  0xd800 ≤ u && u < 0xdc00

/-- Whether a number is the second half of a surrogate pair. -/
def isLow (u : Nat) : Bool :=
  0xdc00 ≤ u && u < 0xe000

def isHalf (u : Nat) : Bool :=
  isHigh u || isLow u

def join (high low : Nat) : Nat :=
  0x10000 + (high - 0xd800) * 0x400 + (low - 0xdc00)

/-- The first half of the surrogate pair for a code point above the first plane. -/
def highHalf (n : Nat) : Nat :=
  0xd800 + (n - 0x10000) / 0x400

/-- The second half of the surrogate pair for a code point above the first plane. -/
def lowHalf (n : Nat) : Nat :=
  0xdc00 + (n - 0x10000) % 0x400

/-- The character that stands for half of a surrogate pair. -/
def standIn (u : Nat) : Char :=
  Char.ofNat (0x100000 + u)

/-- The number that a character counts as: its own, or that of the half that it stands for. -/
def code (c : Char) : Nat :=
  let n := c.toNat
  if isHalf (n - 0x100000) then n - 0x100000 else n

/-- Whether two characters stand for the two halves of a pair. -/
def isPair (c d : Char) : Bool :=
  isHigh (code c) && isLow (code d)

/-- The code points that characters stand for, halves that stand alone included. -/
def codePoints : List Char → List Nat
  | c :: d :: rest =>
    if isPair c d then join (code c) (code d) :: codePoints rest
    else code c :: codePoints (d :: rest)
  | [c] => [code c]
  | [] => []

/-- The texts of the single code points that characters stand for. -/
def pieces : List Char → List String
  | c :: d :: rest =>
    if isPair c d then String.ofList [c, d] :: pieces rest
    else c.toString :: pieces (d :: rest)
  | [c] => [c.toString]
  | [] => []

/-- Text from outside: a character in the place of a stand-in becomes the stand-ins for its two
halves. -/
def fromOutside (s : String) : String :=
  String.ofList <| s.toList.flatMap fun c =>
    if isHalf (code c) then [standIn (highHalf c.toNat), standIn (lowHalf c.toNat)] else [c]

/-- Whether the first list comes before the second or is the same: the first difference decides, and
a list comes before its continuations. -/
def lePoints : List Nat → List Nat → Bool
  | [], _ => true
  | _ :: _, [] => false
  | m :: ms, n :: ns => m < n || (m == n && lePoints ms ns)

/-- Whether the first text comes before the second or is the same. -/
def le (s t : String) : Bool :=
  lePoints (codePoints s.toList) (codePoints t.toList)

end NominalTypes.Text
