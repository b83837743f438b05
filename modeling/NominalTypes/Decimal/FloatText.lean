import NominalTypes.Decimal.Binary
import NominalTypes.Decimal.Shortest

/-!
# The text of floating-point numbers

A finite number is written with the fewest digits that read back. The notation is positional, with
at least one digit after the point, when the decimal exponent of the leading digit is from -4 to 15;
otherwise the exponent is written out with its sign and at least two digits.
-/

namespace NominalTypes.Decimal

/-- Digits and exponent in positional or exponent notation. -/
def Scientific.text (d : Scientific) : String :=
  let d := d.trim 20
  let digits := Nat.toDigits 10 d.digits
  let count := digits.length
  let lead : Int := d.exponent + count - 1
  if -4 ≤ lead ∧ lead < 16 then
    if lead < 0 then
      String.ofList ("0.".toList ++ List.replicate (-lead - 1).toNat '0' ++ digits)
    else if count ≤ lead.toNat + 1 then
      String.ofList (digits ++ List.replicate (lead.toNat + 1 - count) '0' ++ ".0".toList)
    else
      String.ofList (digits.take (lead.toNat + 1) ++ '.' :: digits.drop (lead.toNat + 1))
  else
    let power := Nat.toDigits 10 lead.natAbs
    let mantissa := digits.take 1 ++ (if count == 1 then [] else '.' :: digits.drop 1)
    String.ofList (mantissa ++ ['e', if lead < 0 then '-' else '+'] ++
      List.replicate (2 - power.length) '0' ++ power)

def floatText (x : Float) : String :=
  match binary? x with
  | some b =>
    let magnitude :=
      if b.significand == 0 then "0.0" else (shortest b.significand b.exponent b.narrow).text
    if b.negative then "-" ++ magnitude else magnitude
  | none =>
    if x.toBits.toNat % Nat.pow 2 52 != 0 then "nan"
    else if x.toBits.toNat / Nat.pow 2 63 == 1 then "-inf"
    else "inf"

end NominalTypes.Decimal
