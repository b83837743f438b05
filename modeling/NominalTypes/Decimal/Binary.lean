/-!
# The exact value of a floating-point number

A finite floating-point number is a sign, a significand `m` and an exponent `q`, and has the value
`m * 2 ^ q`. So it can be compared with an integer of any size without rounding either of them.
-/

namespace NominalTypes.Decimal

/-- A finite binary number: `significand * 2 ^ exponent`, negated if `negative`. -/
structure Binary where
  negative : Bool
  significand : Nat
  exponent : Int
  /-- Whether the next smaller number is only half as far away as the next larger one. -/
  narrow : Bool
  deriving DecidableEq, Repr

/-- The sign, the significand and the exponent of a finite number; infinities and the undefined
number have none. -/
def binary? (x : Float) : Option Binary :=
  let bits := x.toBits.toNat
  let negative := bits / Nat.pow 2 63 == 1
  let exponent : Nat := bits / Nat.pow 2 52 % Nat.pow 2 11
  let fraction : Nat := bits % Nat.pow 2 52
  if exponent == 2047 then none
  else if exponent == 0 then some ⟨negative, fraction, -1074, false⟩
  else
    some ⟨negative, Nat.pow 2 52 + fraction, (exponent : Int) - 1075,
      fraction == 0 && exponent != 1⟩

/-- Whether a binary number is the given natural number, the sign apart. -/
def Binary.hasMagnitude (b : Binary) (n : Nat) : Bool :=
  b.significand * Nat.pow 2 b.exponent.toNat == n * Nat.pow 2 (-b.exponent).toNat

def Binary.isInt (b : Binary) (n : Int) : Bool :=
  b.hasMagnitude n.natAbs && (n == 0 || b.negative == (n < 0))

/-- The integer next to a binary number on the way to zero. -/
def Binary.truncate (b : Binary) : Int :=
  let n : Int := b.significand * Nat.pow 2 b.exponent.toNat / Nat.pow 2 (-b.exponent).toNat
  if b.negative then -n else n

/-- Whether a floating-point number is the given integer. -/
def equalsInt (x : Float) (n : Int) : Bool :=
  (binary? x).any (·.isInt n)

/-- The integer next to a floating-point number on the way to zero; only a finite number has one. -/
def truncate? (x : Float) : Option Int :=
  (binary? x).map (·.truncate)

/-- The integer that a floating-point number is, if it is one. -/
def whole? (x : Float) : Option Int :=
  (truncate? x).filter (equalsInt x)

end NominalTypes.Decimal
