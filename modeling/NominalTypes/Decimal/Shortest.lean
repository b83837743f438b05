/-!
# The shortest decimal of a binary number

A finite binary number is `m * 2 ^ q`. The reals that round to it form an interval, whose ends
belong to it exactly when `m` is even. The shortest decimal is the one with the fewest digits in
that interval, and of several with that many digits the one nearest to the number. It is found on
the decimal grids of one, two, and more digits, by testing the two grid points around the number.
-/

namespace NominalTypes.Decimal

/-- The decimal number `digits * 10 ^ exponent`. -/
structure Scientific where
  digits : Nat
  exponent : Int
  deriving DecidableEq, Repr

/-- A positive binary number as a fraction `value / unit`, with the ends `low / unit` and
`high / unit` of the interval of reals that round to it. -/
structure Rounding where
  value : Nat
  low : Nat
  high : Nat
  unit : Nat
  closed : Bool

/-- The interval of reals that round to `m * 2 ^ q`. The gap below is half as wide when `m` is the
least significand of its binade, which `narrow` says. -/
def Rounding.ofBinary (m : Nat) (q : Int) (narrow : Bool) : Rounding :=
  let below := if narrow then 1 else 2
  let scale := Nat.pow 2 q.toNat
  { value := 4 * m * scale
    low := (4 * m - below) * scale
    high := (4 * m + 2) * scale
    unit := 4 * Nat.pow 2 (-q).toNat
    closed := m % 2 == 0 }

/-- The number scaled by `10 ^ s`. -/
def Rounding.scale (r : Rounding) (s : Int) : Rounding :=
  let up := Nat.pow 10 s.toNat
  { r with
    value := r.value * up
    low := r.low * up
    high := r.high * up
    unit := r.unit * Nat.pow 10 (-s).toNat }

/-- Whether the integer `c` lies in the interval. -/
def Rounding.holds (r : Rounding) (c : Nat) : Bool :=
  let x := c * r.unit
  if r.closed then r.low ≤ x && x ≤ r.high else r.low < x && x < r.high

/-- The integer of the interval that is nearest to the number, the even one of two at the same
distance, if one of the number's two neighbours lies in the interval. -/
def Rounding.nearest? (r : Rounding) : Option Nat :=
  let c := r.value / r.unit
  let rest := r.value % r.unit
  let downFirst := 2 * rest < r.unit || (2 * rest == r.unit && c % 2 == 0)
  match r.holds c, r.holds (c + 1) with
  | true, true => some (if downFirst then c else c + 1)
  | true, false => some c
  | false, true => some (c + 1)
  | false, false => none

/-- The least `j`, counted on from the given one, with `value * 10 ^ j ≥ unit`. -/
def leadingZeros (value unit : Nat) : Nat → Nat → Nat
  | 0, j => j
  | fuel + 1, j => if value * Nat.pow 10 j < unit then leadingZeros value unit fuel (j + 1) else j

/-- The position `k` of the decimal point: the number is at least `10 ^ (k - 1)` and below
`10 ^ k`. -/
def Rounding.point (r : Rounding) : Int :=
  if r.unit ≤ r.value then (Nat.toDigits 10 (r.value / r.unit)).length
  else 1 - (leadingZeros r.value r.unit 400 0 : Int)

/-- The first hit on the grids of `n` and more digits, with at most `fuel` grids tried. -/
def Rounding.search (r : Rounding) (point : Int) : Nat → Nat → Scientific
  | 0, n => ⟨(r.scale (n - point)).value / (r.scale (n - point)).unit, point - n⟩
  | fuel + 1, n =>
    match (r.scale (n - point)).nearest? with
    | some c => ⟨c, point - n⟩
    | none => r.search point fuel (n + 1)

/-- The shortest decimal of the positive number `m * 2 ^ q`; seventeen digits always suffice for a
significand of 53 bits. -/
def shortest (m : Nat) (q : Int) (narrow : Bool) : Scientific :=
  let r := Rounding.ofBinary m q narrow
  r.search r.point 17 1

/-- The same decimal without zeros at the end of its digits, with at most `fuel` of them removed. -/
def Scientific.trim : Nat → Scientific → Scientific
  | 0, d => d
  | fuel + 1, d =>
    if d.digits != 0 && d.digits % 10 == 0 then
      Scientific.trim fuel ⟨d.digits / 10, d.exponent + 1⟩
    else d

end NominalTypes.Decimal
