import NominalTypes.Decimal.Reading
import NominalTypes.Error

/-!
# Values as numbers

Text denotes the number that it spells, and a number or truth value denotes itself. A number with a
fraction becomes an integer by leaving out the fraction.
-/

namespace NominalTypes.Datum

/-- An answer, or the given failure if there is none. -/
def orFail {α : Type} (answer : Option α) (e : Error) : Result α :=
  match answer with
  | some a => .ok a
  | none => .error e

/-- The integer that a value is, whatever its sort. -/
def whole? : Datum → Option Int
  | float x => Decimal.whole? x
  | d => d.integer?

def readInt (d : Datum) : Result Int :=
  match d with
  | text s => orFail (Decimal.readInt? s) .notANumber
  | float x => orFail (Decimal.truncate? x) (if x.isNaN then .notANumber else .outOfRange)
  | d => orFail d.integer? (.shape .notText)

/-- The floating-point number that a value denotes. -/
def readFloat (d : Datum) : Result Float :=
  match d with
  | text s => orFail (Decimal.readFloat? s) .notANumber
  | int n =>
    let x := Float.ofInt n
    if x.isInf then .error .outOfRange else .ok x
  | d => orFail d.float? (.shape .notText)

mutual

/-- The constant that a value denotes. An object with the only field `float` or `int` denotes the
number in it, at the top and in lists. -/
def constant : Datum → Result Datum
  | list items => return list (← constants items)
  | object [("float", d)] => return float (← d.readFloat)
  | object [("int", d)] => return int (← d.readInt)
  | d => return d

def constants : List Datum → Result (List Datum)
  | [] => return []
  | d :: ds => return (← constant d) :: (← constants ds)

end

end NominalTypes.Datum
