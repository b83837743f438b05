import NominalTypes.Ty.Basic

/-!
# Numbering occurrences

A type that is kept for later use gets numbers for those of its variables, wildcards, intersections
and unions that have none, so that they can be told from equal ones.

What computes with types may keep track of occurrences: then each type that it makes is numbered at
once, and the copies that end up in several places of a result are the same occurrences. Without
that, all types that it makes are occurrences of their own.

## Main definitions

* `Ty.number`: the type with numbers for its occurrences.
* `Numbering`: the computations that number the types they make.
-/

namespace NominalTypes.Ty

/-- A number for an occurrence: the one it has, or the next one. -/
def numberOnce (n : Nat) : StateM Nat Nat :=
  if n = 0 then modifyGet fun next => (next, next + 1) else return n

mutual

def number : Ty → StateM Nat Ty
  | array component marks => return array (← number component) marks
  | declared c args owner marks => do
    let args ← numberAll args
    return declared c args (← numberOwner owner) marks
  | var n v marks => return var (← numberOnce n) v marks
  | wildcard n upper lower marks => do
    let upper ← number upper
    let lower ← number lower
    return wildcard (← numberOnce n) upper lower marks
  | captured token site upper lower marks => do
    let upper ← number upper
    return captured token site upper (← number lower) marks
  | intersection n bounds => do
    let bounds ← numberAll bounds
    return intersection (← numberOnce n) bounds
  | union n alternatives => do
    let alternatives ← numberAll alternatives
    return union (← numberOnce n) alternatives
  | executable e vars result parameters receiver thrown => do
    let result ← number result
    let parameters ← numberAll parameters
    let receiver ← number receiver
    return executable e vars result parameters receiver (← numberAll thrown)
  | t => return t

def numberAll : List Ty → StateM Nat (List Ty)
  | [] => return []
  | t :: ts => return (← number t) :: (← numberAll ts)

def numberOwner : Option Ty → StateM Nat (Option Ty)
  | .none => return .none
  | some t => return some (← number t)

end

end NominalTypes.Ty

namespace NominalTypes

/-- Computations in which the types that are made can be numbered. -/
class Numbering (m : Type → Type) where
  /-- Numbers the occurrences in a type that has just been made. -/
  number : Ty → m Ty

/-- Results by themselves keep no track of occurrences. -/
instance : Numbering Result where
  number t := .ok t

instance {σ : Type} {m : Type → Type} [Monad m] [Numbering m] : Numbering (StateT σ m) where
  number t := StateT.lift (Numbering.number t)

@[simp]
theorem number_eq_ok (t : Ty) : (Numbering.number t : Result Ty) = .ok t :=
  rfl

@[simp]
theorem mapM_number_eq_ok (ts : List Ty) :
    (ts.mapM Numbering.number : Result (List Ty)) = .ok ts := by
  induction ts with
  | nil => rfl
  | cons t ts ih => simp [ih, bind, Except.bind, pure, Except.pure]

end NominalTypes
