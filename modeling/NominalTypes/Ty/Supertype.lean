import NominalTypes.Declaration.Hierarchy
import NominalTypes.Ty.Erasure
import NominalTypes.Ty.Occurrence
import NominalTypes.Ty.Substitution

/-!
# Supertypes of declared types

The superclass and the interfaces of a class, seen through the arguments of a type, are its direct
supertypes. Going up step by step finds how a type parameterizes a given class above it.
-/

namespace NominalTypes

/-- What one step on the way up from a type to a class finds. -/
inductive Ascent where
  | arrived (t : Ty)
  /-- The types directly above, in which to look on. -/
  | above (ts : List Ty)

def Ascent.number {m : Type → Type} [Monad m] [Numbering m] : Ascent → m Ascent
  | arrived t => return arrived t
  | above ts => return above (← ts.mapM Numbering.number)

@[simp]
theorem Ascent.number_eq_ok (a : Ascent) : (a.number : Result Ascent) = .ok a := by
  cases a with
  | arrived t => rfl
  | above ts => simp [Ascent.number, bind, Except.bind, pure, Except.pure]

namespace Table

variable (tbl : Table)

/-- Whether a use of a class with these arguments is raw: without arguments, though the class has
type parameters. -/
def isRaw (c : ClassId) (args : List Ty) : Bool :=
  args.isEmpty && !(tbl.cls c).typeParameters.isEmpty

/-- The superclass and the interfaces of a class with arguments. Those of a raw type are erased. A
class without any, other than the root class, has the root class above it. -/
def declaredSupertypes (fuel : Nat) (c : ClassId) (args : List Ty) (owner : Option Ty) :
    Result (List Ty) := do
  match tbl.supertypeExprs c with
  | [] => return if (tbl.cls c).name == "java.lang.Object" then [] else [tbl.objectType]
  | exprs =>
    let supertypes ← tbl.descriptors exprs
    if tbl.isRaw c args then supertypes.mapM (tbl.eraseUnionFree fuel)
    else
      let m ← tbl.typeMapping (.declared c args owner [])
      supertypes.mapM (tbl.substitute m)

/-- Whether every array is a subtype of the class, which is known by its name. -/
def isArraySupertype (c : ClassId) : Bool :=
  ["java.lang.Object", "java.lang.Cloneable", "java.io.Serializable"].contains (tbl.cls c).name

section Climb

variable {m : Type → Type} [Monad m] [MonadLiftT Result m]

def firstFound (find : Ty → m (Option Ty)) : List Ty → m (Option Ty)
  | [] => return none
  | t :: ts => do
    match ← find t with
    | some found => return some found
    | none => firstFound find ts

/-- Goes up step by step until it arrives; `step` is one step, which may also have effects. -/
def climb (step : Ty → m Ascent) : Nat → Ty → m (Option Ty)
  | 0, _ => failWith .exhausted
  | fuel + 1, t => do
    match ← step t with
    | .arrived s => return some s
    | .above ts => firstFound (climb step fuel) ts

end Climb

/-- The bounds above a type that is neither a declared type nor an array. -/
def upperBounds : Ty → Result (List Ty)
  | .var _ v _ => return [← tbl.upperBound v]
  | .captured _ _ upper _ _ => return [upper]
  | .wildcard _ upper _ _ => return [upper]
  | .intersection _ bounds => return bounds
  | _ => return []

def ascend (fuel : Nat) (target : ClassId) : Ty → Result Ascent
  | .declared c args owner marks =>
    if c = target then return .arrived (.declared c args owner marks)
    else do
      if ← tbl.isSubclassOf c target then
        return .above (← tbl.declaredSupertypes fuel c args owner)
      else return .above []
  | .array _ _ =>
    if tbl.isArraySupertype target then return .arrived (.declared target [] none [])
    else return .above []
  | t => return .above (← tbl.upperBounds t)

/-- The supertype of a type that the given class declares, with the arguments that the type gives
it. What a step makes is numbered before the next one copies parts of it. -/
def resolveSupertype {m : Type → Type} [Monad m] [MonadLiftT Result m] [Numbering m] (fuel : Nat)
    (t : Ty) (target : ClassId) : m (Option Ty) :=
  climb (fun t => do (← tbl.ascend fuel target t).number) fuel t

/-- Where no track is kept of occurrences, going up is a matter of the steps alone. -/
theorem resolveSupertype_eq_climb (fuel : Nat) (t : Ty) (target : ClassId) :
    (tbl.resolveSupertype fuel t target : Result (Option Ty)) =
      climb (tbl.ascend fuel target) fuel t := by
  have step (t : Ty) : (do (← tbl.ascend fuel target t).number : Result Ascent) =
      tbl.ascend fuel target t := by
    cases h : tbl.ascend fuel target t with
    | error e => rfl
    | ok a => simp [bind, Except.bind]
  simp only [resolveSupertype]
  exact congrArg (fun step => climb step fuel t) (funext step)

end Table

end NominalTypes
