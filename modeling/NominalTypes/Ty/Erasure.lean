import NominalTypes.Ty.Descriptor

/-!
# Erasure

Erasure strips generic information from a type. Declared types lose their arguments and their owner,
variables and wildcards become the erasure of their first bound, and a union that of its least upper
bound. An executable that mentions anything generic is erased part by part.

Bounds may refer back to themselves, so erasure has a budget of steps. The least upper bound of a
union is a parameter here.
-/

namespace NominalTypes

namespace Ty

def isGeneric : Ty → Bool
  | declared _ args (some owner) _ => !args.isEmpty || isGeneric owner
  | declared _ args .none _ => !args.isEmpty
  | array component _ => isGeneric component
  | primitive _ _ => false
  | none => false
  | void _ => false
  | null => false
  | _ => true

end Ty

namespace Table

variable (tbl : Table) {m : Type → Type} [Monad m] [MonadLiftT Result m]
  (lub : List Ty → m (List Ty))

/-- The erasure of a type, where `lub` gives least upper bounds. -/
def eraseWith : Nat → Ty → m Ty
  | 0, _ => failWith .exhausted
  | fuel + 1, t =>
    match t with
    | .declared c args owner marks =>
      if args.isEmpty && owner.isNone then return t
      else return .declared c [] none marks
    | .array component marks => return .array (← eraseWith fuel component) marks
    | .var _ v _ => do eraseWith fuel (← tbl.upperBound v)
    | .captured _ _ upper _ _ => eraseWith fuel upper
    | .wildcard _ upper _ _ => eraseWith fuel upper
    | .intersection _ [] => failWith (.structural .fewBounds)
    | .intersection _ (bound :: _) => eraseWith fuel bound
    | .union _ alternatives => do
      match ← lub alternatives with
      | [] => failWith (.erasure (.unboundedUnion (← tbl.typeName t)))
      | bound :: _ => eraseWith fuel bound
    | .executable e vars result parameters receiver thrown =>
      if !vars.isEmpty || (result :: receiver :: parameters ++ thrown).any Ty.isGeneric then do
        let result ← eraseWith fuel result
        let parameters ← parameters.mapM (eraseWith fuel)
        let receiver ← eraseWith fuel receiver
        let thrown ← thrown.mapM (eraseWith fuel)
        return .executable e [] result parameters receiver thrown
      else return t
    | .package p => failWith (.erasure (.package (tbl.package p).name.shown))
    | t => return t

/-- The erasure of a type in which no union occurs, such as those that expressions denote. -/
def eraseUnionFree (fuel : Nat) (t : Ty) : Result Ty :=
  tbl.eraseWith (fun _ => .ok []) fuel t

end Table

end NominalTypes
