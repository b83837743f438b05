import NominalTypes.Ty.Ancestors

/-!
# Least upper and greatest lower bounds

The least upper bounds of several types are found among the erasures of their common supertypes: the
minimal ones are kept, and each is parameterized by the least arguments that contain those of all
the types. Such arguments need upper bounds in turn. Where the computation comes back to a set of
types whose bounds are being computed, it is cut with the root class, and sets whose bounds are
known are looked up. Known bounds are shared by all places that ask for them, so every type that is
made on the way is numbered where occurrences are kept track of.

The intersection of two types is reduced to its most specific members. It holds at most one class:
several are merged through their least upper bound.

## Main definitions

* `Table.lub`: least upper bounds with the sets in progress and the known bounds.
* `Table.leastUpperBounds`, `Table.greatestLowerBound`.
* `Table.erase`, `Table.directSupertypes`, `Table.allSupertypes`: the operations that meet unions.
-/

namespace NominalTypes

/-- Known least upper bounds, by the set of types that they bound. -/
abbrev KnownBounds := List (List Ty × List Ty)

/-- A computation that looks up and records least upper bounds. -/
abbrev BoundsM (m : Type → Type) := StateT KnownBounds m

namespace Table

variable (tbl : Table) {m : Type → Type} [Monad m] [MonadLiftT Result m] [Numbering m]

def isInterfaceType : Ty → Bool
  | .declared c _ _ _ => (tbl.cls c).isInterface
  | _ => false

def minimalTypes (fuel : Nat) (types : List Ty) : Result (List Ty) :=
  types.filterM fun t => do
    return !(← types.anyM fun o => if o.same t then return false else tbl.isSubtype fuel o t)

/-- One class first, then the interfaces, then any other classes. -/
def classFirst (types : List Ty) : List Ty :=
  let classes := types.filter fun t => !tbl.isInterfaceType t
  classes.take 1 ++ types.filter tbl.isInterfaceType ++ classes.drop 1

def pairArguments (combine : Ty → Ty → BoundsM m Ty) : List Ty → List Ty → BoundsM m (List Ty)
  | [], [] => return []
  | a :: as, b :: bs => return (← combine a b) :: (← pairArguments combine as bs)
  | _, _ => failWith .unevenArguments

/-- Whether a declared type has arguments of its own. -/
def hasArguments : Ty → Result Bool
  | .declared _ args _ _ => return !args.isEmpty
  | _ => throw .unsuitable

section Step

variable (fuel : Nat) (lub : List (List Ty) → List Ty → BoundsM m (List Ty))

/-- The least upper bounds of some types, starting with nothing known or in progress. -/
def leastUpperBoundsWith (types : List Ty) : m (List Ty) :=
  match types with
  | [] => failWith (.structural .noTypes)
  | t :: _ =>
    match types.find? Ty.isPseudo with
    | some bad => failWith (.kind (.noUpperBound bad.kind))
    | none =>
      match Ty.distinct types with
      | [_] => return [t]
      | several => (lub [] several).run' []

def greatestLowerBoundWith (s t : Ty) : m Ty := do
  if ← tbl.isSubtype fuel s t then return s
  else if ← tbl.isSubtype fuel t s then return t
  else
    let flatten : Ty → List Ty
      | .intersection _ bounds => bounds
      | t => [t]
    let bounds := Ty.distinct (flatten s ++ flatten t)
    let classes := bounds.filter fun b => !tbl.isInterfaceType b
    let interfaces := bounds.filter tbl.isInterfaceType
    let merged ← if classes.length > 1 then leastUpperBoundsWith lub classes else pure classes
    let members := merged.filter (fun b => !tbl.isInterfaceType b) ++ interfaces ++
      merged.filter tbl.isInterfaceType
    match ← tbl.minimalTypes fuel (Ty.distinct members) with
    | [t] => return t
    | reduced => Numbering.number (← makeIntersection reduced)

variable (active : List (List Ty))

/-- The wildcard below the least upper bound of two types. -/
def extendsBound (s t : Ty) : BoundsM m Ty := do
  let bound ← joinBounds (← lub active [s, t])
  Numbering.number (← tbl.makeWildcard bound none [])

/-- The wildcard above the greatest lower bound of two types. -/
def superBound (s t : Ty) : BoundsM m Ty := do
  let bound ← (tbl.greatestLowerBoundWith fuel lub s t : m Ty)
  Numbering.number (← tbl.makeWildcard none (some bound) [])

/-- The type itself if the two are equal, and otherwise the wildcard that contains everything. -/
def sameOrUnbounded (s t : Ty) : BoundsM m Ty := do
  if s.same t then return s else Numbering.number (← tbl.makeWildcard none none [])

/-- The least type argument that contains two others. -/
def containingArgument : Ty → Ty → BoundsM m Ty
  | .wildcard _ upper lower _, .wildcard _ upper' lower' _ =>
    match lower.isNull, lower'.isNull with
    | true, true => tbl.extendsBound lub active upper upper'
    | false, true => tbl.sameOrUnbounded lower upper'
    | true, false => tbl.sameOrUnbounded lower' upper
    | false, false => tbl.superBound fuel lub lower lower'
  | .wildcard _ upper lower _, t =>
    if lower.isNull then tbl.extendsBound lub active upper t
    else tbl.superBound fuel lub lower t
  | s, .wildcard _ upper lower _ =>
    if lower.isNull then tbl.extendsBound lub active upper s
    else tbl.superBound fuel lub lower s
  | s, t => if s.same t then return s else tbl.extendsBound lub active s t

/-- The least parameterization of a class that contains two others. Of the owners, one without
arguments wins. -/
def containingInvocation : Ty → Ty → BoundsM m Ty
  | .declared c args owner _, .declared _ args' owner' _ => do
    let owner ←
      match owner, owner' with
      | some s, some t =>
        if !(← hasArguments s) then pure (some s)
        else if !(← hasArguments t) then pure (some t)
        else some <$> containingInvocation s t
      | owner, _ => pure owner
    let args ← pairArguments (tbl.containingArgument fuel lub active) args args'
    tbl.makeDeclared c args owner []
  | s, _ => return s

/-- The least parameterization of a class that contains those of all the types, if each of them has
one. -/
def commonInvocation (c : ClassId) : Option Ty → List Ty → BoundsM m (Option Ty)
  | found, [] => return found
  | found, t :: ts => do
    match ← tbl.resolveSupertype fuel t c with
    | some (.declared d args owner marks) =>
      if tbl.isRaw d args then return none
      else
        let next := Ty.declared d args owner marks
        match found with
        | none => commonInvocation c (some next) ts
        | some s => commonInvocation c (some (← tbl.containingInvocation fuel lub active s next)) ts
    | _ => return none

/-- The common parameterization of an erased common supertype. -/
def parameterize (types : List Ty) (candidate : Ty) : BoundsM m Ty :=
  match candidate with
  | .declared c _ _ _ =>
    if (tbl.cls c).typeParameters.isEmpty then return candidate
    else return (← tbl.commonInvocation fuel lub active c none types).getD candidate
  | _ => return candidate

/-- The erasures of a type and of its proper supertypes. -/
def erasedSupertypes (t : Ty) : m (List Ty) := do
  let ancestors ← tbl.ancestorsWith (leastUpperBoundsWith lub) fuel t
  return Ty.distinct (← ancestors.mapM (tbl.eraseWith (leastUpperBoundsWith lub) fuel))

/-- The erased supertypes of the first type that all others have as well. -/
def commonErasedSupertypes : List Ty → m (List Ty)
  | [] => return []
  | t :: ts => do
    let first ← tbl.erasedSupertypes fuel lub t
    ts.foldlM (fun kept s => do
      let others ← tbl.erasedSupertypes fuel lub s
      return kept.filter (·.isIn others)) first

/-- The least upper bounds of at least two types whose bounds are not known. -/
def computeBounds (types : List Ty) : BoundsM m (List Ty) := do
  let candidates ← (tbl.commonErasedSupertypes fuel lub types : m (List Ty))
  let minimal ← tbl.minimalTypes fuel candidates
  return tbl.classFirst (← minimal.mapM (tbl.parameterize fuel lub active types))

/-- One step of the computation. The null type is below everything and does not count. -/
def lubStep (types : List Ty) : BoundsM m (List Ty) := do
  match types.filter fun t => !t.isNull with
  | [] => return [.null]
  | [t] => return [t]
  | references =>
    match (← get).find? fun known => Ty.sameMembers known.1 references with
    | some known => return known.2
    | none =>
      if active.any (Ty.sameMembers references) then return [tbl.objectType]
      else
        let bounds ← tbl.computeBounds fuel lub (references :: active) references
        modify fun known => (references, bounds) :: known
        return bounds

end Step

/-- The least upper bounds of some types, where `active` are the sets of types whose bounds are
being computed. -/
def lub : Nat → List (List Ty) → List Ty → BoundsM m (List Ty)
  | 0, _, _ => failWith .exhausted
  | fuel + 1, active, types => tbl.lubStep fuel (lub fuel) active types

/-- The least upper bounds of some types: at most one class, which comes first, and interfaces.
There are none for a mixture of primitive and reference types and for unrelated primitive types. -/
def leastUpperBounds (fuel : Nat) (types : List Ty) : m (List Ty) :=
  leastUpperBoundsWith (tbl.lub fuel) types

def greatestLowerBound (fuel : Nat) (s t : Ty) : m Ty :=
  tbl.greatestLowerBoundWith fuel (tbl.lub fuel) s t

def erase (fuel : Nat) (t : Ty) : Result Ty :=
  tbl.eraseWith (tbl.leastUpperBounds fuel) fuel t

def directSupertypes (fuel : Nat) (t : Ty) : m (List Ty) :=
  tbl.directSupertypesWith (tbl.leastUpperBounds fuel) fuel t

/-- The proper supertypes of a type, the nearest first, without repetitions. -/
def allSupertypes (fuel : Nat) (t : Ty) : m (List Ty) :=
  return (← tbl.ancestorsWith (tbl.leastUpperBounds fuel) fuel t).drop 1

end Table

end NominalTypes
