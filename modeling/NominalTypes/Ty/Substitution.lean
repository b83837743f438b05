import NominalTypes.Ty.Build

/-!
# Substitution

A mapping gives types to type parameters. Substitution replaces the mapped variables of a type.
Parts in which nothing is replaced stay as they are, and so do those in which a variable is replaced
by that very occurrence of it; rebuilt parts are checked again. A wildcard that lands where no
wildcard can stand gives way to its bound.
-/

namespace NominalTypes

/-- Types for type parameters, in the order in which they were given. -/
abbrev Mapping := List (TypeVarId × Ty)

/-- Gives a type to a type parameter. One that has a type already keeps its place. -/
def Mapping.insert (m : Mapping) (v : TypeVarId) (t : Ty) : Mapping :=
  if m.any (·.1 == v) then m.map fun e => if e.1 == v then (v, t) else e else m ++ [(v, t)]

/-- Gives types to type parameters, one after the other. -/
def Mapping.insertAll (m : Mapping) (entries : List (TypeVarId × Ty)) : Mapping :=
  entries.foldl (fun m e => m.insert e.1 e.2) m

/-- The types for type parameters among types for declarations, which may be absent. -/
def Mapping.ofEntries (entries : List (Option Element × Ty)) : Mapping :=
  entries.foldl
    (fun m e =>
      match e.1 with
      | some (.typeParameter v) => m.insert v e.2
      | _ => m)
    []

namespace Ty

mutual

/-- Whether substitution changes the type: a variable in it is mapped to something other than that
occurrence of the variable, or a wildcard bounds an intersection. What replaces a variable at the
top is first put through `settle`, which says what a wildcard gives way to at that place. -/
def isAffected (m : Mapping) (settle : Ty → Ty) : Ty → Bool
  | var n v marks => (m.lookup v).any fun t => !(settle t).isSameOccurrence (var n v marks)
  | declared _ args owner _ => anyAffected m id args || isOwnerAffected m owner
  | array component _ => isAffected m orUpper component
  | wildcard _ upper lower _ => isAffected m orUpper upper || isAffected m orLower lower
  | intersection _ bounds => bounds.any isWildcard || anyAffected m orUpper bounds
  | union _ alternatives => anyAffected m id alternatives
  | executable _ _ _ _ _ _ => true
  | _ => false

/-- Whether substitution changes one of the types. -/
def anyAffected (m : Mapping) (settle : Ty → Ty) : List Ty → Bool
  | [] => false
  | t :: ts => isAffected m settle t || anyAffected m settle ts

def isOwnerAffected (m : Mapping) : Option Ty → Bool
  | .none => false
  | some t => isAffected m id t

end

end Ty

namespace Table

variable (tbl : Table) (m : Mapping)

mutual

def instantiate : Ty → Result Ty
  | .var n v marks => return (m.lookup v).getD (.var n v marks)
  | .declared c args owner marks =>
    if (Ty.declared c args owner marks).isAffected m id then do
      let args ← instantiateAll args
      let owner ← instantiateOwner owner
      tbl.makeDeclared c args owner marks
    else return .declared c args owner marks
  | .array component marks =>
    if component.isAffected m Ty.orUpper then do
      makeArray (← instantiate component).orUpper marks
    else return .array component marks
  | .wildcard n upper lower marks =>
    if (Ty.wildcard n upper lower marks).isAffected m id then do
      let upper ← instantiate upper
      let lower ← instantiate lower
      tbl.makeWildcard (some upper.orUpper) (some lower.orLower) marks
    else return .wildcard n upper lower marks
  | .intersection n bounds =>
    if (Ty.intersection n bounds).isAffected m id then do
      makeIntersection ((← instantiateAll bounds).map Ty.orUpper)
    else return .intersection n bounds
  | .union n alternatives =>
    if (Ty.union n alternatives).isAffected m id then do
      makeUnion (← instantiateAll alternatives)
    else return .union n alternatives
  | .executable e vars result parameters receiver thrown => do
    let result ← instantiate result
    let parameters ← instantiateAll parameters
    let receiver ← instantiate receiver
    let thrown ← instantiateAll thrown
    return .executable e vars result parameters receiver thrown
  | t => return t

def instantiateAll : List Ty → Result (List Ty)
  | [] => return []
  | t :: ts => return (← instantiate t) :: (← instantiateAll ts)

def instantiateOwner : Option Ty → Result (Option Ty)
  | none => return none
  | some t => return some (← instantiate t)

end

/-- The type with the mapped variables replaced; an empty mapping changes nothing. -/
def substitute (t : Ty) : Result Ty :=
  if m.isEmpty then return t else tbl.instantiate m t

/-- The type with the declarations that are type parameters replaced; without any declarations
nothing changes. -/
def substituteEntries (entries : List (Option Element × Ty)) (t : Ty) : Result Ty :=
  if entries.isEmpty then return t else tbl.instantiate (.ofEntries entries) t

/-- The arguments of a declared type and of the types around it, by type parameter, the outermost
first. All the types around it have to be declared types. -/
def typeMapping : Ty → Result Mapping
  | .declared c args (some owner) _ =>
    return (← typeMapping owner).insertAll ((tbl.typeVars (.cls c)).zip args)
  | .declared c args none _ => return Mapping.insertAll [] ((tbl.typeVars (.cls c)).zip args)
  | _ => throw .unsuitable

end Table

end NominalTypes
