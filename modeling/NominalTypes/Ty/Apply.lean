import NominalTypes.Ty.Subtyping

/-!
# Applying a class to arguments

A class is applied to type arguments with a check of their bounds, in which the other arguments are
substituted. An owner has to be a type around the class; a static class has none.

Boxes and what they contain are found here too.
-/

namespace NominalTypes.Table

variable (tbl : Table)

/-- The owner of an application: the one given, if it lies around the class, and otherwise the
implied one. -/
def applicationOwner (c : ClassId) (owner : Option Ty) : Result (Option Ty) :=
  match owner with
  | none => return tbl.implicitOwner c
  | some t => do
    let fits ←
      match (tbl.cls c).enclosing, t with
      | some e, .declared d _ _ _ => tbl.isSubclassOf d e
      | some _, _ => throw .unsuitable
      | none, _ => pure false
    if !fits then throw (.structural (.notAnOwner (← tbl.typeName t) (tbl.qualifiedName c)))
    else return if tbl.isStatic c then none else some t

/-- Checks an argument against the bounds of its type parameter. -/
def checkBounds (fuel : Nat) (m : Mapping) (v : TypeVarId) (arg : Ty) : Result Unit := do
  if !arg.isWildcard then
    (← tbl.boundsOf v).forM fun bound => do
      if !(← tbl.isSubtype fuel arg (← tbl.substitute m bound)) then
        throw (.structural (.outOfBounds (← tbl.typeName arg) (← tbl.typeName bound)
          (tbl.typeVar v).name))

/-- Applies a class to arguments, each of which has to lie within its bounds. -/
def apply (fuel : Nat) (c : ClassId) (args : List Ty) (owner : Option Ty) : Result Ty := do
  let owner ← tbl.applicationOwner c owner
  let result ← tbl.makeDeclared c args owner []
  let m : Mapping := (tbl.typeVars (.cls c)).zip args
  m.forM fun (v, arg) => tbl.checkBounds fuel m v arg
  return result

def unboxedType (t : Ty) : Result Ty := do
  match tbl.unboxed? t with
  | some p => return .primitive p []
  | none => throw (.kind (.noUnboxedType (← tbl.typeName t)))

end NominalTypes.Table
