import NominalTypes.Declaration.Shown
import NominalTypes.Ty.Build

/-!
# The types that expressions denote

A type expression denotes a type if its parts fit together. A use of a class that has an enclosing
instance, without an owner of its own, belongs to the enclosing class applied to its own type
parameters.
-/

namespace NominalTypes.Table

variable (tbl : Table)

/-- A class applied to its own type parameters, inside the given enclosing classes. -/
def selfTypeIn (c : ClassId) : List ClassId → Ty
  | [] => .declared c ((tbl.typeVars (.cls c)).map fun v => .var 0 v []) none []
  | e :: es =>
    .declared c ((tbl.typeVars (.cls c)).map fun v => .var 0 v [])
      (if tbl.isStatic c then none else some (selfTypeIn e es)) []

/-- A class applied to its own type parameters, and to those of the classes around it as far as it
is not static. -/
def selfType (c : ClassId) : Ty :=
  tbl.selfTypeIn c (tbl.enclosers c)

/-- The owner of a use of a class that is written without one. -/
def implicitOwner (c : ClassId) : Option Ty :=
  match (tbl.cls c).enclosing with
  | some e => if tbl.isStatic c then none else some (tbl.selfType e)
  | none => none

/-- The type that a stand-in for a primitive type or `void` denotes. -/
def primitiveType (c : ClassId) (marks : List ClassId) : Result Ty :=
  let name := (tbl.cls c).name
  match Primitive.ofName? name with
  | some p => .ok (.primitive p marks)
  | none =>
    if name == "void" then .ok (.void marks) else .error (.kind (.primitiveClass name))

/-- One bound for several: none, the only one, or the intersection of all. -/
def joinBounds : List Ty → Result (Option Ty)
  | [] => return none
  | [t] => return some t
  | ts => return some (← makeIntersection ts)

mutual

def descriptor : Expr → Result Ty
  | .named c marks =>
    if (tbl.cls c).isPrimitive then tbl.primitiveType c marks
    else return .declared c [] (tbl.implicitOwner c) marks
  | .array component marks => do
    makeArray (← descriptor component) marks
  | .applied c args owner marks => do
    let owner ←
      match owner with
      | some o => do
        match ← descriptor o with
        | .declared d ds outer own => pure (some (.declared d ds outer own))
        | _ => throw (.form (.ownerNotDeclared (tbl.cls c).name (tbl.shownExpr o)))
      | none => pure (tbl.implicitOwner c)
    tbl.requireDeclaration c
    tbl.makeDeclared c (← descriptors args) owner marks
  | .wildcard upper lower marks => do
    let upper ← joinBounds (← descriptors upper)
    let lower ← joinBounds (← descriptors lower)
    tbl.makeWildcard upper lower marks
  | .var v marks => return .var 0 v marks
  | .foreign value => throw (.form (.notAnExpression value.shown))

def descriptors : List Expr → Result (List Ty)
  | [] => return []
  | e :: es => return (← descriptor e) :: (← descriptors es)

end

/-- The bounds of a type parameter; the root class if none are declared. -/
def boundsOf (v : TypeVarId) : Result (List Ty) :=
  match (tbl.typeVar v).bounds with
  | [] => return [tbl.objectType]
  | bounds => tbl.descriptors bounds

/-- The upper bound of a type parameter: its only bound, or the intersection of its bounds. -/
def upperBound (v : TypeVarId) : Result Ty := do
  match ← tbl.boundsOf v with
  | [t] => return t
  | ts => makeIntersection ts

end NominalTypes.Table
