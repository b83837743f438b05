import NominalTypes.Member.All

/-!
# Visibility of members

Public and protected members are visible everywhere below their class, private members nowhere else,
and members without access modifier inside their package. Such a method is visible from another
package after all when a class in between redeclares it as public or protected.
-/

namespace NominalTypes

def Access.isBroad (a : Access) : Bool :=
  a.has .isPublic || a.has .isProtected

namespace Table

variable (tbl : Table)

/-- Whether a superclass of the class, on the way up to the declarer, satisfies the test. -/
def anyBetween (broadened : ClassId → Result Bool) (declarer : ClassId) :
    Nat → ClassId → Result Bool
  | 0, _ => throw .exhausted
  | fuel + 1, c => do
    match ← tbl.rawSuperclass c with
    | none => return false
    | some above =>
      if above = declarer then return false
      else if ← broadened above then return true
      else anyBetween broadened declarer fuel above

/-- Whether a member of `declarer` with the given access is visible from a class, where `broadened`
says which classes in between redeclare it more broadly. -/
def isVisible (fuel : Nat) (a : Access) (declarer viewer : ClassId)
    (broadened : ClassId → Result Bool) : Result Bool :=
  if a.isBroad then return true
  else if a.has .isPrivate then return false
  else if (tbl.packageName declarer).same (tbl.packageName viewer) then return true
  else tbl.anyBetween broadened declarer fuel viewer

/-- Whether a field is visible from a class; a redeclared field is another field. -/
def isFieldVisible (a : Access) (declarer viewer : ClassId) : Bool :=
  a.isBroad || (!a.has .isPrivate && (tbl.packageName declarer).same (tbl.packageName viewer))

/-- Whether the class declares a public or protected method with the given name and erased
parameters. -/
def redeclares (fuel : Nat) (name : Name) (parameters : List Ty) (c : ClassId) : Result Bool :=
  (tbl.methodsOf c).anyM fun m => do
    let own ← tbl.erasedParameters fuel m
    let d := tbl.executable m
    return d.name == name && Ty.sameAll own parameters && d.access.isBroad

def isMethodVisible (fuel : Nat) (m : ExecutableId) (viewer : ClassId) : Result Bool := do
  let parameters ← tbl.erasedParameters fuel m
  let d := tbl.executable m
  tbl.isVisible fuel d.access m.cls viewer (tbl.redeclares fuel d.name parameters)

end Table

end NominalTypes
