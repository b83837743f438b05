import NominalTypes.Member.All
import NominalTypes.Member.Hiding
import NominalTypes.Session.Basic

/-!
# Questions about elements in a session

An element that a term denotes may be absent: there is none for a primitive type, and none around a
package. Questions that say so in their answer are asked of possible elements here.
-/

namespace NominalTypes.Session

def absent : String :=
  Datum.shown .null

/-- The members of an element, which has to be there and to be a class. -/
def members (x : Option Element) : SessionM (List Element) :=
  match x with
  | some x => ask fun tbl => tbl.members budget x
  | none => throw (.kind (.noMembers absent))

/-- The package of an element, which has to be there. -/
def packageOf (x : Option Element) : SessionM PackageId :=
  match x with
  | some x => ask fun tbl => tbl.packageOf budget x
  | none => throw (.kind (.noPackage absent))

/-- Whether the first element hides the second; what is absent hides nothing that is absent. -/
def hides (a b : Option Element) : SessionM Bool :=
  match a, b with
  | some a, some b => ask fun tbl => tbl.hides budget a b
  | none, none => return false
  | _, _ => throw .unsuitable

/-- The package with the given name on a class path, if there is one. -/
def packageNamed (path : PathId) (name : Name) : SessionM (Option Element) :=
  ask fun tbl => do
    name.requireKey
    return tbl.packageElement? path name

/-- The top-level classes of the packages whose name is equal to the given one. -/
def classesIn (name : Name) : SessionM (List ClassId) := do
  let path := (← get).current
  view fun tbl => if name.same name then tbl.classesIn path name else []

/-- The local and anonymous classes inside an element; only classes have some. -/
def localClasses (x : Element) : SessionM (List ClassId) := do
  let path := (← get).current
  match x with
  | .type c => view fun tbl => tbl.localClasses path c
  | .captureSite _ => throw .unsuitable
  | .capturedParameter _ _ _ _ _ => throw .unsuitable
  | _ => return []

/-- Declares an element to lie inside an executable. Only for a class is this kept. -/
def declareInside (x : Element) (e : ExecutableId) : SessionM Unit :=
  match x with
  | .type c => setEnclosingExecutable c e
  | .captureSite _ => throw .unsuitable
  | .capturedParameter _ _ _ _ _ => throw .unsuitable
  | _ => return ()

end NominalTypes.Session
