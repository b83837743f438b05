import NominalTypes.Declaration.Shown

/-!
# The raw class hierarchy

Every class names its superclass and its interfaces. Leaving out the arguments gives the raw
hierarchy, in which classes are searched for. Inheritance may be cyclic: a search never expands a
class twice, and the number of supertypes in the table bounds its steps.

## Main definitions

* `Table.isSubclassOf`: whether a class is below another, by depth-first search.
* `Table.hierarchy`: a class and the classes above it, in breadth-first order.
* `Table.inheritedMemberClass`: the nearest member class with a given name.
-/

namespace NominalTypes.Table

variable (tbl : Table)

def rawClass : Expr → Result ClassId
  | .named c _ => .ok c
  | .applied c _ _ _ => .ok c
  | e => .error (.namesNoClass (tbl.shownExpr e))

/-- The expressions of the superclass and the interfaces of a class, in this order. -/
def supertypeExprs (c : ClassId) : List Expr :=
  (tbl.cls c).superclass.toList ++ (tbl.cls c).interfaces

/-- The superclass and the interfaces of a class, without arguments. -/
def rawSupertypes (c : ClassId) : Result (List ClassId) :=
  (tbl.supertypeExprs c).mapM tbl.rawClass

def rawSuperclass (c : ClassId) : Result (Option ClassId) :=
  (tbl.cls c).superclass.mapM tbl.rawClass

/-- How many supertype expressions the table holds. -/
def edgeCount : Nat :=
  tbl.classes.foldl (fun n d => n + d.superclass.toList.length + d.interfaces.length) 0

/-- A bound on the steps of a search that expands every class at most once and begins with a class
or its supertypes. -/
def searchBound : Nat :=
  2 * tbl.edgeCount + 2

/-- Whether the search for `goal` succeeds from the pending classes, of which the last one entered
comes first. -/
def reaches (goal : ClassId) : Nat → List ClassId → List ClassId → Result Bool
  | 0, _, _ => .ok false
  | _ + 1, [], _ => .ok false
  | fuel + 1, c :: pending, seen =>
    if c = goal then .ok true
    else if c ∈ seen then reaches goal fuel pending seen
    else do
      let above ← tbl.rawSupertypes c
      reaches goal fuel (above.reverse ++ pending) (c :: seen)

/-- Whether a value of the first class can be used as one of the second. Stand-ins for primitive
types are related to themselves only. A class without superclass that is no interface is a root, and
lies above every class. -/
def isSubclassOf (c goal : ClassId) : Result Bool :=
  if c = goal then .ok true
  else if (tbl.cls c).isPrimitive || (tbl.cls goal).isPrimitive then .ok false
  else if (tbl.cls goal).superclass.isNone && !(tbl.cls goal).isInterface then .ok true
  else do
    let above ← tbl.rawSupertypes c
    tbl.reaches goal tbl.searchBound above.reverse []

/-- The classes found from the queue in breadth-first order; `found` holds those found already, the
last one first. -/
def hierarchyFrom : Nat → List ClassId → List ClassId → Result (List ClassId)
  | 0, _, found => .ok found.reverse
  | _ + 1, [], found => .ok found.reverse
  | fuel + 1, c :: queue, found =>
    if c ∈ found then hierarchyFrom fuel queue found
    else do
      let above ← tbl.rawSupertypes c
      hierarchyFrom fuel (queue ++ above) (c :: found)

/-- A class and the classes above it, each once, in breadth-first order. -/
def hierarchy (c : ClassId) : Result (List ClassId) :=
  tbl.hierarchyFrom tbl.searchBound [c] []

/-- The first member class with the given name, of the classes found from the queue in breadth-first
order. -/
def inheritedMemberFrom (name : String) :
    Nat → List ClassId → List ClassId → Result (Option ClassId)
  | 0, _, _ => .ok none
  | _ + 1, [], _ => .ok none
  | fuel + 1, c :: queue, seen =>
    if c ∈ seen then inheritedMemberFrom name fuel queue seen
    else
      match (tbl.cls c).memberClasses.find? fun m => (tbl.cls m).simpleName == name with
      | some m => .ok (some m)
      | none => do
        let above ← tbl.rawSupertypes c
        inheritedMemberFrom name fuel (queue ++ above) (c :: seen)

/-- The member class of that name that the class declares or inherits; the nearest declaration
wins. -/
def inheritedMemberClass (c : ClassId) (name : String) : Result (Option ClassId) :=
  tbl.inheritedMemberFrom name tbl.searchBound [c] []

def memberPath : ClassId → List String → Result (Option ClassId)
  | c, [] => .ok (some c)
  | c, name :: names => do
    match ← tbl.inheritedMemberClass c name with
    | some m => memberPath m names
    | none => return none

end NominalTypes.Table
