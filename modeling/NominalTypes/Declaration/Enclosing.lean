import NominalTypes.Declaration.ClassPath

/-!
# Enclosing classes

A nested class knows the class around it. A class is entered in the table after the class around it,
so going outwards comes to an end.
-/

namespace NominalTypes.Table

variable (tbl : Table)

/-- The classes around a class, the innermost first, at most `fuel` of them. -/
def enclosersWithin : Nat → ClassId → List ClassId
  | 0, _ => []
  | fuel + 1, c =>
    match (tbl.cls c).enclosing with
    | some e => e :: enclosersWithin fuel e
    | none => []

/-- The classes around a class, the innermost first. -/
def enclosers (c : ClassId) : List ClassId :=
  tbl.enclosersWithin tbl.classes.size c

/-- The name of the package of a class; empty if it has none. -/
def packageName (c : ClassId) : Name :=
  match (tbl.cls c).package with
  | some p => (tbl.package p).name
  | none => ""

/-- Whether the instances of the class have no enclosing instance. -/
def isStatic (c : ClassId) : Bool :=
  let d := tbl.cls c
  match d.nesting with
  | .topLevel => true
  | .member =>
    d.access.has .isStatic || d.kind != .cls ||
      match d.enclosing with
      | some e => (tbl.cls e).isInterface
      | none => false
  | .locally => false
  | .anonymous => false

/-- The binary name of a class whose enclosing classes are given: members are joined to the class
around them by `$`. -/
def binaryNameIn (c : ClassId) : List ClassId → String
  | [] => (tbl.cls c).name
  | e :: es =>
    if (tbl.cls c).nesting == .member then
      binaryNameIn e es ++ "$" ++ (tbl.cls c).simpleName.shown
    else (tbl.cls c).name

/-- The name by which a class loader knows the class. -/
def binaryName (c : ClassId) : String :=
  tbl.binaryNameIn c (tbl.enclosers c)

/-- The canonical name of a class; local and anonymous classes have none. -/
def qualifiedName (c : ClassId) : String :=
  match (tbl.cls c).nesting with
  | .locally => ""
  | .anonymous => ""
  | _ => (tbl.cls c).name

def givenBinaryName (c : ClassId) : Name :=
  if (tbl.cls c).enclosing.isNone then (tbl.cls c).givenName else tbl.binaryName c

/-- The canonical name of a class as it was given. -/
def givenQualifiedName (c : ClassId) : Name :=
  if (tbl.cls c).nesting = .topLevel then (tbl.cls c).givenName else tbl.qualifiedName c

/-- The class applied to its own type parameters, as a member of a given type. -/
def selfExprWith (c : ClassId) (owner : Option Expr) : Expr :=
  match tbl.typeVars (.cls c), owner with
  | [], none => .named c []
  | vars, owner => .applied c (vars.map fun v => .var v []) owner []

/-- The class applied to its own type parameters, and to those of the classes around it as far as it
is not static. Of the types around it only those that have arguments are kept. -/
def selfExprIn (c : ClassId) : List ClassId → Expr
  | [] => tbl.selfExprWith c none
  | e :: es =>
    if tbl.isStatic c then tbl.selfExprWith c none
    else
      match selfExprIn e es with
      | .applied d args owner marks => tbl.selfExprWith c (some (.applied d args owner marks))
      | _ => tbl.selfExprWith c none

/-- The type expression that denotes a class inside its own declaration. -/
def selfExpr (c : ClassId) : Expr :=
  tbl.selfExprIn c (tbl.enclosers c)

end NominalTypes.Table
