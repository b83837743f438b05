import NominalTypes.Element.Basic
import NominalTypes.Ty.Descriptor

/-!
# The types of elements

A class denotes itself applied to its own type parameters, a variable has its declared type, and an
executable the type made of its parts.
-/

namespace NominalTypes.Table

variable (tbl : Table)

/-- The superclass of a class; interfaces and the root class have none. -/
def superclassType (c : ClassId) : Result Ty :=
  match (tbl.cls c).superclass with
  | some e => tbl.descriptor e
  | none => return .none

def interfaceTypes (c : ClassId) : Result (List Ty) :=
  tbl.descriptors (tbl.cls c).interfaces

def resultType (e : ExecutableId) : Result Ty :=
  if e.isConstructor then return .void [] else tbl.descriptor (tbl.executable e).returnType

def parameterTypes (e : ExecutableId) : Result (List Ty) :=
  tbl.descriptors ((tbl.executable e).parameters.map (·.type))

/-- The type of the instance on which an executable is called. A constructor has one if its class
has an enclosing instance, and a method if it is not static. -/
def receiverType (e : ExecutableId) : Ty :=
  if e.isConstructor then (tbl.implicitOwner e.cls).getD .none
  else if (tbl.executable e).isStatic then .none
  else tbl.selfType e.cls

def thrownTypes (e : ExecutableId) : Result (List Ty) :=
  tbl.descriptors (tbl.executable e).thrown

def ownVariables (g : GenericId) : List Ty :=
  (tbl.typeVars g).map fun v => .var 0 v []

def executableType (e : ExecutableId) : Result Ty := do
  let result ← tbl.resultType e
  let parameters ← tbl.parameterTypes e
  let thrown ← tbl.thrownTypes e
  return .executable e (tbl.ownVariables (.executable e)) result parameters (tbl.receiverType e)
    thrown

def typeOf (x : Element) : Result Ty :=
  match x with
  | .package p => return .package p
  | .type c => return tbl.selfType c
  | .executable e => tbl.executableType e
  | .field f => tbl.descriptor (tbl.field f).type
  | .parameter p => tbl.descriptor (tbl.parameter p).type
  | .typeParameter v => return .var 0 v []
  | .captureSite _ => throw (.kind (.declaresNoType (tbl.shownElement x)))
  | .capturedParameter token site upper lower marks =>
    return .captured token site upper lower marks

/-- The bounds of a type parameter, or of a captured one. -/
def elementBounds : Element → Result (List Ty)
  | .typeParameter v => tbl.boundsOf v
  | .capturedParameter _ _ upper _ _ => return [upper]
  | _ => return []

/-- The expression with which a declaration gives its type: a class applied to its own type
parameters, the type of a variable, what an executable returns. -/
def declaredExpr (x : Element) : Result Expr :=
  let refuse (shown : String) : Result Expr := throw (.kind (.noTypeExpression shown))
  match x with
  | .type c => return tbl.selfExpr c
  | .field f => return (tbl.field f).type
  | .parameter p => return (tbl.parameter p).type
  | .executable e => return (tbl.executable e).returnType
  | .typeParameter v => return .var v []
  | .package p => refuse (tbl.shownPackage p)
  | _ => throw .unsuitable

/-- The element of a declaration of the table. Elements that a capture brings with it are none. -/
def requireDeclared : Element → Result Element
  | .captureSite _ => throw .unsuitable
  | .capturedParameter _ _ _ _ _ => throw .unsuitable
  | x => return x

/-- The declaration of an element in a message. Elements that a capture brings with it have none. -/
def shownDeclaration : Element → Result String
  | .package p => return tbl.shownPackage p
  | .type c => return tbl.shownClass c
  | .executable e => return tbl.shownExecutable e
  | .field f => return tbl.shownField f
  | .parameter p => return tbl.shownParameter p
  | .typeParameter v => return tbl.shownTypeVar v
  | _ => throw .unsuitable

end NominalTypes.Table
