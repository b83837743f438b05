import NominalTypes.Ty.Render

/-!
# Building types

Arrays, parameterized classes, wildcards, intersections and unions are built with checks of their
parts. A wildcard has at most one explicit bound; the other bound takes its default, the root class
above and the null type below.
-/

namespace NominalTypes.Table

variable (tbl : Table)

/-- A class that stands for a declaration, not for a primitive type. -/
def requireDeclaration (c : ClassId) : Result Unit :=
  if (tbl.cls c).isPrimitive then .error (.kind (.primitiveClass (tbl.cls c).name)) else .ok ()

def objectType : Ty :=
  .declared tbl.core.object [] none []

def makeArray (component : Ty) (marks : List ClassId) : Result Ty :=
  if component.isPseudo || component.isWildcard then
    .error (.kind (.arrayComponent component.kind))
  else .ok (.array component marks)

def makeDeclared (c : ClassId) (args : List Ty) (owner : Option Ty) (marks : List ClassId) :
    Result Ty :=
  let count := (tbl.cls c).typeParameters.length
  if !args.isEmpty && args.length ≠ count then
    .error (.structural (.argumentCount (tbl.qualifiedName c) count args.length))
  else
    match args.find? fun a => !a.isArgument with
    | some a => .error (.kind (.typeArgument a.kind))
    | none => .ok (.declared c args owner marks)

/-- A bound that is written out; the root class above and the null type below are not. -/
def explicitBounds (upper lower : Option Ty) : Option Ty × Option Ty :=
  (upper.filter fun t => !tbl.isObject t, lower.filter fun t => !t.isNull)

def isBadBound (t : Ty) : Bool :=
  t.isWildcard || t.isPseudo || t.isPrimitive

def makeWildcard (upper lower : Option Ty) (marks : List ClassId) : Result Ty :=
  match tbl.explicitBounds upper lower with
  | (some _, some _) => .error (.structural .twoWildcardBounds)
  | (upper, lower) =>
    match (upper.toList ++ lower.toList).find? isBadBound with
    | some t => .error (.kind (.wildcardBound t.kind))
    | none => .ok (.wildcard 0 (upper.getD tbl.objectType) (lower.getD .null) marks)

def makeIntersection (bounds : List Ty) : Result Ty :=
  if bounds.length < 2 then .error (.structural .fewBounds) else .ok (.intersection 0 bounds)

def makeUnion (alternatives : List Ty) : Result Ty :=
  if alternatives.length < 2 then .error (.structural .fewAlternatives)
  else .ok (.union 0 alternatives)

def makePrimitive : TypeKind → Result Ty
  | .primitive p => .ok (.primitive p [])
  | kind => .error (.kind (.notPrimitiveKind kind))

/-- The absence of a type, or the type of what returns nothing. -/
def makeNoType : TypeKind → Result Ty
  | .none => .ok .none
  | .void => .ok (.void [])
  | kind => .error (.kind (.notNoTypeKind kind))

end NominalTypes.Table
