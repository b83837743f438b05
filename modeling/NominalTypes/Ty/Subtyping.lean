import NominalTypes.CoreLibrary.System
import NominalTypes.Ty.Supertype

/-!
# Subtyping and assignability

Subtyping is the strict relation: widening of primitive types, and subtyping of reference types with
containment of type arguments. Assignability allows boxing and unboxing besides, and the unchecked
conversion of a raw type to any parameterization.

Both relations may go round in circles, so the check has a budget of steps. One step is written with
the check itself as a parameter.
-/

namespace NominalTypes

/-- A relation between types. -/
inductive Relation where
  | subtype
  | assignable
  deriving DecidableEq, Repr

/-- The primitive types to which a value of the given one widens. -/
def Primitive.wider : Primitive → List Primitive
  | .byte => [.short, .int, .long, .float, .double]
  | .short => [.int, .long, .float, .double]
  | .char => [.int, .long, .float, .double]
  | .int => [.long, .float, .double]
  | .long => [.float, .double]
  | .float => [.double]
  | .double => []
  | .boolean => []

/-- Whether a value of the first primitive type can be used as one of the second. -/
def Primitive.widensTo (p q : Primitive) : Bool :=
  p == q || p.wider.contains q

/-- Whether two types are the same. A wildcard is the same as no type, and the bounds of
intersections and the alternatives of unions are compared as sets. -/
def Ty.isSameType (s t : Ty) : Bool :=
  !s.isWildcard && !t.isWildcard &&
    match s, t with
    | .intersection _ ss, .intersection _ ts => Ty.sameMembers ss ts
    | .union _ ss, .union _ ts => Ty.sameMembers ss ts
    | s, t => s.same t

def Ty.requireType (t : Ty) : Result Unit :=
  if t.isPseudo then .error (.kind (.notAType t.kind)) else .ok ()

namespace Table

variable (tbl : Table)

/-- The primitive type that a box contains; boxes are known by their names. -/
def unboxed? : Ty → Option Primitive
  | .declared c _ _ _ => Primitive.all.find? fun p => CoreLibrary.boxName p == (tbl.cls c).name
  | _ => none

def boxOf (p : Primitive) : Ty :=
  .declared (tbl.core.box p) [] none []

section Step

variable (fuel : Nat) (check : Relation → Ty → Ty → Result Bool)

def checkPrimitive (rel : Relation) (s t : Ty) : Result Bool :=
  match s, t with
  | .primitive p _, .primitive q _ => return p.widensTo q
  | .primitive p _, t =>
    if rel = .assignable && !t.isNoType then check rel (tbl.boxOf p) t else return false
  | s, .primitive q _ =>
    if rel = .assignable then return (tbl.unboxed? s).any fun p => p.widensTo q else return false
  | _, _ => return false

def checkArray (rel : Relation) (component t : Ty) : Result Bool :=
  match t with
  | .array target _ =>
    if component.isPrimitive || target.isPrimitive then return component.same target
    else check rel component target
  | .declared c _ _ _ => return tbl.isArraySupertype c
  | _ => return false

/-- Whether two types satisfy the strict relation; both must be types of values. -/
def checkStrict (s t : Ty) : Result Bool := do
  s.requireType
  t.requireType
  check .subtype s t

/-- Whether a type argument contains another. A wildcard contains every argument whose bounds lie
within its own, and any other argument only the same type. -/
def checkContains (s t : Ty) : Result Bool := do
  s.requireType
  t.requireType
  match s, t with
  | .wildcard _ upper lower _, .wildcard _ upper' lower' _ =>
    if ← checkStrict check upper' upper then checkStrict check lower lower' else return false
  | .wildcard _ upper lower _, t =>
    if ← checkStrict check t upper then checkStrict check lower t else return false
  | s, t => return s.isSameType t

/-- Two parameterizations of one class: the arguments of the second contain those of the first, and
the owners are related. -/
def checkParameterization (rel : Relation) (args : List Ty) (owner : Option Ty) (args' : List Ty)
    (owner' : Option Ty) : Result Bool := do
  if !args'.isEmpty && args.isEmpty then return rel = .assignable
  else if ← (args'.zip args).allM fun (t, s) => checkContains check t s then
    match owner, owner' with
    | some s, some t => check rel s t
    | _, _ => return true
  else return false

def checkDeclared (rel : Relation) (s : Ty) (c : ClassId) (c' : ClassId) (args' : List Ty)
    (owner' : Option Ty) : Result Bool := do
  if ← tbl.isSubclassOf c c' then
    match ← tbl.resolveSupertype fuel s c' with
    | some (.declared _ args owner _) => checkParameterization check rel args owner args' owner'
    | _ => return false
  else return false

/-- Whether the first type lies below the lower bound of the second, if that is a captured variable
or a wildcard. -/
def checkLower (rel : Relation) (s t : Ty) : Result Bool :=
  match t with
  | .captured _ _ _ lower _ => check rel s lower
  | .wildcard _ _ lower _ => check rel s lower
  | _ => return false

/-- A type below another, by the form of the first. -/
def checkUpper (rel : Relation) (s t : Ty) : Result Bool :=
  match s, t with
  | .var _ v _, t => do check rel (← tbl.upperBound v) t
  | .captured _ _ upper _ _, t => check rel upper t
  | .wildcard _ upper _ _, t => check rel upper t
  | .array component _, t => tbl.checkArray check rel component t
  | .declared c args owner marks, .declared c' args' owner' _ =>
    tbl.checkDeclared fuel check rel (.declared c args owner marks) c c' args' owner'
  | _, _ => return false

/-- Two types that are neither intersections nor unions. A wildcard is not related to an equal
wildcard as such. -/
def checkSimple (rel : Relation) (s t : Ty) : Result Bool := do
  if !s.isWildcard && s.same t then return true
  else if s.isPrimitive || t.isPrimitive then tbl.checkPrimitive check rel s t
  else if s.isNoType || t.isNoType then return false
  else if s.isNull || tbl.isObject t then return true
  else if ← checkLower check rel s t then return true
  else tbl.checkUpper fuel check rel s t

/-- One step of the check. One and the same occurrence is related to itself. A type is below an
intersection when it is below all bounds, and below a union when it is below some alternative; a
union is below a type when all alternatives are, and an intersection when some bound is. -/
def checkStep (rel : Relation) (s t : Ty) : Result Bool :=
  if s.isSameOccurrence t then return true
  else
    match s, t with
    | s, .intersection _ bounds => bounds.allM (check rel s)
    | .union _ alternatives, t => alternatives.allM fun a => check rel a t
    | .intersection _ bounds, t => bounds.anyM fun b => check rel b t
    | s, .union _ alternatives => alternatives.anyM (check rel s)
    | s, t => tbl.checkSimple fuel check rel s t

end Step

/-- Whether two types are related, within a budget of steps. -/
def check : Nat → Relation → Ty → Ty → Result Bool
  | 0, _, _, _ => throw .exhausted
  | fuel + 1, rel, s, t => tbl.checkStep fuel (check fuel) rel s t

/-- Whether the first type is a subtype of the second. -/
def isSubtype (fuel : Nat) (s t : Ty) : Result Bool := do
  s.requireType
  t.requireType
  tbl.check fuel .subtype s t

/-- Whether a value of the first type can be assigned to a variable of the second. -/
def isAssignable (fuel : Nat) (s t : Ty) : Result Bool := do
  s.requireType
  t.requireType
  tbl.check fuel .assignable s t

/-- Whether the first type argument contains the second. -/
def contains (fuel : Nat) (s t : Ty) : Result Bool :=
  checkContains (tbl.check fuel) s t

end Table

end NominalTypes
