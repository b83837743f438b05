import NominalTypes.Declaration.Basic

/-!
# Type descriptors

A type descriptor denotes a use of a type. Descriptors are compared by structure, with two
exceptions: annotations do not count, and a captured type variable is determined by its token alone.

A variable, a wildcard, an intersection and a union also have an occurrence number, which tells
apart descriptors that are equal but were written down separately. Occurrence zero stands for a
descriptor that is the same occurrence as no other, not even as itself. Occurrences play no part in
equality.
-/

namespace NominalTypes

/-- A type descriptor. -/
inductive Ty where
  | primitive (p : Primitive) (annotations : List ClassId)
  /-- The absence of a type, such as the type around a top-level class. -/
  | none
  | void (annotations : List ClassId)
  | null
  | array (component : Ty) (annotations : List ClassId)
  /-- A class with its arguments, as a member of its owner. Classes that have no enclosing instance
  have no owner. Uses of a generic class without arguments are raw. -/
  | declared (cls : ClassId) (args : List Ty) (owner : Option Ty) (annotations : List ClassId)
  | var (occurrence : Nat) (v : TypeVarId) (annotations : List ClassId)
  | wildcard (occurrence : Nat) (upper lower : Ty) (annotations : List ClassId)
  /-- A variable that stands for a captured wildcard. It has the bounds and annotations of the
  wildcard, a token of its own, and the number of the capture. -/
  | captured (token site : Nat) (upper lower : Ty) (annotations : List ClassId)
  | intersection (occurrence : Nat) (bounds : List Ty)
  | union (occurrence : Nat) (alternatives : List Ty)
  | executable (e : ExecutableId) (typeVariables : List Ty) (result : Ty) (parameters : List Ty)
    (receiver : Ty) (thrown : List Ty)
  | package (p : PackageId)
  deriving Inhabited

namespace Ty

def kind : Ty → TypeKind
  | primitive p _ => .primitive p
  | none => .none
  | void _ => .void
  | null => .null
  | array _ _ => .array
  | declared _ _ _ _ => .declared
  | var _ _ _ => .typevar
  | wildcard _ _ _ _ => .wildcard
  | captured _ _ _ _ _ => .typevar
  | intersection _ _ => .intersection
  | union _ _ => .union
  | executable _ _ _ _ _ _ => .executable
  | package _ => .package

/-- The annotations of a type. Those of a captured wildcard are not annotations of the variable. -/
def annotations : Ty → List ClassId
  | primitive _ marks => marks
  | void marks => marks
  | array _ marks => marks
  | declared _ _ _ marks => marks
  | var _ _ marks => marks
  | wildcard _ _ _ marks => marks
  | _ => []

def isWildcard : Ty → Bool
  | wildcard _ _ _ _ => true
  | _ => false

def isPrimitive : Ty → Bool
  | primitive _ _ => true
  | _ => false

def isNull : Ty → Bool
  | null => true
  | _ => false

/-- Whether the type is `none` or `void`. -/
def isNoType : Ty → Bool
  | none => true
  | void _ => true
  | _ => false

/-- Whether the type describes an executable or a package, which are no types of values. -/
def isPseudo : Ty → Bool
  | executable _ _ _ _ _ _ => true
  | package _ => true
  | _ => false

/-- Whether the type is a reference type; wildcards and unions are not counted. -/
def isReference : Ty → Bool
  | array _ _ => true
  | declared _ _ _ _ => true
  | var _ _ _ => true
  | captured _ _ _ _ _ => true
  | null => true
  | intersection _ _ => true
  | _ => false

def isArgument : Ty → Bool
  | array _ _ => true
  | declared _ _ _ _ => true
  | var _ _ _ => true
  | captured _ _ _ _ _ => true
  | null => true
  | wildcard _ _ _ _ => true
  | _ => false

mutual

/-- Equality of types. Annotations and occurrences do not count, and captured variables are equal
when their tokens are. -/
def same : Ty → Ty → Bool
  | primitive p _, primitive q _ => p == q
  | none, none => true
  | void _, void _ => true
  | null, null => true
  | array s _, array t _ => same s t
  | declared c ss o _, declared d ts p _ => c == d && sameAll ss ts && sameOwner o p
  | var _ v _, var _ w _ => v == w
  | wildcard _ u l _, wildcard _ u' l' _ => same u u' && same l l'
  | captured m _ _ _ _, captured n _ _ _ _ => m == n
  | intersection _ ss, intersection _ ts => sameAll ss ts
  | union _ ss, union _ ts => sameAll ss ts
  | executable e vs r ps s ts, executable e' vs' r' ps' s' ts' =>
    e == e' && sameAll vs vs' && same r r' && sameAll ps ps' && same s s' && sameAll ts ts'
  | package p, package q => p == q
  | _, _ => false

/-- Equality of lists of types, in order. -/
def sameAll : List Ty → List Ty → Bool
  | [], [] => true
  | s :: ss, t :: ts => same s t && sameAll ss ts
  | _, _ => false

def sameOwner : Option Ty → Option Ty → Bool
  | .none, .none => true
  | some s, some t => same s t
  | _, _ => false

end

def isIn (t : Ty) (ts : List Ty) : Bool :=
  ts.any (same t)

/-- Whether two lists have the same types as members. -/
def sameMembers (ss ts : List Ty) : Bool :=
  ss.all (·.isIn ts) && ts.all (·.isIn ss)

/-- The types without repetitions; of equal ones the first is kept. -/
def distinct (ts : List Ty) : List Ty :=
  ts.foldl (fun kept t => if t.isIn kept then kept else kept ++ [t]) []

/-- The occurrence number of a type; types other than variables, wildcards, intersections and unions
have none. -/
def occurrence : Ty → Nat
  | var n _ _ => n
  | wildcard n _ _ _ => n
  | intersection n _ => n
  | union n _ => n
  | _ => 0

/-- Whether two types are one and the same occurrence. -/
def isSameOccurrence (s t : Ty) : Bool :=
  s.occurrence != 0 && s.occurrence == t.occurrence && s.kind == t.kind

def orUpper : Ty → Ty
  | wildcard _ upper _ _ => upper
  | t => t

def orLower : Ty → Ty
  | wildcard _ _ lower _ => lower
  | t => t

end Ty

/-- A declaration: of the table, or one that a capture brings with it. -/
inductive Element where
  | package (p : PackageId)
  | type (c : ClassId)
  | executable (e : ExecutableId)
  | field (f : FieldId)
  | parameter (p : ParameterId)
  | typeParameter (v : TypeVarId)
  /-- The declaration of the variables of one capture. -/
  | captureSite (site : Nat)
  /-- The type parameter behind a captured wildcard. -/
  | capturedParameter (token site : Nat) (upper lower : Ty) (annotations : List ClassId)
  deriving Inhabited

/-- Equality of declarations. Those behind captured wildcards are equal when their tokens are. -/
def Element.same : Element → Element → Bool
  | package p, package q => p == q
  | type c, type d => c == d
  | executable e, executable f => e == f
  | field f, field g => f == g
  | parameter p, parameter q => p == q
  | typeParameter v, typeParameter w => v == w
  | captureSite m, captureSite n => m == n
  | capturedParameter m _ _ _ _, capturedParameter n _ _ _ _ => m == n
  | _, _ => false

/-- The declaration behind a type, if it has one. -/
def Ty.element? : Ty → Option Element
  | declared c _ _ _ => some (.type c)
  | var _ v _ => some (.typeParameter v)
  | executable e _ _ _ _ _ => some (.executable e)
  | package p => some (.package p)
  | captured token site upper lower marks => some (.capturedParameter token site upper lower marks)
  | _ => Option.none

end NominalTypes
