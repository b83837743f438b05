import NominalTypes.Signature.Scope
import NominalTypes.Ty.Build

/-!
# Declarations as elements

An element is a declaration seen from outside: it has a kind, a simple name and modifiers, it is
declared in another element, and other elements are declared in it.
-/

namespace NominalTypes

/-- The kind of an element. -/
inductive ElementKind where
  | package
  | cls
  | interface
  | enum
  | annotationType
  | method
  | constructor
  | field
  | enumConstant
  | parameter
  | typeParameter
  | other
  deriving DecidableEq, Repr, Inhabited

namespace ElementKind

def name : ElementKind → String
  | package => "package"
  | cls => "class"
  | interface => "interface"
  | enum => "enum"
  | annotationType => "annotation_type"
  | method => "method"
  | constructor => "constructor"
  | field => "field"
  | enumConstant => "enum_constant"
  | parameter => "parameter"
  | typeParameter => "type_parameter"
  | other => "other"

def isClass (k : ElementKind) : Bool :=
  k == cls || k == enum

def isInterface (k : ElementKind) : Bool :=
  k == interface || k == annotationType

def ofClass : ClassKind → ElementKind
  | .cls => cls
  | .interface => interface
  | .enum => enum
  | .annotationType => annotationType
  | .primitive => other

end ElementKind

/-- The sort of an element, as messages name it. -/
def Element.sort : Element → String
  | .package _ => "PackageElement"
  | .type _ => "TypeElement"
  | .executable _ => "ExecutableElement"
  | .field _ => "VariableElement"
  | .parameter _ => "VariableElement"
  | .typeParameter _ => "TypeParameterElement"
  | .captureSite _ => "CaptureSiteElement"
  | .capturedParameter _ _ _ _ _ => "CapturedTypeParameterElement"

def GenericId.element : GenericId → Element
  | .cls c => .type c
  | .executable e => .executable e

namespace Table

variable (tbl : Table)

def elementKind : Element → ElementKind
  | .package _ => .package
  | .type c => .ofClass (tbl.cls c).kind
  | .executable e => if e.isConstructor then .constructor else .method
  | .field f => if (tbl.field f).isEnumConstant then .enumConstant else .field
  | .parameter _ => .parameter
  | .typeParameter _ => .typeParameter
  | .captureSite _ => .other
  | .capturedParameter _ _ _ _ _ => .typeParameter

/-- The unqualified name of an element; that of a package is the last segment of its name. -/
def simpleName : Element → Name
  | .package p => Scope.lastSegment (tbl.package p).name.shown
  | .type c => (tbl.cls c).simpleName
  | .executable e => (tbl.executable e).name
  | .field f => (tbl.field f).name
  | .parameter p => (tbl.parameter p).name
  | .typeParameter v => (tbl.typeVar v).name
  | .captureSite site => s!"capture-site#{site}"
  | .capturedParameter token _ _ _ _ => s!"capture#{token}"

def shownElement (x : Element) : String :=
  let name :=
    match x with
    | .package p => (tbl.package p).name.shown
    | .type c => (tbl.cls c).name
    | .executable e => (tbl.cls e.cls).name ++ "." ++ (tbl.executable e).name.shown
    | x => (tbl.simpleName x).shown
  s!"{x.sort}({name})"

/-- The element in which an element is declared; a package is declared in none. -/
def enclosingElement : Element → Result (Option Element)
  | .package _ => return none
  | .type c =>
    let d := tbl.cls c
    match d.enclosingExecutable, d.enclosing, d.package with
    | some e, _, _ => return some (.executable e)
    | none, some outer, _ => return some (.type outer)
    | none, none, some p => return some (.package p)
    | none, none, none => throw (.kind (.classWithoutPackage d.name))
  | .executable e => return some (.type e.cls)
  | .field f => return some (.type f.cls)
  | .parameter p => return some (.executable p.executable)
  | .typeParameter v => return some v.owner.element
  | .captureSite _ => return none
  | .capturedParameter _ site _ _ _ => return some (.captureSite site)

/-- The elements that are declared in an element: the classes of a package by name; the fields,
constructors, methods and member classes of a class. -/
def enclosedElements : Element → List Element
  | .package p =>
    match (tbl.package p).path with
    | some path => (tbl.classesIn path (tbl.package p).name).map .type
    | none => []
  | .type c =>
    (tbl.fieldsOf c).map .field ++ (tbl.constructorsOf c).map .executable ++
      (tbl.methodsOf c).map .executable ++ (tbl.cls c).memberClasses.map .type
  | _ => []

def accessOf : Element → Access
  | .type c => (tbl.cls c).access
  | .executable e => (tbl.executable e).access
  | .field f => (tbl.field f).access
  | .parameter p => (tbl.parameter p).access
  | _ => {}

def annotationUses : Element → List AnnotationUse
  | .package p => (tbl.package p).annotations
  | .type c => (tbl.cls c).annotations
  | .executable e => (tbl.executable e).annotations
  | .field f => (tbl.field f).annotations
  | .parameter p => (tbl.parameter p).annotations
  | _ => []

/-- The package in which an element is declared, looked for in at most `fuel` steps outwards;
`start` is the element that was asked for. -/
def packageFrom (start : Element) : Nat → Element → Result PackageId
  | _, .package p => return p
  | 0, _ => throw .exhausted
  | fuel + 1, x => do
    match ← tbl.enclosingElement x with
    | some outer => packageFrom start fuel outer
    | none => throw (.kind (.noPackage (tbl.shownElement start)))

/-- The package in which an element is declared; a package is its own. -/
def packageOf (fuel : Nat) (x : Element) : Result PackageId :=
  tbl.packageFrom x fuel x

/-- The class with the given name on a class path, unless it stands for a primitive type. -/
def typeElement? (path : PathId) (name : String) : Option Element :=
  ((tbl.lookupType path name).filter fun c => !(tbl.cls c).isPrimitive).map .type

/-- The package with the given name on a class path. -/
def packageElement? (path : PathId) (name : Name) : Option Element :=
  (tbl.lookupPackage path name).map .package

end Table

end NominalTypes
