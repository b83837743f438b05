import NominalTypes.Document.Name
import NominalTypes.Error
import NominalTypes.Modifier
import NominalTypes.Text.Word

/-!
# Declarations

Packages, classes and their members are kept in a table and referred to by their places in it. Two
references denote the same declaration exactly when they are equal. A class may be refined after it
has been entered, so the declarations of a table can refer to one another in any order.

## Main definitions

* `Expr`: type expressions, as they are written in declarations.
* `ClassDecl`, `ExecutableDecl`, `FieldDecl`, `PackageDecl`: the declarations.
* `ClassPath`: a registry of names on top of a parent registry.
* `Table`: all declarations and registries.
-/

namespace NominalTypes

/-! ### References -/

/-- A reference to a class of the table. -/
structure ClassId where
  index : Nat
  deriving DecidableEq, Repr, Inhabited

/-- A reference to a package of the table. -/
structure PackageId where
  index : Nat
  deriving DecidableEq, Repr, Inhabited

/-- A reference to a class path of the table. -/
structure PathId where
  index : Nat
  deriving DecidableEq, Repr, Inhabited

/-- A reference to a field: its class, and its place among the fields of the class. -/
structure FieldId where
  cls : ClassId
  index : Nat
  deriving DecidableEq, Repr, Inhabited

/-- A reference to a constructor or method: its class, and its place among the constructors or the
methods of the class. -/
structure ExecutableId where
  cls : ClassId
  isConstructor : Bool
  index : Nat
  deriving DecidableEq, Repr, Inhabited

/-- A reference to a parameter: its executable, and its place among the parameters. -/
structure ParameterId where
  executable : ExecutableId
  index : Nat
  deriving DecidableEq, Repr, Inhabited

/-- A reference to a declaration that may have type parameters. -/
inductive GenericId where
  | cls (c : ClassId)
  | executable (e : ExecutableId)
  deriving DecidableEq, Repr, Inhabited

/-- A reference to a type parameter: the declaration it belongs to, and its place there. -/
structure TypeVarId where
  owner : GenericId
  index : Nat
  deriving DecidableEq, Repr, Inhabited

/-! ### Type expressions and annotations -/

/-- A type expression. The annotations on it name annotation types and carry no values. -/
inductive Expr where
  /-- A class without arguments, a primitive type, or `void`. -/
  | named (cls : ClassId) (annotations : List ClassId)
  | array (component : Expr) (annotations : List ClassId)
  /-- A class with arguments, or a member class of such a type. -/
  | applied (cls : ClassId) (args : List Expr) (owner : Option Expr) (annotations : List ClassId)
  | wildcard (upper lower : List Expr) (annotations : List ClassId)
  | var (v : TypeVarId) (annotations : List ClassId)
  | foreign (value : Datum)
  deriving Inhabited

/-- The value given to an attribute of an annotation. -/
inductive Argument where
  | datum (value : Datum)
  | classLiteral (c : ClassId)
  | enumConstant (f : FieldId)
  | nested (type : ClassId) (values : List (String × Argument))
  | array (items : List Argument)
  deriving Inhabited

/-- An annotation on a declaration, with the attribute values given explicitly. -/
structure AnnotationUse where
  type : ClassId
  values : List (String × Argument) := []
  deriving Inhabited

/-! ### Declarations -/

/-- The kind of a class. -/
inductive ClassKind where
  | cls
  | interface
  | enum
  | annotationType
  | primitive
  deriving DecidableEq, Repr, Inhabited

def ClassKind.name : ClassKind → String
  | .cls => "class"
  | .interface => "interface"
  | .enum => "enum"
  | .annotationType => "annotation"
  | .primitive => "primitive"

def ClassKind.all : List ClassKind :=
  [.cls, .interface, .enum, .annotationType, .primitive]

/-- Where a class is declared relative to other classes. -/
inductive Nesting where
  | topLevel
  | member
  | locally
  | anonymous
  deriving DecidableEq, Repr, Inhabited

def Nesting.name : Nesting → String
  | .topLevel => "top_level"
  | .member => "member"
  | .locally => "local"
  | .anonymous => "anonymous"

def Nesting.all : List Nesting :=
  [.topLevel, .member, .locally, .anonymous]

/-- A type parameter of a class or executable. -/
structure TypeParameterDecl where
  name : String
  bounds : List Expr := []
  deriving Inhabited

/-- A formal parameter of an executable. -/
structure ParameterDecl where
  name : Name
  type : Expr
  access : Access := {}
  annotations : List AnnotationUse := []
  deriving Inhabited

/-- A method or constructor. -/
structure ExecutableDecl where
  name : Name
  access : Access := {}
  typeParameters : List TypeParameterDecl := []
  returnType : Expr
  parameters : List ParameterDecl := []
  thrown : List Expr := []
  annotations : List AnnotationUse := []
  varargs : Bool := false
  /-- The default of an attribute of an annotation type. -/
  defaultValue : Option Argument := none
  deriving Inhabited

/-- A field or enum constant. -/
structure FieldDecl where
  name : Name
  type : Expr
  access : Access := {}
  isEnumConstant : Bool := false
  constant : Datum := .null
  annotations : List AnnotationUse := []
  deriving Inhabited

/-- A class, interface, enum or annotation type, or the stand-in for a primitive type or `void`. -/
structure ClassDecl where
  name : String
  simpleName : Name
  kind : ClassKind
  package : Option PackageId := none
  access : Access := {}
  nesting : Nesting := .topLevel
  enclosing : Option ClassId := none
  enclosingExecutable : Option ExecutableId := none
  typeParameters : List TypeParameterDecl := []
  superclass : Option Expr := none
  interfaces : List Expr := []
  fields : List FieldDecl := []
  constructors : List ExecutableDecl := []
  methods : List ExecutableDecl := []
  memberClasses : List ClassId := []
  annotations : List AnnotationUse := []
  deriving Inhabited

/-- Whether the class stands in for a primitive type or `void`. -/
def ClassDecl.isPrimitive (d : ClassDecl) : Bool :=
  d.kind == .primitive

/-- Whether the class is an interface; annotation types are. -/
def ClassDecl.isInterface (d : ClassDecl) : Bool :=
  d.kind == .interface || d.kind == .annotationType

/-- The full name of the class as it was given. A class without package was given no other name than
its simple name. -/
def ClassDecl.givenName (d : ClassDecl) : Name :=
  if d.package.isNone then d.simpleName else d.name

def ExecutableDecl.isStatic (d : ExecutableDecl) : Bool :=
  d.access.has .isStatic

/-- A package. A package that belongs to no class path has no classes. -/
structure PackageDecl where
  name : Name
  path : Option PathId := none
  annotations : List AnnotationUse := []
  deriving Inhabited

/-! ### The table -/

/-- A registry of classes and packages by name, in the order of registration. What its parent
registers comes first. -/
structure ClassPath where
  parent : Option PathId := none
  types : Array (String × ClassId) := #[]
  packages : Array (Name × PackageId) := #[]
  deriving Inhabited

/-- The classes that have a role in the rules of the language. -/
structure Core where
  object : ClassId := default
  cloneable : ClassId := default
  serializable : ClassId := default
  box : Primitive → ClassId := fun _ => default
  deriving Inhabited

/-- All declarations and class paths, and the characters that their names consist of. -/
structure Table where
  classes : Array ClassDecl := #[]
  packages : Array PackageDecl := #[]
  paths : Array ClassPath := #[]
  core : Core := {}
  words : Text.WordClass := .unicode15
  deriving Inhabited

namespace Table

variable (tbl : Table)

def cls (c : ClassId) : ClassDecl :=
  tbl.classes.getD c.index default

def package (p : PackageId) : PackageDecl :=
  tbl.packages.getD p.index default

def path (p : PathId) : ClassPath :=
  tbl.paths.getD p.index default

def field (f : FieldId) : FieldDecl :=
  (tbl.cls f.cls).fields.getD f.index default

def executable (e : ExecutableId) : ExecutableDecl :=
  let d := tbl.cls e.cls
  (if e.isConstructor then d.constructors else d.methods).getD e.index default

def parameter (p : ParameterId) : ParameterDecl :=
  (tbl.executable p.executable).parameters.getD p.index default

def typeParametersOf : GenericId → List TypeParameterDecl
  | .cls c => (tbl.cls c).typeParameters
  | .executable e => (tbl.executable e).typeParameters

def typeVar (v : TypeVarId) : TypeParameterDecl :=
  (tbl.typeParametersOf v.owner).getD v.index default

/-- References to the type parameters of a class or executable, in order. -/
def typeVars (g : GenericId) : List TypeVarId :=
  (List.range (tbl.typeParametersOf g).length).map fun i => ⟨g, i⟩

/-- References to the fields of a class, in order. -/
def fieldsOf (c : ClassId) : List FieldId :=
  (List.range (tbl.cls c).fields.length).map fun i => ⟨c, i⟩

/-- References to the constructors of a class, in order. -/
def constructorsOf (c : ClassId) : List ExecutableId :=
  (List.range (tbl.cls c).constructors.length).map fun i => ⟨c, true, i⟩

/-- References to the methods of a class, in order. -/
def methodsOf (c : ClassId) : List ExecutableId :=
  (List.range (tbl.cls c).methods.length).map fun i => ⟨c, false, i⟩

/-- References to the parameters of an executable, in order. -/
def parametersOf (e : ExecutableId) : List ParameterId :=
  (List.range (tbl.executable e).parameters.length).map fun i => ⟨e, i⟩

/-- Enters a class, and gives the reference to it. -/
def addClass (d : ClassDecl) : ClassId × Table :=
  (⟨tbl.classes.size⟩, { tbl with classes := tbl.classes.push d })

/-- Enters a package, and gives the reference to it. -/
def addPackage (d : PackageDecl) : PackageId × Table :=
  (⟨tbl.packages.size⟩, { tbl with packages := tbl.packages.push d })

/-- Enters a class path, and gives the reference to it. -/
def addPath (d : ClassPath) : PathId × Table :=
  (⟨tbl.paths.size⟩, { tbl with paths := tbl.paths.push d })

def modifyClass (c : ClassId) (f : ClassDecl → ClassDecl) : Table :=
  { tbl with classes := tbl.classes.modify c.index f }

def modifyPackage (p : PackageId) (f : PackageDecl → PackageDecl) : Table :=
  { tbl with packages := tbl.packages.modify p.index f }

def modifyPath (p : PathId) (f : ClassPath → ClassPath) : Table :=
  { tbl with paths := tbl.paths.modify p.index f }

end Table

end NominalTypes
