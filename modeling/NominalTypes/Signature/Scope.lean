import NominalTypes.Declaration.Enclosing
import NominalTypes.Declaration.Hierarchy
import NominalTypes.Text.Dotted

/-!
# Scopes

A scope gives names their meaning: type variables, member classes of the classes around, classes of
the current package, imported classes, and the classes of `java.lang`. A name with dots is read as a
class and its members, or as a qualified name.
-/

namespace NominalTypes

/-- Where a name is read. -/
structure Scope where
  path : PathId
  package : Name := ""
  /-- What is imported, in the form in which documents list it. -/
  imports : List Datum := []
  /-- The type variables in scope by name; of two with one name the first counts. -/
  typeVariables : List (String × TypeVarId) := []
  context : Option ClassId := none
  deriving Inhabited

namespace Scope

variable (tbl : Table) (scope : Scope)

/-- The scope inside a declaration with type parameters of the given names, which shadow those
outside. -/
def withTypeParameters (g : GenericId) (names : List String) : Scope :=
  let inner := names.zipIdx.map fun (name, i) => (name, (⟨g, i⟩ : TypeVarId))
  { scope with typeVariables := inner.reverse ++ scope.typeVariables }

/-- The scope inside a class: its type parameters, and its member classes. -/
def insideClass (c : ClassId) : Scope :=
  { scope.withTypeParameters (.cls c) ((tbl.cls c).typeParameters.map (·.name)) with
    context := some c }

/-- The scope inside a class, which is built from the outside in: it begins with the package of the
outermost class that is not reached across a static one. -/
def ofClassIn (path : PathId) (imports : List Datum) (c : ClassId) : List ClassId → Scope
  | [] => insideClass tbl { path, imports, package := tbl.packageName c } c
  | e :: es =>
    if tbl.isStatic c then insideClass tbl { path, imports, package := tbl.packageName c } c
    else insideClass tbl (ofClassIn path imports e es) c

def ofClass (path : PathId) (imports : List Datum) (c : ClassId) : Scope :=
  ofClassIn tbl path imports c (tbl.enclosers c)

def ofExecutable (path : PathId) (imports : List Datum) (e : ExecutableId) : Scope :=
  (ofClass tbl path imports e.cls).withTypeParameters (.executable e)
    ((tbl.executable e).typeParameters.map (·.name))

def lastSegment (name : String) : String :=
  (Text.segments name).getLastD ""

/-- The package of an import on demand, `p.*`. -/
def onDemandPackage? (name : String) : Option String :=
  match name.toList.reverse with
  | '*' :: '.' :: rest => some (String.ofList rest.reverse)
  | _ => none

/-- The first member class of that name that one of the classes declares or inherits. -/
def memberOfEnclosers (name : String) : List ClassId → Result (Option ClassId)
  | [] => .ok none
  | c :: cs => do
    match ← tbl.inheritedMemberClass c name with
    | some m => return some m
    | none => memberOfEnclosers name cs

/-- The first imported class of that name. What is not text has no name that could be compared. -/
def importedClass (name : String) : List Datum → Result (Option ClassId)
  | [] => .ok none
  | .text i :: is =>
    match if lastSegment i == name then tbl.lookupType scope.path i else none with
    | some c => .ok (some c)
    | none => importedClass name is
  | _ :: _ => .error (.shape .notTypeText)

/-- The first class of that name in a package that is imported on demand. -/
def onDemandClass (name : String) : Option ClassId :=
  scope.imports.findSome? fun i =>
    (i.text?.bind onDemandPackage?).bind fun p => tbl.lookupType scope.path s!"{p}.{name}"

/-- The class that a simple name denotes outside the classes around: a class of the current package,
an imported class, a class imported on demand, a class of `java.lang`, or a class without package.
-/
def resolveOutside (name : String) : Result (Option ClassId) := do
  let lookup := tbl.lookupType scope.path
  match if scope.package.isEmpty then none else lookup (scope.package.qualify name) with
  | some here => return some here
  | none =>
    let single ← scope.importedClass tbl name scope.imports
    return ((single.or (scope.onDemandClass tbl name)).or (lookup s!"java.lang.{name}")).or
      (lookup name)

def resolveSimple (name : String) : Result (Option ClassId) := do
  let around :=
    match scope.context with
    | some c => c :: tbl.enclosers c
    | none => []
  match ← memberOfEnclosers tbl name around with
  | some m => return some m
  | none => scope.resolveOutside tbl name

/-- Reads a name as the longest known class that its first segments name, counting from `split` of
them down, and the members that the remaining segments name. -/
def resolveFront (segments : List String) : Nat → Result (Option ClassId)
  | 0 => .ok none
  | split + 1 =>
    match tbl.lookupType scope.path (".".intercalate (segments.take (split + 1))) with
    | some outer => tbl.memberPath outer (segments.drop (split + 1))
    | none => resolveFront segments split

/-- The segments after the first dot; a dot at the very end opens no segment. -/
def memberSegments : List String → List String
  | _ :: [""] => []
  | _ :: rest => rest
  | [] => []

/-- The class that a name denotes as a qualified name: the class of that name, or else a member of
the longest known class at its front. -/
def resolveQualified (name : String) : Result (Option ClassId) :=
  match tbl.lookupType scope.path name with
  | some found => .ok (some found)
  | none => scope.resolveFront tbl (Text.segments name) ((Text.segments name).length - 1)

/-- The class that a simple or qualified name denotes: a class in scope and its members, or else a
qualified name. -/
def resolveClass (name : String) : Result (Option ClassId) := do
  match ← scope.resolveSimple tbl ((Text.segments name).headD "") with
  | none => scope.resolveQualified tbl name
  | some start =>
    match ← tbl.memberPath start (memberSegments (Text.segments name)) with
    | none => scope.resolveQualified tbl name
    | some found => return some found

end Scope

end NominalTypes
