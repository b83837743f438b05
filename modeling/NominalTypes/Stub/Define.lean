import NominalTypes.Signature.Reader
import NominalTypes.Stub.Declare

/-!
# Defining the bodies of classes

The second pass over a document reads the bounds of type parameters, the supertypes, the members and
the annotations of the declared classes, one class after the other. What has been read of a body is
visible to the names that are read after it.
-/

namespace NominalTypes.Stub

def parameterBounds (tbl : Table) (scope : Scope) (declaration : String) : Result (List Expr) := do
  match (← Signature.splitTypeParameter declaration tbl.words).2 with
  | some bounds => if bounds.isEmpty then return [] else Signature.parseBounds tbl scope bounds
  | none => return []

def types (tbl : Table) (scope : Scope) (entry : Datum) (key : String) : Result (List Expr) := do
  (← items entry key).mapM fun d => do Signature.parseType tbl scope (← typeText d)

/-! ### Executables -/

/-- The flags of an executable. Methods of interfaces are public, and abstract unless they are
default or static methods; private ones keep their flags. -/
def executableAccess (ofInterface isConstructor : Bool) (entry : Datum) : Result Access := do
  let keywords ← items entry "modifiers"
  let flags ← accessOfKeywords keywords
  let hasKeyword (keyword : String) := keywords.any fun d => d.text? == some keyword
  if !ofInterface || isConstructor then return flags
  else if hasKeyword "default" || hasKeyword "static" then return flags.insert .isPublic
  else if hasKeyword "private" then return flags
  else return flags.insertAll [.isPublic, .isAbstract]

/-- Whether the text of a parameter type ends with an ellipsis. -/
def isVariadic (type : String) : Bool :=
  ((Text.trimEnd type.toList).reverse.take 3) == ['.', '.', '.']

def parameterEntry (entry : Datum) : Datum :=
  match entry with
  | .text type => .object [("type", .text type)]
  | entry => entry

/-- The parameter at a place of a parameter list of the given length, and whether it is variadic. -/
def parameter (tbl : Table) (scope : Scope) (className : String) (name : Name)
    (count index : Nat) (d : Datum) : Result (ParameterDecl × Bool) := do
  let entry := parameterEntry d
  let type ← nameOfType (← required entry "type" className)
  if isVariadic type && index + 1 ≠ count then
    throw (.structural (.variadicNotLast s!"{className}.{name.shown}"))
  let parameterName : Name := ⟨(entry.get? "name").getD (.text s!"arg{index}")⟩
  let expr ← Signature.parseType tbl scope type
  let flags ← access entry
  let marks ← annotations tbl scope entry
  return ({ name := parameterName, type := expr, access := flags, annotations := marks },
    isVariadic type)

/-- The return type of an executable; constructors return nothing. -/
def returnType (tbl : Table) (scope : Scope) (isConstructor : Bool) (entry : Datum) :
    Result Expr := do
  if isConstructor then return .named (← tbl.requireType scope.path "void") []
  else
    Signature.parseType tbl scope (← typeText ((entry.get? "returns").getD (.text "void")))

def attributeDefault (tbl : Table) (scope : Scope) (entry : Datum) : Result (Option Argument) :=
  match entry.get? "default" with
  | none => return none
  | some .null => return none
  | some d => return some (← argument tbl scope d)

/-- The executable that an entry describes, which will be the given one. -/
def executable (tbl : Table) (outer : Scope) (id : ExecutableId) (name : Name) (entry : Datum) :
    Result ExecutableDecl := do
  unless entry.isObject do throw (.shape .notObject)
  let d := tbl.cls id.cls
  let flags ← executableAccess d.isInterface id.isConstructor entry
  let split ← (← items entry "type_params").mapM fun d => do
    let declaration ← text d
    return (declaration, (← Signature.splitTypeParameter declaration tbl.words).1)
  let names := split.map (·.2)
  let scope := outer.withTypeParameters (.executable id) names
  let bounds ← (split.map (·.1)).mapM (parameterBounds tbl scope)
  let result ← returnType tbl scope id.isConstructor entry
  let entries ← items entry "params"
  let parameters ← entries.zipIdx.mapM fun (p, i) =>
    parameter tbl scope d.name name entries.length i p
  let thrown ← types tbl scope entry "throws"
  let marks ← annotations tbl scope entry
  let defaultValue ← attributeDefault tbl scope entry
  return {
    name, thrown, defaultValue
    access := flags
    typeParameters := (names.zip bounds).map fun (name, bounds) => { name, bounds }
    returnType := result
    parameters := parameters.map (·.1)
    annotations := marks
    varargs := parameters.any (·.2) }

/-! ### Classes -/

def refine (c : ClassId) (f : ClassDecl → ClassDecl) : Loading Unit :=
  modify fun tbl => tbl.modifyClass c f

/-- Reads the bounds of the type parameters of a class. -/
def defineBounds (p : Pending) : Loading Unit := do
  (← texts p.entry "type_params").zipIdx.forM fun (declaration, i) => do
    let bounds ← parameterBounds (← get) p.scope declaration
    refine p.cls fun d =>
      { d with typeParameters := d.typeParameters.modify i fun v => { v with bounds } }

/-- The superclass of a class. Where none is written, classes have the root class, and enums the
enum class applied to themselves. -/
def superclass (tbl : Table) (p : Pending) : Result (Option Expr) := do
  let d := tbl.cls p.cls
  match p.entry.get? "superclass" with
  | some type => return some (← Signature.parseType tbl p.scope (← typeText type))
  | none =>
    if d.kind = .cls && d.name ≠ "java.lang.Object" then
      return some (.named (← tbl.requireType p.scope.path "java.lang.Object") [])
    else if d.kind = .enum then
      return some
        (.applied (← tbl.requireType p.scope.path "java.lang.Enum") [.named p.cls []] none [])
    else return none

/-- The interfaces of a class; annotation types have the interface of all annotations besides. -/
def interfaces (tbl : Table) (p : Pending) : Result (List Expr) := do
  let written ← types tbl p.scope p.entry "interfaces"
  if (tbl.cls p.cls).kind = .annotationType then
    let root ← tbl.requireType p.scope.path "java.lang.annotation.Annotation"
    return written ++ [.named root []]
  else return written

/-- A field of a class. Fields of interfaces are public, static and final. -/
def field (tbl : Table) (p : Pending) (entry : Datum) : Result FieldDecl := do
  let d := tbl.cls p.cls
  let name ← required entry "name" d.name
  let type ← required entry "type" d.name
  let flags ← access entry
  let expr ← Signature.parseType tbl p.scope (← typeText type)
  let marks ← annotations tbl p.scope entry
  return {
    name := ⟨name⟩
    type := expr
    access := if d.isInterface then flags.insertAll [.isPublic, .isStatic, .isFinal] else flags
    constant := (entry.get? "value").getD .null
    annotations := marks }

def visibility (d : ClassDecl) : Option String :=
  let choices := [(Flag.isPublic, "public"), (.isProtected, "protected"), (.isPrivate, "private")]
  choices.findSome? fun (flag, keyword) => if d.access.has flag then some keyword else none

/-- The entries for the constructors of a class. Where none are written, classes and enums have one
without parameters, as visible as the class; that of an enum is private unless the class says
otherwise. -/
def constructorEntries (d : ClassDecl) (entry : Datum) : Result (List Datum) :=
  let written := (entry.get? "constructors").getD .null
  match written with
  | .null =>
    if d.kind = .cls || d.kind = .enum then
      let fallback := if d.kind = .enum then some "private" else none
      let keywords := ((visibility d).or fallback).toList
      return [.object [("modifiers", .list (keywords.map .text))]]
    else return []
  | written => if written.isEmpty then return [] else items entry "constructors"

/-- Reads the bounds, the supertypes and the annotations of a class. -/
def defineHeader (p : Pending) : Loading Unit := do
  defineBounds p
  let above ← superclass (← get) p
  refine p.cls fun d => { d with superclass := above }
  let above ← interfaces (← get) p
  refine p.cls fun d => { d with interfaces := above }
  let marks ← annotations (← get) p.scope p.entry
  refine p.cls fun d => { d with annotations := marks }

def defineField (p : Pending) (entry : Datum) : Loading Unit := do
  let made ← field (← get) p entry
  refine p.cls fun d => { d with fields := d.fields ++ [made] }

def defineConstructor (p : Pending) (entry : Datum) : Loading Unit := do
  let tbl ← get
  let id : ExecutableId := ⟨p.cls, true, (tbl.cls p.cls).constructors.length⟩
  let made ← executable tbl p.scope id "<init>" entry
  refine p.cls fun d => { d with constructors := d.constructors ++ [made] }

def defineMethod (p : Pending) (entry : Datum) : Loading Unit := do
  let tbl ← get
  let name ← required entry "name" (tbl.cls p.cls).name
  let id : ExecutableId := ⟨p.cls, false, (tbl.cls p.cls).methods.length⟩
  let made ← executable tbl p.scope id ⟨name⟩ entry
  refine p.cls fun d => { d with methods := d.methods ++ [made] }

def define (p : Pending) : Loading Unit := do
  defineHeader p
  (← items p.entry "fields").forM (defineField p)
  (← constructorEntries ((← get).cls p.cls) p.entry).forM (defineConstructor p)
  (← items p.entry "methods").forM (defineMethod p)

end NominalTypes.Stub
