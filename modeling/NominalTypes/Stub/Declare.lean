import NominalTypes.Signature.TypeParameter
import NominalTypes.Stub.Annotations

/-!
# Declaring the classes of a document

The first pass over a document enters its classes, nested classes after the class around them, with
their names, flags, type parameters and enum constants. Supertypes, members and bounds are left to a
second pass, in which every class of the load has a name.
-/

namespace NominalTypes.Stub

/-- Changes the table, and answers or fails. What was changed before a failure stays changed. -/
abbrev Loading := ExceptT Error (StateM Table)

/-- A class that has been declared, with the entry that describes its body and the scope in which
the body is read. -/
structure Pending where
  cls : ClassId
  entry : Datum
  scope : Scope

def kindFlags : ClassKind → Result (List Flag)
  | .cls => .ok []
  | .interface => .ok [.isInterface, .isAbstract]
  | .enum => .ok [.isEnum]
  | .annotationType => .ok [.isAnnotationType, .isInterface, .isAbstract]
  | .primitive => .error .primitiveStub

/-- The full name of a class: within its package, within the class around it, or, for classes that
are no members, the binary name of the class around it with a number. -/
def fullName (tbl : Table) (path : PathId) (package : Name) (enclosing : Option ClassId)
    (nesting : Nesting) (simpleName : Name) : Result String :=
  match enclosing with
  | none =>
    if nesting ≠ .topLevel then .error (.structural (.notNested nesting.name simpleName.quoted))
    else .ok (package.qualify simpleName.shown)
  | some e =>
    if nesting = .member then .ok s!"{(tbl.cls e).name}.{simpleName.shown}"
    else
      let number := (tbl.localClasses path e).length + 1
      .ok s!"{tbl.binaryName e}${number}{simpleName.shown}"

/-- The declaration of a class as far as its entry alone determines it. -/
def classHeader (tbl : Table) (path : PathId) (package : PackageId) (enclosing : Option ClassId)
    (entry : Datum) : Result ClassDecl := do
  let kind ← choose "ClassKind" ClassKind.all ClassKind.name
    ((entry.get? "kind").getD (.text "class"))
  let usual := if enclosing.isSome then Nesting.member else Nesting.topLevel
  let nesting ← choose "Nesting" Nesting.all Nesting.name
    ((entry.get? "nesting").getD (.text usual.name))
  let simpleName : Name := ⟨(entry.get? "name").getD (.text "")⟩
  let name ← fullName tbl path (tbl.package package).name enclosing nesting simpleName
  if simpleName.isEmpty && nesting ≠ .anonymous then throw (.structural .unnamed)
  let flags := (← access entry).insertAll (← kindFlags kind)
  let flags := if kind = .enum && nesting = .member then flags.insert .isStatic else flags
  let parameters ← (← items entry "type_params").mapM fun d => do
    return ({ name := (← Signature.splitTypeParameter (← text d) tbl.words).1 } : TypeParameterDecl)
  return {
    name, simpleName, kind, nesting, enclosing
    package := some package
    access := flags
    typeParameters := parameters }

def enumConstant (c : ClassId) (name : Datum) : FieldDecl where
  name := ⟨name⟩
  type := .named c []
  access := Access.ofFlags [.isPublic, .isStatic, .isFinal, .isEnum]
  isEnumConstant := true

/-- The declaration of a class, as far as it is known before the class is entered. In the unnamed
package the name that the entry gives is the full name, and has to be text. -/
def checkedHeader (tbl : Table) (path : PathId) (package : PackageId) (enclosing : Option ClassId)
    (entry : Datum) : Result ClassDecl := do
  unless entry.isObject do throw (.structural (.notATypeEntry entry))
  let header ← classHeader tbl path package enclosing entry
  if enclosing.isNone && (tbl.package package).name.isEmpty then
    let _ ← text ((entry.get? "name").getD (.text ""))
  return header

/-- Makes a class that is a member known to the class around it. -/
def attachMember (enclosing : Option ClassId) (nesting : Nesting) (c : ClassId) : Loading Unit :=
  match enclosing with
  | some e =>
    if nesting = .member then
      modify fun tbl =>
        tbl.modifyClass e fun d => { d with memberClasses := d.memberClasses ++ [c] }
    else return ()
  | none => return ()

def declareOne (path : PathId) (package : PackageId) (entry : Datum) (enclosing : Option ClassId)
    (outer : Scope) : Loading Pending := do
  let header ← checkedHeader (← get) path package enclosing entry
  let (c, tbl) ← (← get).register path header
  set tbl
  attachMember enclosing header.nesting c
  let constants ← items entry "constants"
  modify fun tbl => tbl.modifyClass c fun d => { d with fields := constants.map (enumConstant c) }
  let tbl ← get
  let around : Scope :=
    { outer with
      typeVariables := if tbl.isStatic c then [] else outer.typeVariables
      context := none }
  return ⟨c, entry, around.insideClass tbl c⟩

/-- Enters a class and the classes nested in it, at most `fuel` deep, and gives them in the order of
the document. -/
def declare (path : PathId) (package : PackageId) :
    Nat → Datum → Option ClassId → Scope → Loading (List Pending)
  | 0, _, _, _ => throw .exhausted
  | fuel + 1, entry, enclosing, outer => do
    let made ← declareOne path package entry enclosing outer
    let inner ← (← items entry "types").mapM fun nested =>
      declare path package fuel nested (some made.cls) made.scope
    return made :: inner.flatten

end NominalTypes.Stub
