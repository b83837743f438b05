import NominalTypes.Document.Json
import NominalTypes.Stub.Define

/-!
# Loading stub documents

A stub document describes classes of one package. All documents of a load are gone through twice, so
that their classes may refer to one another. A load that fails has changed the table already; it
puts back what its class path registered before. The declarations that it made up to then stay in
the table, but nothing leads to them any more.
-/

namespace NominalTypes.Stub

/-- A document that has been gone through once: its package, the document, and the scope around its
classes. -/
structure Opened where
  package : PackageId
  document : Datum
  scope : Scope

def packageOf (document : Datum) : Result Name := do
  match document.get? "package" with
  | some d =>
    let name : Name := ⟨d⟩
    name.requireKey
    return name
  | none => throw (.structural .notADocument)

/-- Makes the package of a document and declares its classes. -/
def openDocument (path : PathId) (document : Datum) : Loading (Opened × List Pending) := do
  let name ← packageOf document
  let (package, tbl) := (← get).definePackage path name
  set tbl
  let imports ← items document "imports"
  let scope : Scope := { path, package := (tbl.package package).name, imports }
  let declared ← (← items document "types").mapM fun entry =>
    declare path package document.height entry none scope
  return (⟨package, document, scope⟩, declared.flatten)

/-- Goes through documents twice. The annotations of packages are read before the bodies of classes,
and are left to be attached after them. -/
def readDocuments (path : PathId) (documents : List Datum) :
    Loading (List (PackageId × List AnnotationUse) × List ClassId) := do
  let opened ← documents.mapM (openDocument path)
  let marks ← opened.mapM fun (o, _) => do
    return (o.package, ← annotations (← get) o.scope o.document)
  let pending := opened.flatMap (·.2)
  pending.forM define
  return (marks, pending.map (·.cls))

/-- Attaches annotations to a package, after those that it has. -/
def annotatePackage (package : PackageId) (uses : List AnnotationUse) : Loading Unit :=
  modify fun tbl =>
    tbl.modifyPackage package fun d => { d with annotations := d.annotations ++ uses }

/-- Loads documents into a class path, and gives the classes that were entered. -/
def loadDocuments (path : PathId) (documents : List Datum) : Loading (List ClassId) := do
  let (marks, classes) ← readDocuments path documents
  marks.forM fun (package, uses) => annotatePackage package uses
  return classes

/-- Puts back what a class path registers after a failure. -/
def rollingBack {α : Type} (path : PathId) (x : Loading α) : Loading α := do
  let before := (← get).path path
  tryCatch x fun e => do
    modify fun tbl =>
      tbl.modifyPath path fun p => { p with types := before.types, packages := before.packages }
    throw e

/-- The documents that JSON text holds: one document, or a list of them. -/
def documentsOfJson (text : String) : Result (List Datum) := do
  match ← Document.readJson text with
  | .list documents => return documents
  | .object fields => return [.object fields]
  | _ => throw (.structural .notDocuments)

end NominalTypes.Stub

namespace NominalTypes.Table

/-- Loads documents into a class path, all or nothing. Gives the classes that were entered or the
cause of the failure, and the changed table. -/
def load (tbl : Table) (path : PathId) (documents : List Datum) : Result (List ClassId) × Table :=
  (Stub.rollingBack path (Stub.loadDocuments path documents)).run.run tbl

/-- Loads the documents that JSON text holds, all or nothing. -/
def loadJson (tbl : Table) (path : PathId) (text : String) : Result (List ClassId) × Table :=
  (Stub.rollingBack path do Stub.loadDocuments path (← Stub.documentsOfJson text)).run.run tbl

end NominalTypes.Table
