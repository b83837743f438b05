import NominalTypes.CoreLibrary.System
import NominalTypes.Element.Type
import NominalTypes.Session.Term
import NominalTypes.Ty.Capture
import NominalTypes.Ty.Occurrence

/-!
# Sessions

A session keeps what lives from one question to the next: the declarations, a stack of class paths
of which the top is the current one, the scope in which signature text is read, saved values, and
the numbers handed out to captures and occurrences. A question that fails keeps what it had changed
before.

Searches that may not end get a fixed budget of steps.
-/

namespace NominalTypes

/-- A value that a question answered, as far as terms can refer to it. -/
inductive Value where
  | type (t : Ty)
  | types (ts : List Ty)
  | arguments (ts : List Ty)
  | element (x : Element)
  /-- The answer that there is no such type or element. -/
  | nothing
  | other
  deriving Inhabited

/-- The state of a session. -/
structure Session where
  table : Table
  current : PathId
  /-- The class paths below the current one, the nearest first. -/
  below : List PathId := []
  package : Name := ""
  imports : List String := []
  /-- Where signature text is read. What the term denotes is found anew each time. -/
  context : Option ElementTerm := none
  saved : List (Name × Value) := []
  supply : CaptureSupply := {}
  occurrence : Nat := 1
  deriving Inhabited

/-- A question to a session: it may fail, and it may change the session either way. -/
abbrev SessionM := ExceptT Error (StateM Session)

namespace Session

/-- The names that are imported when nothing else is said. -/
def defaultImports : List String :=
  ["java.util.*", "java.util.function.*", "java.io.*"]

/-- A session with the core library and one empty class path on top of it. Names consist of the word
characters of Unicode 14. -/
def start : Session :=
  let (path, table) := Table.system.addPath { parent := some Table.systemPath }
  { table := { table with words := .unicode14 }, current := path, imports := defaultImports }

def budget : Nat :=
  3000

def ask {α : Type} (f : Table → Result α) : SessionM α := do
  match f (← get).table with
  | .ok a => return a
  | .error e => throw e

def view {α : Type} (f : Table → α) : SessionM α :=
  return f (← get).table

/-- Asks the table for a value and a new table, and keeps the new table. -/
def extend {α : Type} (f : Table → Result (α × Table)) : SessionM α := do
  let (a, table) ← ask f
  modify fun s => { s with table }
  return a

def number (t : Ty) : SessionM Ty :=
  modifyGet fun s =>
    let (t, next) := (t.number).run s.occurrence
    (t, { s with occurrence := next })

instance : Numbering SessionM where
  number := number

instance : MonadLift Result SessionM where
  monadLift r := ask fun _ => r

/-- Asks the table what it makes of types, keeping track of occurrences. -/
def askNumbered {α : Type} (f : Table → SessionM α) : SessionM α := do
  f (← get).table

def capture (t : Ty) : SessionM Ty := do
  match t.capture (← get).supply with
  | .ok (t, supply) =>
    modify fun s => { s with supply }
    return t
  | .error e => throw e

def save (register : Name) (value : Value) : SessionM Unit := do
  ask fun _ => register.requireKey
  modify fun s => { s with saved := (register, value) :: s.saved }

/-- The scope of an element: of a class or executable. Others have none. -/
def scopeOf (x : Element) : SessionM Scope := do
  let s ← get
  match x with
  | .type c => return Scope.ofClass s.table s.current (s.imports.map .text) c
  | .executable e => return Scope.ofExecutable s.table s.current (s.imports.map .text) e
  | _ => throw .unsuitable

/-- The scope of the given element, or without one that of the top level. -/
def scopeAt (within : Option Element) : SessionM Scope := do
  let s ← get
  match within with
  | some x => scopeOf x
  | none => return { path := s.current, package := s.package, imports := s.imports.map .text }

/-- Replaces the scope in which signature text is read. -/
def setScope (package : Name) (imports : List String) (context : Option ElementTerm) :
    SessionM Unit :=
  modify fun s => { s with package, imports, context }

/-- Changes the table, and keeps the changed table whether or not there is an answer. -/
def change {α : Type} (f : Table → Result α × Table) : SessionM α := do
  let (answer, table) := f (← get).table
  modify fun s => { s with table }
  match answer with
  | .ok a => return a
  | .error e => throw e

/-- Loads stub documents on the current class path. -/
def load (documents : List Datum) : SessionM (List ClassId) := do
  let path := (← get).current
  change fun tbl => tbl.load path documents

/-- Loads stub documents, given as JSON text, on the current class path. -/
def loadJson (text : String) : SessionM (List ClassId) := do
  let path := (← get).current
  change fun tbl => tbl.loadJson path text

/-- Puts an empty class path on the stack, on top of the current one or without a parent. -/
def pushPath (withParent : Bool) : SessionM Unit :=
  modify fun s =>
    let parent := if withParent then some s.current else none
    let (path, table) := s.table.addPath { parent }
    { s with table, current := path, below := s.current :: s.below }

def popPath : SessionM Unit := do
  match (← get).below with
  | path :: below => modify fun s => { s with current := path, below }
  | [] => throw .noSuchItem

/-- The package with the given name, which is made unless it is there. -/
def definePackage (name : Name) : SessionM PackageId := do
  let path := (← get).current
  extend fun tbl => do
    name.requireKey
    return tbl.definePackage path name

def setEnclosingExecutable (c : ClassId) (e : ExecutableId) : SessionM Unit :=
  modify fun s =>
    { s with
      table := s.table.modifyClass c fun d => { d with enclosingExecutable := some e } }

end Session

end NominalTypes
