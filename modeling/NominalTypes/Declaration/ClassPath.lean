import NominalTypes.Declaration.Basic

/-!
# Class paths

A class path answers for names. Its parent is asked first, so that no class path can shadow what its
ancestors register. A class is found by its canonical name, and also by its name with `$` in place
of dots between a class and its members.
-/

namespace NominalTypes

/-- Refuses a name by which nothing can be looked up. -/
def Name.requireKey (n : Name) : Result Unit :=
  if n.isKey then .ok () else .error (.shape .notText)

/-- The class that this registry alone has under the name, read exactly and then with every `$` as a
dot. -/
def ClassPath.ownType? (p : ClassPath) (name : String) : Option ClassId :=
  let find (n : String) := (p.types.find? (·.1 == n)).map (·.2)
  match find name with
  | some c => some c
  | none => if name.contains '$' then find (name.map fun c => if c == '$' then '.' else c) else none

/-- The package that this registry alone has under the name. -/
def ClassPath.ownPackage? (p : ClassPath) (name : Name) : Option PackageId :=
  (p.packages.find? (·.1 == name)).map (·.2)

namespace Table

variable (tbl : Table)

def systemPath : PathId :=
  ⟨0⟩

/-- A class path and its ancestors, the oldest first, going back at most `fuel` generations. -/
def pathChainWithin : Nat → PathId → List ClassPath
  | 0, p => [tbl.path p]
  | fuel + 1, p =>
    match (tbl.path p).parent with
    | some parent => pathChainWithin fuel parent ++ [tbl.path p]
    | none => [tbl.path p]

/-- A class path and its ancestors, the oldest first. -/
def pathChain (p : PathId) : List ClassPath :=
  tbl.pathChainWithin tbl.paths.size p

/-- The class that the class path has under the name; ancestors are asked first. -/
def lookupType (p : PathId) (name : String) : Option ClassId :=
  (tbl.pathChain p).findSome? (·.ownType? name)

/-- The class that the class path has under the name, which must exist. -/
def requireType (p : PathId) (name : String) : Result ClassId :=
  match tbl.lookupType p name with
  | some c => .ok c
  | none => .error (.typeNotFound name)

/-- The package that the class path has under the name; ancestors are asked first. -/
def lookupPackage (p : PathId) (name : Name) : Option PackageId :=
  (tbl.pathChain p).findSome? (·.ownPackage? name)

/-- Puts texts into alphabetical order and drops repetitions. -/
def sortTexts (texts : List String) : List String :=
  (texts.mergeSort Text.le).eraseReps

/-- The names of the packages that are visible from the class path, in order. -/
def packageNames (p : PathId) : Result (List Name) :=
  let names := (tbl.pathChain p).flatMap fun path => path.packages.toList.map (·.1)
  match Name.sorted? names with
  | some names => .ok names
  | none => .error (.shape .notText)

/-- Whether the class is a top-level class of the package with the given name. -/
def isClassOf (packageName : Name) (c : ClassId) : Bool :=
  let d := tbl.cls c
  d.nesting == .topLevel &&
    match d.package with
    | some p => (tbl.package p).name == packageName
    | none => false

/-- The top-level classes of a package that are visible from the class path, ordered by name. -/
def classesIn (p : PathId) (packageName : Name) : List ClassId :=
  let classes := (tbl.pathChain p).flatMap fun path =>
    (path.types.toList.map (·.2)).filter (tbl.isClassOf packageName)
  classes.mergeSort fun a b => Text.le (tbl.cls a).name (tbl.cls b).name

/-- The classes registered on the class path itself, in the order of registration. -/
def classesOn (p : PathId) : List ClassId :=
  (tbl.path p).types.toList.map (·.2)

/-- The classes of the class path itself that are declared inside a class other than as members. -/
def localClasses (p : PathId) (c : ClassId) : List ClassId :=
  (tbl.classesOn p).filter fun d =>
    (tbl.cls d).enclosing == some c && (tbl.cls d).nesting != .member

/-- The package with the given name, which is made on this class path unless it is visible from
it. -/
def definePackage (p : PathId) (name : Name) : PackageId × Table :=
  match tbl.lookupPackage p name with
  | some found => (found, tbl)
  | none =>
    let (made, tbl) := tbl.addPackage { name, path := some p }
    (made, tbl.modifyPath p fun path => { path with packages := path.packages.push (name, made) })

/-- Enters a class and registers it under its name, which must be free. -/
def register (p : PathId) (d : ClassDecl) : Result (ClassId × Table) :=
  match tbl.lookupType p d.name with
  | some _ => .error (.structural (.duplicateType d.name))
  | none =>
    let (made, tbl) := tbl.addClass d
    .ok (made, tbl.modifyPath p fun path => { path with types := path.types.push (d.name, made) })

end Table

end NominalTypes
