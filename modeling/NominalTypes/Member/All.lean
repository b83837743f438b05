import NominalTypes.Element.Type
import NominalTypes.Ty.Bounds

/-!
# All members of a class

The members of a class are those that it declares and those of the classes above it, in
breadth-first order. A member masks those of more distant classes with the same key: fields and
member classes go by name, executables by name and erased parameters.
-/

namespace NominalTypes.Table

variable (tbl : Table)

/-- The erased types of the parameters of an executable. -/
def erasedParameters (fuel : Nat) (e : ExecutableId) : Result (List Ty) := do
  (tbl.parametersOf e).mapM fun p => do tbl.erase fuel (← tbl.typeOf (.parameter p))

/-- The members that are not masked by earlier ones with the same key. -/
def unmasked {α κ : Type} (key : α → Result κ) (same : κ → κ → Bool) (members : List α) :
    Result (List α) := do
  let keyed ← members.mapM fun x => return (← key x, x)
  let kept : List (κ × α) := keyed.foldl
    (fun kept e => if kept.any fun f => same f.1 e.1 then kept else kept ++ [e]) []
  return kept.map (·.2)

/-- The executables that are not masked by earlier ones with the same name and erased parameters. -/
def unmaskedExecutables (fuel : Nat) (es : List ExecutableId) : Result (List ExecutableId) :=
  let key (e : ExecutableId) : Result (Name × List Ty) := do
    let parameters ← tbl.erasedParameters fuel e
    (tbl.executable e).name.requireKey
    return ((tbl.executable e).name, parameters)
  unmasked key (fun k l => k.1 == l.1 && Ty.sameAll k.2 l.2) es

/-- The executables that are not masked by earlier ones with the same erased parameters. -/
def unmaskedConstructors (fuel : Nat) (es : List ExecutableId) : Result (List ExecutableId) :=
  unmasked (tbl.erasedParameters fuel) Ty.sameAll es

/-- The things that are not masked by earlier ones with the same name. -/
def unmaskedByName {α : Type} (name : α → Name) (members : List α) : Result (List α) :=
  let key (x : α) : Result Name := do
    (name x).requireKey
    return name x
  unmasked key (· == ·) members

/-- The members of a class: fields, constructors, methods, and member classes. -/
def members (fuel : Nat) (x : Element) : Result (List Element) :=
  match x with
  | .type c => do
    let classes ← tbl.hierarchy c
    let fields ← unmaskedByName (fun f => (tbl.field f).name) (classes.flatMap tbl.fieldsOf)
    let constructors ← tbl.unmaskedConstructors fuel (classes.flatMap tbl.constructorsOf)
    let methods ← tbl.unmaskedExecutables fuel (classes.flatMap tbl.methodsOf)
    let nested ← unmaskedByName (fun m => (tbl.cls m).simpleName)
      (classes.flatMap fun c => (tbl.cls c).memberClasses)
    return fields.map .field ++ constructors.map .executable ++ methods.map .executable ++
      nested.map .type
  | x => throw (.kind (.noMembers (tbl.shownElement x)))

end NominalTypes.Table
