import NominalTypes.Member.Visibility
import NominalTypes.Ty.Subsignature

/-!
# Hiding

Fields hide visible fields of the classes above, parameters the fields of their own class too, and
static methods hide visible static methods with a subsignature. Member and local classes and type
parameters hide types of the same name in the scopes around; a type variable is hidden only from
within its own static context.
-/

namespace NominalTypes.Table

variable (tbl : Table)

/-- Whether declarations of a class hide a field; `own` says whether its own fields count. -/
def hidesField (hider : ClassId) (own : Bool) : Element → Result Bool
  | .field f => do
    if ← tbl.isSubclassOf hider f.cls then
      if f.cls = hider && !own then return false
      else return tbl.isFieldVisible (tbl.field f).access f.cls hider
    else return false
  | _ => return false

/-- Whether an executable hides another declaration. -/
def hidesMethod (fuel : Nat) (hider : ExecutableId) : Element → Result Bool
  | .executable hidden => do
    if hidden.isConstructor || hider.isConstructor then return false
    else if !(tbl.executable hider).isStatic || !(tbl.executable hidden).isStatic then return false
    else if ← tbl.isSubclassOf hider.cls hidden.cls then
      let s ← tbl.executableType hider
      let t ← tbl.executableType hidden
      if ← tbl.isSubsignature fuel s t then tbl.isMethodVisible fuel hidden hider.cls
      else return false
    else return false
  | _ => return false

/-- The class or executable immediately around a class. -/
def scopeAround (c : ClassId) : Option GenericId :=
  let d := tbl.cls c
  let enclosing := d.enclosing.map .cls
  match d.nesting with
  | .topLevel => enclosing
  | .member => enclosing
  | _ =>
    match d.enclosing with
    | some e =>
      if (tbl.cls e).nesting == .locally then enclosing
      else (d.enclosingExecutable.map .executable).or enclosing
    | none => d.enclosingExecutable.map .executable

def outerScope : GenericId → Option GenericId
  | .cls c => tbl.scopeAround c
  | .executable e => some (.cls e.cls)

def isStaticScope : GenericId → Bool
  | .cls c => tbl.isStatic c
  | .executable e => (tbl.executable e).isStatic

/-- Whether a scope is the one in which a hidden type is declared, or inherits from it. -/
def scopeMatches (scope : GenericId) (hidden : Option GenericId) : Result Bool :=
  match scope, hidden with
  | .cls c, some (.cls d) => tbl.isSubclassOf c d
  | scope, hidden => return some scope == hidden

/-- Whether going outwards from a scope meets the one in which a type is declared. A type variable
is not met across a static scope. -/
def meetsOutwards (isVariable : Bool) (hidden : Option GenericId) : Nat → GenericId → Result Bool
  | 0, _ => throw .exhausted
  | fuel + 1, scope => do
    if isVariable && tbl.isStaticScope scope then return false
    else
      match tbl.outerScope scope with
      | none => return false
      | some outer =>
        if ← tbl.scopeMatches outer hidden then return true
        else meetsOutwards isVariable hidden fuel outer

/-- Whether types declared in a scope hide a type of that name. -/
def hidesType (fuel : Nat) (start : GenericId) : Element → Result Bool
  | .type c => tbl.meetsOutwards false (tbl.scopeAround c) fuel start
  | .typeParameter v => tbl.meetsOutwards true (some v.owner) fuel start
  | _ => return false

/-- Whether a generic declaration is a top-level class. -/
def isTopLevel : GenericId → Bool
  | .cls c => (tbl.cls c).nesting == .topLevel
  | .executable _ => false

def hides (fuel : Nat) (hider hidden : Element) : Result Bool :=
  if hider.same hidden || !(tbl.simpleName hider).same (tbl.simpleName hidden) then return false
  else
    match hider with
    | .parameter p => tbl.hidesField p.executable.cls true hidden
    | .field f => tbl.hidesField f.cls false hidden
    | .executable e => tbl.hidesMethod fuel e hidden
    | .type c =>
      match (tbl.cls c).nesting with
      | .topLevel => return false
      | .anonymous => return false
      | _ => tbl.hidesType fuel (.cls c) hidden
    | .typeParameter v =>
      if tbl.isTopLevel v.owner then return false else tbl.hidesType fuel v.owner hidden
    | _ => return false

end NominalTypes.Table
