import NominalTypes.Element.Type
import NominalTypes.Ty.Supertype

/-!
# Members seen from a type

Seen as a member of a type, a declaration has its type with the arguments of that type in place of
the type parameters of the class that declares it.
-/

namespace NominalTypes.Table

variable (tbl : Table)

/-- The class that declares a member; a top-level class is declared by none. -/
def declaringClass (x : Element) : Result (Option ClassId) :=
  match x with
  | .type c => return (tbl.cls c).enclosing
  | .executable e => return some e.cls
  | .parameter p => return some p.executable.cls
  | .field f => return some f.cls
  | .typeParameter ⟨.cls c, _⟩ => return some c
  | .typeParameter ⟨.executable e, _⟩ => return some e.cls
  | x => throw (.kind (.neverAMember (tbl.shownElement x)))

/-- The direct supertype that an anonymous class refines: its interface, or else its superclass. -/
def refinedType (c : ClassId) : Result Ty := do
  match ← tbl.interfaceTypes c with
  | t :: _ => return t
  | [] => tbl.superclassType c

/-- The type of a member under a mapping of the type parameters of its class. An anonymous class is
seen as the type that it refines, and any other class as itself. -/
def memberTypeUnder (m : Mapping) : Element → Result Ty
  | .type c => do
    if (tbl.cls c).nesting == .anonymous then tbl.substitute m (← tbl.refinedType c)
    else return tbl.selfType c
  | x => do tbl.substitute m (← tbl.typeOf x)

/-- The class above a declared type that declares an element as its member. -/
def memberDeclarer (t : Ty) (x : Element) : Result ClassId :=
  match t with
  | .declared c _ _ _ => do
    let refuse {α : Type} : Result α := do
      throw (.notAMember (tbl.shownElement x) (← tbl.typeName t))
    match ← tbl.declaringClass x with
    | none => refuse
    | some declarer => if ← tbl.isSubclassOf c declarer then return declarer else refuse
  | t => throw (.kind (.notAContainer t.kind))

/-- The type of a member, where `s` is how the containing type parameterizes the class that declares
the member. -/
def memberTypeThrough (s : Option Ty) (x : Element) : Result Ty := do
  let m ←
    match s with
    | some s => tbl.typeMapping s
    | none => pure []
  tbl.memberTypeUnder m x

def memberType (fuel : Nat) (t : Ty) (x : Element) : Result Ty := do
  let declarer ← tbl.memberDeclarer t x
  tbl.memberTypeThrough (← tbl.resolveSupertype fuel t declarer) x

end NominalTypes.Table
