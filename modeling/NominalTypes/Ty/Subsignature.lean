import NominalTypes.Ty.Bounds

/-!
# Subsignatures

The signature of an executable type is a subsignature of another's when the two have the same
parameters, the type parameters of the second renamed to those of the first, or when the first has
the parameters of the erasure of the second.
-/

namespace NominalTypes

/-- The type variables and the parameters of an executable type. -/
def Ty.signature (t : Ty) : Result (List Ty × List Ty) :=
  match t with
  | .executable _ vars _ parameters _ _ => .ok (vars, parameters)
  | t => .error (.kind (.notAnExecutable t.kind))

namespace Table

variable (tbl : Table)

/-- Gives the type variables of one signature to the type parameters of another. -/
def matchVariables (vars targets : List Ty) : Mapping :=
  (vars.zip targets).foldl
    (fun m e =>
      match e.1 with
      | .var _ v _ => m.insert v e.2
      | _ => m)
    []

def sameSignature (s t : List Ty × List Ty) : Result Bool := do
  if s.2.length ≠ t.2.length || s.1.length ≠ t.1.length then return false
  else
    let names := matchVariables t.1 s.1
    (s.2.zip t.2).allM fun (p, q) => return p.isSameType (← tbl.substitute names q)

/-- Whether the first executable type has a subsignature of the second. -/
def isSubsignature (fuel : Nat) (s t : Ty) : Result Bool := do
  let first ← s.signature
  let second ← t.signature
  if ← tbl.sameSignature first second then return true
  else tbl.sameSignature first (← (← tbl.erase fuel t).signature)

end Table

end NominalTypes
