import NominalTypes.Member.View
import NominalTypes.Member.Visibility
import NominalTypes.Ty.Subsignature

/-!
# Overriding

An instance method overrides another as a member of a class that has both: it is declared below the
other, or in a class while the other belongs to an interface; its signature, seen from the class, is
a subsignature of the other's; and the other is visible from the class that declares it.
-/

namespace NominalTypes.Table

variable (tbl : Table)

/-- Whether methods of the first class can override methods of the second in a class below both. -/
def canOverride (c overriddenIn : ClassId) : Result Bool := do
  if ← tbl.isSubclassOf c overriddenIn then return true
  else return !(tbl.cls c).isInterface && (tbl.cls overriddenIn).isInterface

/-- Whether the first method overrides the second as a member of a class, both being instance
methods of one name. -/
def overridesIn (fuel : Nat) (m overridden : ExecutableId) (c : ClassId) : Result Bool := do
  if !(← tbl.isSubclassOf c m.cls) then return false
  else if !(← tbl.isSubclassOf c overridden.cls) then return false
  else if !(← tbl.canOverride m.cls overridden.cls) then return false
  else
    let s ← tbl.memberType fuel (tbl.selfType c) (.executable m)
    let t ← tbl.memberType fuel (tbl.selfType c) (.executable overridden)
    if ← tbl.isSubsignature fuel s t then tbl.isMethodVisible fuel overridden m.cls
    else return false

/-- Whether two executables are different instance methods of one name. -/
def areInstanceMethods (m n : ExecutableId) : Bool :=
  !m.isConstructor && !n.isConstructor && m != n &&
    (tbl.executable m).name.same (tbl.executable n).name &&
    !(tbl.executable m).isStatic && !(tbl.executable n).isStatic

/-- Whether the first element overrides the second as a member of a class; only methods do. -/
def overrides (fuel : Nat) (overrider overridden container : Element) : Result Bool :=
  match overrider, overridden with
  | .executable m, .executable o =>
    if tbl.areInstanceMethods m o then
      match container with
      | .type c => tbl.overridesIn fuel m o c
      | _ => throw .unsuitable
    else return false
  | _, _ => return false

end NominalTypes.Table
