import NominalTypes.Member.View
import NominalTypes.Session.Element
import NominalTypes.Session.Value

/-!
# Supertypes in a session

A value that is no type has nothing above it.
-/

namespace NominalTypes.Session

def directSupertypes : Value → SessionM (List Ty)
  | .type t => askNumbered fun tbl => tbl.directSupertypes budget t
  | _ => return []

/-- The proper supertypes of a value, the nearest first, without repetitions. There is no looking
for those of a list. -/
def allSupertypes : Value → SessionM (List Ty)
  | .type t => askNumbered fun tbl => tbl.allSupertypes budget t
  | .types _ => throw (.shape .notText)
  | _ => return []

/-- One step up where there is no class to arrive at: declared types cannot be asked for it, and
nothing else leads to it. -/
def ascendNowhere : Ty → SessionM Ascent
  | .declared _ _ _ _ => throw .unsuitable
  | t => ask fun tbl => return .above (← tbl.upperBounds t)

/-- The supertype of a type that the given element declares; only classes declare supertypes. -/
def supertypeOf (t : Ty) (target : Option Element) : SessionM (Option Ty) :=
  match target with
  | some (.type c) => askNumbered fun tbl => tbl.resolveSupertype budget t c
  | _ => Table.climb ascendNowhere budget t

/-- The supertype of a value that the given element declares. -/
def resolveSupertype (v : Value) (target : Option Element) : SessionM (Option Ty) :=
  match v with
  | .type t => supertypeOf t target
  | _ => return none

def memberType (t : Ty) (x : Option Element) : SessionM Ty := do
  match t, x with
  | t, some x =>
    let declarer ← ask fun tbl => tbl.memberDeclarer t x
    let s ← supertypeOf t (some (.type declarer))
    ask fun tbl => tbl.memberTypeThrough s x
  | .declared _ _ _ _, none => throw (.kind (.neverAMember absent))
  | t, none => throw (.kind (.notAContainer t.kind))

end NominalTypes.Session
