import NominalTypes.Ty.Subtyping

/-!
# Direct and proper supertypes

Every type has its direct supertypes; going up from them in breadth-first order gives all its proper
supertypes, the nearest first. The supertypes of a union come from its least upper bound, which is a
parameter here.
-/

namespace NominalTypes

def Primitive.next? : Primitive → Option Primitive
  | .byte => some .short
  | .short => some .int
  | .char => some .int
  | .int => some .long
  | .long => some .float
  | .float => some .double
  | .double => none
  | .boolean => none

namespace Table

variable (tbl : Table) {m : Type → Type} [Monad m] [MonadLiftT Result m]
  (lub : List Ty → m (List Ty)) (fuel : Nat)

/-- What every array of primitive values, and every array of the root class, has above it. -/
def arrayRoots : List Ty :=
  [tbl.core.object, tbl.core.cloneable, tbl.core.serializable].map fun c => .declared c [] none []

/-- The types directly above a type, where `lub` gives least upper bounds. -/
def typesAboveWith : Ty → m (List Ty)
  | .intersection _ bounds => return bounds
  | .union _ alternatives => do
    match ← lub alternatives with
    | [] => return []
    | [t] => return [t]
    | bounds => return [← makeIntersection bounds]
  | .primitive p _ => return p.next?.toList.map fun q => .primitive q []
  | .declared c args owner _ => tbl.declaredSupertypes fuel c args owner
  | .array component _ => do
    if component.isPrimitive || tbl.isObject component then return tbl.arrayRoots
    else (← typesAboveWith component).mapM fun s => makeArray s.orUpper []
  | .var _ v _ => tbl.boundsOf v
  | .captured _ _ upper _ _ => return [upper]
  | .wildcard _ upper _ _ => return [upper]
  | .none => return []
  | .void _ => return []
  | .null => return []
  | t => failWith (.kind (.noSupertypes t.kind))

/-- The direct supertypes of a type, numbered. -/
def directSupertypesWith [Numbering m] (t : Ty) : m (List Ty) := do
  (← tbl.typesAboveWith lub fuel t).mapM Numbering.number

/-- Where no track is kept of occurrences, the direct supertypes are the types directly above. -/
theorem directSupertypesWith_eq_typesAboveWith (lub : List Ty → Result (List Ty)) (t : Ty) :
    tbl.directSupertypesWith lub fuel t = tbl.typesAboveWith lub fuel t := by
  simp only [directSupertypesWith]
  cases h : tbl.typesAboveWith lub fuel t with
  | error e => rfl
  | ok ts => simp [bind, Except.bind]

/-- Expands the queue in breadth-first order, each type once; `seen` holds the types met already,
the last one first. Asking for the types `direct`ly above one may also have effects, and the number
bounds how often that is done. -/
def expandSupertypes (direct : Ty → m (List Ty)) : Nat → List Ty → List Ty → m (List Ty)
  | fuel, queue, seen =>
    match fuel, queue.dropWhile fun t => t.isIn seen with
    | _, [] => return seen.reverse
    | 0, _ :: _ => failWith .exhausted
    | fuel + 1, t :: queue => do
      let above ← direct t
      expandSupertypes direct fuel (queue ++ above) (t :: seen)

/-- A type and its proper supertypes, the nearest first, without repetitions. -/
def ancestorsWith [Numbering m] (t : Ty) : m (List Ty) := do
  let direct := tbl.directSupertypesWith lub fuel
  expandSupertypes direct fuel (← direct t) [t]

end Table

end NominalTypes
