import NominalTypes.Session.Basic
import NominalTypes.Ty.Apply
import NominalTypes.Ty.Bounds
import NominalTypes.Ty.Shown

/-!
# Values in a session

A term for a type denotes a type as a rule, but it may also refer to a saved value that is no type:
a list of types, an element, or nothing. Questions about types are answered for such a value as for
a type that is in no relation to others but its own equality.
-/

namespace NominalTypes

/-- Equality of values; lists are equal item by item. -/
def Value.same : Value → Value → Bool
  | type s, type t => s.same t
  | types ss, types ts => Ty.sameAll ss ts
  | arguments ss, arguments ts => Ty.sameAll ss ts
  | element x, element y => x.same y
  | nothing, nothing => true
  | _, _ => false

/-- The value that an element is, or the lack of one. -/
def Value.ofElement? : Option Element → Value
  | some x => element x
  | none => nothing

/-- The value that a type is, or the lack of one. -/
def Value.ofType? : Option Ty → Value
  | some t => type t
  | none => nothing

def Table.shownValue (tbl : Table) : Value → String
  | .type t => tbl.typeText t
  | .types ts => "[" ++ ", ".intercalate (tbl.shownTypes ts) ++ "]"
  | .arguments ts => shownTuple (tbl.shownTypes ts)
  | .element x => tbl.shownElement x
  | _ => Datum.shown .null

namespace Session

def asType : Value → SessionM Ty
  | .type t => return t
  | _ => throw .unsuitable

/-- The type that a value is, unless there is nothing. -/
def asType? : Value → SessionM (Option Ty)
  | .type t => return some t
  | .nothing => return none
  | _ => throw .unsuitable

/-- The value with wildcards captured; only types have some. -/
def captureValue : Value → SessionM Value
  | .type t => return .type (← capture t)
  | v => return v

/-- The erasure of a value, which must be a type. -/
def erase : Value → SessionM Ty
  | .type t => ask fun tbl => tbl.erase budget t
  | v => ask fun tbl => throw (.erasure (.notAType (tbl.shownValue v)))

/-- The type that a value unboxes to; only types do. -/
def unboxedType : Value → SessionM Ty
  | .type t => ask fun tbl => tbl.unboxedType t
  | v => ask fun tbl => throw (.kind (.noUnboxedType (tbl.shownValue v)))

/-- The name of a value, which must be a type. -/
def nameOf : Value → SessionM Name
  | .type t => ask fun tbl => tbl.givenTypeName t
  | _ => throw .noSuchKey

/-- The element behind a value; only types have one. -/
def elementBehind : Value → Option Element
  | .type t => t.element?
  | _ => none

/-- The value with type parameters replaced; only types have some. -/
def substitute (entries : List (Option Element × Ty)) : Value → SessionM Value
  | .type t => return .type (← ask fun tbl => tbl.substituteEntries entries t)
  | v => return v

/-- The type by which a value takes part in a comparison. What is no type compares like a package
outside the table. -/
def operand : Value → SessionM Ty
  | .type t => do
    ask fun _ => t.requireType
    return t
  | _ => view fun tbl => .package ⟨tbl.packages.size⟩

def related (rel : Relation) (v w : Value) : SessionM Bool := do
  let s ← operand v
  let t ← operand w
  match v, w with
  | .type _, _ => ask fun tbl => tbl.check budget rel s t
  | _, .type _ => ask fun tbl => tbl.check budget rel s t
  | v, w => return v.same w

def isSameType : Value → Value → Bool
  | .type s, .type t => s.isSameType t
  | v, w => v.same w

/-- Whether the first value contains the second as a type argument. -/
def containsValue (v w : Value) : SessionM Bool :=
  match v, w with
  | .type s, .type t => ask fun tbl => tbl.contains budget s t
  | .type (.wildcard _ upper lower _), w => do
    if ← related .subtype w (.type upper) then related .subtype (.type lower) w else return false
  | v, w => do
    let _ ← operand v
    let _ ← operand w
    return isSameType v w

/-- The greatest lower bound of two values. Of values that are no types, one has to lie below the
other. -/
def greatestLowerBound (v w : Value) : SessionM Value := do
  match v, w with
  | .type s, .type t => return .type (← askNumbered fun tbl => tbl.greatestLowerBound budget s t)
  | v, w =>
    if ← related .subtype v w then return v
    else if ← related .subtype w v then return w
    else throw .unsuitable

end Session

end NominalTypes
