import NominalTypes.Annotation.Value
import NominalTypes.Declaration.Hierarchy
import NominalTypes.Element.Basic

/-!
# Annotations present on elements

An annotation is present on the element on which it is written. Classes also inherit annotations of
their superclasses, as far as the annotation type asks for it and no nearer class has an annotation
of the same type.
-/

namespace NominalTypes.Table

variable (tbl : Table)

def annotationsOf (x : Element) : Result (List Annotation) :=
  tbl.resolveAnnotations (tbl.annotationUses x)

/-- Whether annotations of the type are inherited. -/
def isInheritedType (type : ClassId) : Bool :=
  (tbl.cls type).annotations.any fun a =>
    (tbl.cls a.type).name == "java.lang.annotation.Inherited"

/-- Adds the annotations that a class inherits from the next one above. -/
def addInherited (present : List Annotation) (above : List Annotation) : List Annotation :=
  above.foldl
    (fun present a =>
      if present.any (·.type == a.type) || !tbl.isInheritedType a.type then present
      else present ++ [a])
    present

/-- Adds the annotations inherited from the superclasses of a class. -/
def inheritAnnotations : Nat → List Annotation → ClassId → Result (List Annotation)
  | 0, _, _ => throw .exhausted
  | fuel + 1, present, c => do
    match ← tbl.rawSuperclass c with
    | none => return present
    | some above =>
      tbl.requireDeclaration above
      let written ← tbl.annotationsOf (.type above)
      inheritAnnotations fuel (tbl.addInherited present written) above

/-- The annotations present on an element, written or inherited. -/
def allAnnotations (fuel : Nat) (x : Element) : Result (List Annotation) := do
  let written ← tbl.annotationsOf x
  match x with
  | .type c =>
    if (tbl.elementKind x).isClass then tbl.inheritAnnotations fuel written c else return written
  | _ => return written

def isDeprecated (x : Element) : Result Bool :=
  return (← tbl.annotationsOf x).any fun a => tbl.qualifiedName a.type == "java.lang.Deprecated"

end NominalTypes.Table
