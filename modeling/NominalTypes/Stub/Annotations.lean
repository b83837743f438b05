import NominalTypes.Signature.Scope
import NominalTypes.Stub.Entry

/-!
# Annotations in stub documents

An annotation is the name of its type, or an object with the type and the values of attributes. A
value is a class literal `class`, an enum constant `enum` or a nested `annotation`, each an object
with that field, a list of values, or any other value as it is.
-/

namespace NominalTypes.Stub

variable (tbl : Table) (scope : Scope)

def withoutAt (name : String) : String :=
  match name.toList with
  | '@' :: rest => String.ofList rest
  | _ => name

/-- The part of a dotted name before its last dot. -/
def qualifier (name : String) : String :=
  ".".intercalate (Text.segments name).dropLast

def resolveAnnotationType (name : String) : Result ClassId := do
  match ← scope.resolveClass tbl name with
  | some c =>
    if (tbl.cls c).kind == .annotationType then return c
    else throw (.structural (.notAnAnnotationType name))
  | none => throw (.structural (.notAnAnnotationType name))

def resolveClassLiteral (name : String) : Result ClassId := do
  match ← scope.resolveClass tbl name with
  | some c => return c
  | none => throw (.structural (.unknownClassLiteral name))

/-- The enum constant with the given qualified name. -/
def resolveEnumConstant (name : String) : Result FieldId := do
  let constants :=
    match ← scope.resolveClass tbl (qualifier name) with
    | some c => tbl.fieldsOf c
    | none => []
  let isNamed (f : FieldId) :=
    (tbl.field f).isEnumConstant && (tbl.field f).name == Scope.lastSegment name
  match constants.find? isNamed with
  | some f => return f
  | none => throw (.structural (.unknownEnumConstant name))

def annotationEntry (entry : Datum) : Datum :=
  match entry with
  | .text name => .object [("type", .text name)]
  | entry => entry

/-- The values that an annotation entry gives to attributes. -/
def attributeEntries (entry : Datum) : Result (List (String × Datum)) :=
  match entry.get? "values" with
  | none => .ok []
  | some (.object fields) => .ok fields
  | some _ => .error (.shape .notObject)

mutual

/-- The value of an attribute; values are nested at most `fuel` deep. -/
def readArgument : Nat → Datum → Result Argument
  | 0, _ => .error .exhausted
  | fuel + 1, d =>
    match d with
    | .list items => return .array (← items.mapM (readArgument fuel))
    | .object _ =>
      match d.get? "class", d.get? "enum", d.get? "annotation" with
      | some (.text name), _, _ => return .classLiteral (← resolveClassLiteral tbl scope name)
      | _, some (.text name), _ => return .enumConstant (← resolveEnumConstant tbl scope name)
      | _, _, some nested => do
        let made ← readAnnotation fuel nested
        return .nested made.type made.values
      | _, _, none => return .datum d
    | d => return .datum d

/-- An annotation; values are nested at most `fuel` deep. -/
def readAnnotation : Nat → Datum → Result AnnotationUse
  | 0, _ => .error .exhausted
  | fuel + 1, d => do
    let entry := annotationEntry d
    let name := withoutAt (← nameOfType (← required entry "type" "annotation"))
    let c ← resolveAnnotationType tbl scope name
    let values ← (← attributeEntries entry).mapM fun (key, value) => do
      return (key, ← readArgument fuel value)
    return { type := c, values }

end

def argument (d : Datum) : Result Argument :=
  readArgument tbl scope (d.height + 1) d

def annotationOf (d : Datum) : Result AnnotationUse :=
  readAnnotation tbl scope (d.height + 1) d

def annotations (entry : Datum) : Result (List AnnotationUse) := do
  (← items entry "annotations").mapM (annotationOf tbl scope)

end NominalTypes.Stub
