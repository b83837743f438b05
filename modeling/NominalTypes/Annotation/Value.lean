import NominalTypes.Annotation.Constant
import NominalTypes.Ty.Descriptor

/-!
# Annotations and their values

An annotation in use names attributes by text. Seen from outside, an annotation lists its values by
the attributes of its type, in the order in which the type declares them. An array holds values of
one category and no arrays.

## Main definitions

* `Annotation`, `AnnotationValue`: annotations and attribute values.
* `Table.resolveArgument`, `Table.resolveAnnotations`: the values behind written ones.
* `Table.valuesWithDefaults`: the values of all attributes that have one.
* `Table.valueText`, `Table.annotationText`: source text.
-/

namespace NominalTypes

/-- The value of an attribute. -/
inductive AnnotationValue where
  /-- A truth value, a number or text. -/
  | constant (value : Datum)
  | classLiteral (type : Ty)
  | enumConstant (f : FieldId)
  | nested (type : ClassId) (values : List (ExecutableId × AnnotationValue))
  | array (items : List AnnotationValue)
  deriving Inhabited

/-- An annotation with the values given explicitly. -/
structure Annotation where
  type : ClassId
  values : List (ExecutableId × AnnotationValue) := []
  deriving Inhabited

namespace Table

variable (tbl : Table)

/-! ### From written values -/

def constantValue (d : Datum) : Result AnnotationValue :=
  match d with
  | .bool _ => return .constant d
  | .int _ => return .constant d
  | .float _ => return .constant d
  | .text _ => return .constant d
  | d => throw (.value (.unsupported d))

def literalType (c : ClassId) : Result Ty :=
  if (tbl.cls c).isPrimitive then tbl.primitiveType c [] else return .declared c [] none []

/-- The category of an array item. All items of an array have the same. -/
def category : AnnotationValue → Result String
  | .constant d => return d.sort
  | .classLiteral _ => return "class"
  | .enumConstant f => return "enum " ++ (tbl.cls f.cls).name
  | .nested type _ => return "annotation " ++ tbl.qualifiedName type
  | .array _ => throw (.value .nestedArrays)

def arrayValue (items : List AnnotationValue) : Result AnnotationValue := do
  match (← items.mapM tbl.category).eraseDups with
  | _ :: _ :: _ => throw (.value .mixedArray)
  | _ => return .array items

/-- The names among the given ones that are no attributes of the type, in alphabetical order. -/
def unknownAttributes (type : ClassId) (names : List String) : List String :=
  let known := (tbl.cls type).methods.map (·.name)
  sortTexts (names.filter fun name => !known.contains (Name.text name))

/-- Lists values by attribute, in the order in which the type declares its attributes. -/
def byAttribute (type : ClassId) (values : List (String × Result AnnotationValue)) :
    Result (List (ExecutableId × AnnotationValue)) := do
  (tbl.cls type).methods.forM fun m => m.name.requireKey
  match tbl.unknownAttributes type (values.map (·.1)) with
  | [] =>
    let given := (tbl.methodsOf type).filterMap fun m =>
      (values.find? fun v => (tbl.executable m).name == v.1).map fun v => (m, v.2)
    given.mapM fun (m, value) => return (m, ← value)
  | names => throw (.structural (.unknownAttributes (tbl.cls type).name names))

mutual

def resolveArgument : Argument → Result AnnotationValue
  | .datum d => constantValue d
  | .classLiteral c => return .classLiteral (← tbl.literalType c)
  | .enumConstant f => return .enumConstant f
  | .nested type values => return .nested type (← tbl.byAttribute type (resolveNamed values))
  | .array items => do tbl.arrayValue (← resolveArguments items)

def resolveArguments : List Argument → Result (List AnnotationValue)
  | [] => return []
  | a :: as => return (← resolveArgument a) :: (← resolveArguments as)

/-- The values behind written ones, each with the name of its attribute. -/
def resolveNamed : List (String × Argument) → List (String × Result AnnotationValue)
  | [] => []
  | (name, a) :: as => (name, resolveArgument a) :: resolveNamed as

end

def resolveUse (a : AnnotationUse) : Result Annotation :=
  return { type := a.type, values := ← tbl.byAttribute a.type (tbl.resolveNamed a.values) }

def resolveAnnotations (uses : List AnnotationUse) : Result (List Annotation) :=
  uses.mapM tbl.resolveUse

def defaultValue (e : ExecutableId) : Result (Option AnnotationValue) :=
  (tbl.executable e).defaultValue.mapM tbl.resolveArgument

/-- The values of an annotation together with the defaults of the other attributes, in the order in
which the type declares its attributes. -/
def valuesWithDefaults (a : Annotation) : Result (List (ExecutableId × AnnotationValue)) := do
  let values ← (tbl.methodsOf a.type).mapM fun m => do
    match a.values.lookup m with
    | some value => return [(m, value)]
    | none => return ((← tbl.defaultValue m).map fun value => (m, value)).toList
  return values.flatten

/-! ### Source text -/

/-- An annotation with rendered values, each after the name of its attribute. -/
def annotationTextWith (type : ClassId) (values : List String) : String :=
  match values with
  | [] => tbl.markText type
  | values => tbl.markText type ++ "(" ++ ", ".intercalate values ++ ")"

mutual

def valueText : AnnotationValue → String
  | .constant d =>
    match constantLiteral d with
    | .ok text => text
    | .error _ => d.shown
  | .classLiteral t => tbl.typeText t ++ ".class"
  | .enumConstant f => (tbl.field f).name.shown
  | .nested type values => tbl.annotationTextWith type (namedTexts values)
  | .array items => "\x7b" ++ ", ".intercalate (valueTexts items) ++ "\x7d"

def valueTexts : List AnnotationValue → List String
  | [] => []
  | v :: vs => valueText v :: valueTexts vs

/-- The source texts of values with their attributes. -/
def namedTexts : List (ExecutableId × AnnotationValue) → List String
  | [] => []
  | (m, v) :: vs => ((tbl.executable m).name.shown ++ "=" ++ valueText v) :: namedTexts vs

end

def annotationText (a : Annotation) : String :=
  tbl.annotationTextWith a.type (tbl.namedTexts a.values)

end Table

end NominalTypes
