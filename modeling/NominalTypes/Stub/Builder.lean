import NominalTypes.Document.Datum

/-!
# Writing stub documents

Records from which stub documents are put together. What a record leaves out takes its default, as
in a document in which the field is missing.
-/

namespace NominalTypes.Stub

/-- A parameter of an executable; without a name it is numbered. -/
structure ParameterStub where
  type : String
  name : Option String := none

instance : Coe String ParameterStub :=
  ⟨fun type => { type }⟩

/-- A method, or a constructor when it has no name. -/
structure ExecutableStub where
  name : String := ""
  returns : String := "void"
  params : List ParameterStub := []
  modifiers : List String := []
  typeParams : List String := []
  throws : List String := []

/-- A field. -/
structure FieldStub where
  name : String
  type : String
  modifiers : List String := []

/-- An annotation with at most one attribute value, which is an enum constant. -/
structure AnnotationStub where
  type : String
  value : Option String := none

instance : Coe String AnnotationStub :=
  ⟨fun type => { type }⟩

/-- A class. Its nested classes are given as entries. -/
structure ClassStub where
  name : String
  kind : String := "class"
  modifiers : List String := ["public"]
  typeParams : List String := []
  superclass : Option String := none
  interfaces : List String := []
  annotations : List AnnotationStub := []
  constants : List String := []
  fields : List FieldStub := []
  constructors : Option (List ExecutableStub) := none
  methods : List ExecutableStub := []
  types : List Datum := []

def textList (texts : List String) : Datum :=
  .list (texts.map .text)

def ParameterStub.entry (p : ParameterStub) : Datum :=
  match p.name with
  | some name => .object [("name", .text name), ("type", .text p.type)]
  | none => .text p.type

def ExecutableStub.entry (e : ExecutableStub) : Datum :=
  .object [("name", .text e.name), ("returns", .text e.returns),
    ("params", .list (e.params.map (·.entry))), ("modifiers", textList e.modifiers),
    ("type_params", textList e.typeParams), ("throws", textList e.throws)]

def FieldStub.entry (f : FieldStub) : Datum :=
  .object [("name", .text f.name), ("type", .text f.type), ("modifiers", textList f.modifiers)]

def AnnotationStub.entry (a : AnnotationStub) : Datum :=
  match a.value with
  | some constant =>
    let value := Datum.object [("enum", .text constant)]
    .object [("type", .text a.type), ("values", .object [("value", value)])]
  | none => .text a.type

def ClassStub.entry (c : ClassStub) : Datum :=
  .object ([("name", .text c.name), ("kind", .text c.kind), ("modifiers", textList c.modifiers),
    ("type_params", textList c.typeParams), ("interfaces", textList c.interfaces),
    ("annotations", .list (c.annotations.map (·.entry))), ("constants", textList c.constants),
    ("fields", .list (c.fields.map (·.entry))), ("methods", .list (c.methods.map (·.entry))),
    ("types", .list c.types)] ++
    (c.superclass.map fun s => ("superclass", .text s)).toList ++
    (c.constructors.map fun cs => ("constructors", .list (cs.map (·.entry)))).toList)

def document (package : String) (imports : List String) (classes : List ClassStub) : Datum :=
  .object [("package", .text package), ("imports", textList imports),
    ("types", .list (classes.map (·.entry)))]

end NominalTypes.Stub
