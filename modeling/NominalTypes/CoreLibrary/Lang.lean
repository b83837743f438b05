import NominalTypes.Stub.Builder

/-!
# The core library: `java.lang` and its annotation package

The root class, the boxes of primitive types, text, enums, throwables, and the annotations of the
language itself.
-/

namespace NominalTypes.CoreLibrary

open Stub

/-- The box of a primitive type. Boxes of numbers extend the number class. -/
def box (name keyword : String) (numeric : Bool) : ClassStub where
  name := name
  modifiers := ["public", "final"]
  superclass := if numeric then some "Number" else none
  interfaces :=
    if numeric then [s!"Comparable<{name}>"] else ["java.io.Serializable", s!"Comparable<{name}>"]
  fields :=
    [{ name := "TYPE", type := s!"Class<{name}>", modifiers := ["public", "static", "final"] }]
  constructors := some [{ params := [keyword], modifiers := ["public"] }]
  methods :=
    [{ name := "valueOf", returns := name, params := [keyword], modifiers := ["public", "static"] },
      { name := s!"{keyword}Value", returns := keyword, modifiers := ["public"] },
      { name := "compareTo", returns := "int", params := [name], modifiers := ["public"] }]

/-- The interfaces and classes that other classes of the package build on. -/
def foundations : List ClassStub :=
  [{ name := "Object"
     constructors := some [{ modifiers := ["public"] }]
     methods :=
      [{ name := "getClass", returns := "Class<?>", modifiers := ["public", "final", "native"] },
        { name := "hashCode", returns := "int", modifiers := ["public", "native"] },
        { name := "equals", returns := "boolean", params := ["Object"], modifiers := ["public"] },
        { name := "clone", returns := "Object", modifiers := ["protected", "native"],
          throws := ["CloneNotSupportedException"] },
        { name := "toString", returns := "String", modifiers := ["public"] }] },
    { name := "Cloneable", kind := "interface" },
    { name := "Comparable"
      kind := "interface"
      typeParams := ["T"]
      methods := [{ name := "compareTo", returns := "int", params := ["T"] }] },
    { name := "CharSequence"
      kind := "interface"
      methods :=
        [{ name := "length", returns := "int" },
          { name := "charAt", returns := "char", params := ["int"] }] },
    { name := "Iterable"
      kind := "interface"
      typeParams := ["T"]
      methods := [{ name := "iterator", returns := "java.util.Iterator<T>" }] },
    { name := "Runnable"
      kind := "interface"
      annotations := ["FunctionalInterface"]
      methods := [{ name := "run" }] },
    { name := "AutoCloseable"
      kind := "interface"
      methods := [{ name := "close", throws := ["Exception"] }] },
    { name := "Class"
      modifiers := ["public", "final"]
      typeParams := ["T"]
      interfaces := ["Serializable"]
      constructors := some [{ modifiers := ["private"] }]
      methods :=
        [{ name := "getName", returns := "String", modifiers := ["public"] },
          { name := "cast", returns := "T", params := ["Object"], modifiers := ["public"] },
          { name := "isInstance", returns := "boolean", params := ["Object"],
            modifiers := ["public", "native"] }] }]

def textAndNumbers : List ClassStub :=
  [{ name := "String"
     modifiers := ["public", "final"]
     interfaces := ["Serializable", "Comparable<String>", "CharSequence"]
     fields :=
      [{ name := "CASE_INSENSITIVE_ORDER", type := "java.util.Comparator<String>",
         modifiers := ["public", "static", "final"] }]
     constructors := some
      [{ modifiers := ["public"] }, { params := ["char[]"], modifiers := ["public"] }]
     methods :=
      [{ name := "length", returns := "int", modifiers := ["public"] },
        { name := "charAt", returns := "char", params := ["int"], modifiers := ["public"] },
        { name := "compareTo", returns := "int", params := ["String"], modifiers := ["public"] },
        { name := "valueOf", returns := "String", params := ["Object"],
          modifiers := ["public", "static"] },
        { name := "format", returns := "String", params := ["String", "Object..."],
          modifiers := ["public", "static"] }] },
    { name := "Number"
      modifiers := ["public", "abstract"]
      interfaces := ["Serializable"]
      constructors := some [{ modifiers := ["public"] }]
      methods :=
        [{ name := "intValue", returns := "int", modifiers := ["public", "abstract"] },
          { name := "longValue", returns := "long", modifiers := ["public", "abstract"] },
          { name := "doubleValue", returns := "double", modifiers := ["public", "abstract"] }] },
    box "Byte" "byte" true, box "Short" "short" true, box "Integer" "int" true,
    box "Long" "long" true, box "Float" "float" true, box "Double" "double" true,
    box "Character" "char" false, box "Boolean" "boolean" false,
    { name := "Void"
      modifiers := ["public", "final"]
      constructors := some [{ modifiers := ["private"] }] }]

def enumsAndThrowables : List ClassStub :=
  [{ name := "Enum"
     modifiers := ["public", "abstract"]
     typeParams := ["E extends Enum<E>"]
     interfaces := ["Comparable<E>", "Serializable"]
     constructors := some [{ params := ["String", "int"], modifiers := ["protected"] }]
     methods :=
      [{ name := "name", returns := "String", modifiers := ["public", "final"] },
        { name := "ordinal", returns := "int", modifiers := ["public", "final"] },
        { name := "compareTo", returns := "int", params := ["E"],
          modifiers := ["public", "final"] },
        { name := "valueOf", typeParams := ["T extends Enum<T>"], returns := "T",
          params := ["Class<T>", "String"], modifiers := ["public", "static"] }] },
    { name := "Throwable"
      interfaces := ["Serializable"]
      constructors := some
        [{ modifiers := ["public"] }, { params := ["String"], modifiers := ["public"] }]
      methods :=
        [{ name := "getMessage", returns := "String", modifiers := ["public"] },
          { name := "getCause", returns := "Throwable", modifiers := ["public"] }] },
    { name := "Exception", superclass := some "Throwable" },
    { name := "Error", superclass := some "Throwable" },
    { name := "RuntimeException", superclass := some "Exception" },
    { name := "CloneNotSupportedException", superclass := some "Exception" },
    { name := "IllegalArgumentException", superclass := some "RuntimeException" },
    { name := "IllegalStateException", superclass := some "RuntimeException" }]

def retention (policy : String) : AnnotationStub where
  type := "java.lang.annotation.Retention"
  value := some s!"java.lang.annotation.RetentionPolicy.{policy}"

def annotationTypes : List ClassStub :=
  [{ name := "Deprecated"
     kind := "annotation"
     annotations := ["java.lang.annotation.Documented", retention "RUNTIME"] },
    { name := "FunctionalInterface"
      kind := "annotation"
      annotations := ["java.lang.annotation.Documented", retention "RUNTIME"] },
    { name := "Override"
      kind := "annotation"
      annotations := [retention "SOURCE"] },
    { name := "SuppressWarnings"
      kind := "annotation"
      methods := [{ name := "value", returns := "String[]" }] }]

/-- The package `java.lang`. -/
def lang : Datum :=
  document "java.lang" ["java.io.Serializable"]
    (foundations ++ textAndNumbers ++ enumsAndThrowables ++ annotationTypes)

/-- The package of the annotations on annotation types. -/
def langAnnotations : Datum :=
  document "java.lang.annotation" []
    [{ name := "Annotation"
       kind := "interface"
       methods := [{ name := "annotationType", returns := "Class<? extends Annotation>" }] },
      { name := "RetentionPolicy"
        kind := "enum"
        constants := ["SOURCE", "CLASS", "RUNTIME"] },
      { name := "ElementType"
        kind := "enum"
        constants :=
          ["TYPE", "FIELD", "METHOD", "PARAMETER", "CONSTRUCTOR", "LOCAL_VARIABLE",
            "ANNOTATION_TYPE", "PACKAGE", "TYPE_PARAMETER", "TYPE_USE"] },
      { name := "Retention"
        kind := "annotation"
        annotations := ["Documented"]
        methods := [{ name := "value", returns := "RetentionPolicy" }] },
      { name := "Target"
        kind := "annotation"
        annotations := ["Documented"]
        methods := [{ name := "value", returns := "ElementType[]" }] },
      { name := "Documented", kind := "annotation" },
      { name := "Inherited", kind := "annotation" }]

end NominalTypes.CoreLibrary
