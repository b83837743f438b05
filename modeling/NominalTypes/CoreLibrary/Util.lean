import NominalTypes.Stub.Builder

/-!
# The core library: input and output, collections, functions

The packages `java.io`, `java.util` and `java.util.function`.
-/

namespace NominalTypes.CoreLibrary

open Stub

/-- The package `java.io`. -/
def inputOutput : Datum :=
  document "java.io" []
    [{ name := "Serializable", kind := "interface" },
      { name := "Closeable"
        kind := "interface"
        interfaces := ["AutoCloseable"]
        methods := [{ name := "close", throws := ["IOException"] }] },
      { name := "IOException", superclass := some "Exception" }]

def collectionInterfaces : List ClassStub :=
  [{ name := "Iterator"
     kind := "interface"
     typeParams := ["E"]
     methods :=
      [{ name := "hasNext", returns := "boolean" }, { name := "next", returns := "E" }] },
    { name := "Comparator"
      kind := "interface"
      typeParams := ["T"]
      annotations := ["FunctionalInterface"]
      methods := [{ name := "compare", returns := "int", params := ["T", "T"] }] },
    { name := "RandomAccess", kind := "interface" },
    { name := "Collection"
      kind := "interface"
      typeParams := ["E"]
      interfaces := ["Iterable<E>"]
      methods :=
        [{ name := "size", returns := "int" },
          { name := "isEmpty", returns := "boolean" },
          { name := "contains", returns := "boolean", params := ["Object"] },
          { name := "add", returns := "boolean", params := ["E"] },
          { name := "addAll", returns := "boolean", params := ["Collection<? extends E>"] },
          { name := "toArray", typeParams := ["T"], returns := "T[]", params := ["T[]"] }] },
    { name := "List"
      kind := "interface"
      typeParams := ["E"]
      interfaces := ["Collection<E>"]
      methods :=
        [{ name := "get", returns := "E", params := [{ name := some "index", type := "int" }] },
          { name := "set", returns := "E", params := ["int", "E"] },
          { name := "add", returns := "boolean", params := ["E"] },
          { name := "subList", returns := "List<E>", params := ["int", "int"] },
          { name := "sort", returns := "void", params := ["Comparator<? super E>"],
            modifiers := ["default"] }] },
    { name := "Set"
      kind := "interface"
      typeParams := ["E"]
      interfaces := ["Collection<E>"] }]

def collectionClasses : List ClassStub :=
  [{ name := "AbstractCollection"
     modifiers := ["public", "abstract"]
     typeParams := ["E"]
     interfaces := ["Collection<E>"]
     constructors := some [{ modifiers := ["protected"] }]
     methods :=
      [{ name := "size", returns := "int", modifiers := ["public", "abstract"] },
        { name := "add", returns := "boolean", params := ["E"], modifiers := ["public"] },
        { name := "toString", returns := "String", modifiers := ["public"] }] },
    { name := "AbstractList"
      modifiers := ["public", "abstract"]
      typeParams := ["E"]
      superclass := some "AbstractCollection<E>"
      interfaces := ["List<E>"]
      fields := [{ name := "modCount", type := "int", modifiers := ["protected", "transient"] }]
      constructors := some [{ modifiers := ["protected"] }]
      methods :=
        [{ name := "get", returns := "E", params := ["int"],
           modifiers := ["public", "abstract"] }] },
    { name := "ArrayList"
      typeParams := ["E"]
      superclass := some "AbstractList<E>"
      interfaces := ["List<E>", "RandomAccess", "Cloneable", "Serializable"]
      fields := [{ name := "size", type := "int", modifiers := ["private"] }]
      constructors := some
        [{ modifiers := ["public"] },
          { params := ["int"], modifiers := ["public"] },
          { params := ["Collection<? extends E>"], modifiers := ["public"] }]
      methods :=
        [{ name := "get", returns := "E", params := ["int"], modifiers := ["public"] },
          { name := "size", returns := "int", modifiers := ["public"] },
          { name := "trimToSize", modifiers := ["public"] }] }]

def mapEntry : ClassStub where
  name := "Entry"
  kind := "interface"
  modifiers := ["public", "static"]
  typeParams := ["K", "V"]
  methods := [{ name := "getKey", returns := "K" }, { name := "getValue", returns := "V" }]

def maps : List ClassStub :=
  [{ name := "Map"
     kind := "interface"
     typeParams := ["K", "V"]
     types := [mapEntry.entry]
     methods :=
      [{ name := "get", returns := "V", params := ["Object"] },
        { name := "put", returns := "V", params := ["K", "V"] },
        { name := "entrySet", returns := "Set<Map.Entry<K, V>>" },
        { name := "keySet", returns := "Set<K>" }] },
    { name := "AbstractMap"
      modifiers := ["public", "abstract"]
      typeParams := ["K", "V"]
      interfaces := ["Map<K, V>"]
      constructors := some [{ modifiers := ["protected"] }] },
    { name := "HashMap"
      typeParams := ["K", "V"]
      superclass := some "AbstractMap<K, V>"
      interfaces := ["Map<K, V>", "Cloneable", "Serializable"]
      constructors := some [{ modifiers := ["public"] }] }]

/-- The package `java.util`. -/
def util : Datum :=
  document "java.util" ["java.io.Serializable"] (collectionInterfaces ++ collectionClasses ++ maps)

/-- The package `java.util.function`. -/
def functions : Datum :=
  document "java.util.function" []
    [{ name := "Supplier"
       kind := "interface"
       typeParams := ["T"]
       annotations := ["FunctionalInterface"]
       methods := [{ name := "get", returns := "T" }] },
      { name := "Function"
        kind := "interface"
        typeParams := ["T", "R"]
        annotations := ["FunctionalInterface"]
        methods := [{ name := "apply", returns := "R", params := ["T"] }] }]

end NominalTypes.CoreLibrary
