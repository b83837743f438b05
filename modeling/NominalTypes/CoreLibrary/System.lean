import NominalTypes.CoreLibrary.Lang
import NominalTypes.CoreLibrary.Util
import NominalTypes.Stub.Load

/-!
# The system class path

The first class path of a table holds the stand-ins for the primitive types and `void`, and the core
library. Every other class path has it among its ancestors unless it is made without a parent.
-/

namespace NominalTypes

namespace CoreLibrary

/-- The documents of the core library, in the order in which they are loaded. -/
def documents : List Datum :=
  [langAnnotations, lang, inputOutput, util, functions]

/-- The names of the stand-ins for the primitive types and `void`, in the order in which they are
registered. -/
def primitiveNames : List String :=
  ["boolean", "byte", "short", "char", "int", "long", "float", "double", "void"]

/-- The stand-in for a primitive type or `void`. -/
def primitiveClass (name : String) : ClassDecl where
  name := name
  simpleName := name
  kind := .primitive
  access := Access.ofFlags [.isPublic, .isFinal, .isAbstract]

/-- The canonical name of the box of a primitive type. -/
def boxName : Primitive → String
  | .boolean => "java.lang.Boolean"
  | .byte => "java.lang.Byte"
  | .short => "java.lang.Short"
  | .int => "java.lang.Integer"
  | .long => "java.lang.Long"
  | .char => "java.lang.Character"
  | .float => "java.lang.Float"
  | .double => "java.lang.Double"

end CoreLibrary

namespace Table

/-- The table with the classes found that have a role in the rules of the language. -/
def withCore (tbl : Table) : Table :=
  let find (name : String) := (tbl.lookupType systemPath name).getD default
  { tbl with
    core :=
      { object := find "java.lang.Object"
        cloneable := find "java.lang.Cloneable"
        serializable := find "java.io.Serializable"
        box := fun p => find (CoreLibrary.boxName p) } }

/-- Builds the table that holds the system class path alone. -/
def buildSystem : Result Table := do
  let (path, tbl) := ({} : Table).addPath {}
  let tbl ← CoreLibrary.primitiveNames.foldlM
    (fun tbl name => do return (← tbl.register path (CoreLibrary.primitiveClass name)).2) tbl
  match tbl.load path CoreLibrary.documents with
  | (.ok _, tbl) => return tbl.withCore
  | (.error e, _) => throw e

/-- The table that holds the system class path alone. -/
def system : Table :=
  match buildSystem with
  | .ok tbl => tbl
  | .error _ => {}

end Table

end NominalTypes
