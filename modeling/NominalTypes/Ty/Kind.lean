/-!
# Kinds of types

The eight primitive types, and the kinds that type descriptors fall into.
-/

namespace NominalTypes

/-- A primitive type. -/
inductive Primitive where
  | boolean
  | byte
  | short
  | int
  | long
  | char
  | float
  | double
  deriving DecidableEq, Repr

def Primitive.name : Primitive → String
  | .boolean => "boolean"
  | .byte => "byte"
  | .short => "short"
  | .int => "int"
  | .long => "long"
  | .char => "char"
  | .float => "float"
  | .double => "double"

def Primitive.all : List Primitive :=
  [.boolean, .byte, .short, .int, .long, .char, .float, .double]

def Primitive.ofName? (name : String) : Option Primitive :=
  Primitive.all.find? (·.name == name)

/-- The kind of a type descriptor. -/
inductive TypeKind where
  | primitive (p : Primitive)
  | void
  | none
  | null
  | array
  | declared
  | typevar
  | wildcard
  | package
  | executable
  | union
  | intersection
  deriving DecidableEq, Repr

namespace TypeKind

def name : TypeKind → String
  | primitive p => p.name
  | void => "void"
  | none => "none"
  | null => "null"
  | array => "array"
  | declared => "declared"
  | typevar => "typevar"
  | wildcard => "wildcard"
  | package => "package"
  | executable => "executable"
  | union => "union"
  | intersection => "intersection"

def isPrimitive : TypeKind → Bool
  | primitive _ => true
  | _ => false

def all : List TypeKind :=
  Primitive.all.map primitive ++ [void, none, null, array, declared, typevar, wildcard, package,
    executable, union, intersection]

def ofName? (name : String) : Option TypeKind :=
  all.find? (·.name == name)

end TypeKind

end NominalTypes
