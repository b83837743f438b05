/-!
# Access masks and modifiers

A declaration carries its access and property flags as a mask of bits. The flags that have a keyword
in source text are its modifiers. Masks are integers: a negative mask is read in two's complement.
-/

namespace NominalTypes

/-- A flag of a declaration. -/
inductive Flag where
  | isPublic
  | isPrivate
  | isProtected
  | isStatic
  | isFinal
  | isSynchronized
  | isVolatile
  | isTransient
  | isNative
  | isInterface
  | isAbstract
  | isStrict
  | isSynthetic
  | isAnnotationType
  | isEnum
  | isDefault
  deriving DecidableEq, Repr

def Flag.place : Flag → Nat
  | .isPublic => 0
  | .isPrivate => 1
  | .isProtected => 2
  | .isStatic => 3
  | .isFinal => 4
  | .isSynchronized => 5
  | .isVolatile => 6
  | .isTransient => 7
  | .isNative => 8
  | .isInterface => 9
  | .isAbstract => 10
  | .isStrict => 11
  | .isSynthetic => 12
  | .isAnnotationType => 13
  | .isEnum => 14
  | .isDefault => 16

/-- The flags of a declaration, as a mask. -/
structure Access where
  mask : Nat := 0
  deriving DecidableEq, Repr, Inhabited

namespace Access

def has (a : Access) (f : Flag) : Bool :=
  a.mask.testBit f.place

def insert (a : Access) (f : Flag) : Access :=
  ⟨a.mask ||| Nat.pow 2 f.place⟩

def insertAll (a : Access) (flags : List Flag) : Access :=
  flags.foldl insert a

/-- The mask in which exactly the given flags are set. -/
def ofFlags (flags : List Flag) : Access :=
  insertAll {} flags

/-- The mask that an integer denotes, as far as any flag reaches: its lowest seventeen bits. -/
def ofInt (n : Int) : Access :=
  ⟨(n % 131072).toNat⟩

end Access

/-- The flags that are modifiers, with their keywords. -/
def modifierKeywords : List (Flag × String) :=
  [(.isPublic, "public"), (.isProtected, "protected"), (.isPrivate, "private"),
    (.isAbstract, "abstract"), (.isDefault, "default"), (.isStatic, "static"), (.isFinal, "final"),
    (.isTransient, "transient"), (.isVolatile, "volatile"), (.isSynchronized, "synchronized"),
    (.isNative, "native"), (.isStrict, "strictfp")]

/-- The flag that a keyword of a document sets. Documents may also mark what a compiler added. -/
def Flag.ofKeyword? (keyword : String) : Option Flag :=
  if keyword == "synthetic" then some .isSynthetic
  else modifierKeywords.findSome? fun (flag, k) => if k == keyword then some flag else none

/-- The keywords of the modifiers that the mask sets. -/
def Access.modifiers (a : Access) : List String :=
  modifierKeywords.filterMap fun (flag, keyword) => if a.has flag then some keyword else none

end NominalTypes
