import NominalTypes.Document.Datum

/-!
# Names

Documents name packages, classes and members. A name is text as a rule, but any value of a document
may stand in its place. Names are told apart by their keys: text by its characters, numbers by their
value whatever their sort, truth values being one and zero.

## Main definitions

* `Name`: a name, with `Name.shown` as it stands inside other text.
* `Name.key`: what names are told apart by; `==` compares names by it.
* `Name.same`: equality of names as values.
* `Name.le`: the order in which names are listed.
-/

namespace NominalTypes

/-- A name: text, or another value in its place. -/
structure Name where
  value : Datum

/-- What names are told apart by. -/
inductive NameKey where
  | null
  | whole (n : Int)
  /-- A number with a fraction, an infinity, or the undefined number, by its bits. -/
  | fraction (bits : UInt64)
  | text (s : String)
  /-- A list or an object, as messages show it with numbers and fields in one form. -/
  | compound (shown : String)
  deriving DecidableEq, Repr

namespace Datum

mutual

/-- The value with numbers that are whole written as integers, truth values too, and the fields of
objects in order. Values are equal when these forms are. -/
def normal : Datum → Datum
  | bool b => int (if b then 1 else 0)
  | float x =>
    match Decimal.whole? x with
    | some n => int n
    | none => float x
  | list items => list (normalItems items)
  | object fields => object ((normalFields fields).mergeSort fun f g => Text.le f.1 g.1)
  | d => d

def normalItems : List Datum → List Datum
  | [] => []
  | d :: ds => normal d :: normalItems ds

/-- The fields of an object in this form, in the order in which they stand. -/
def normalFields : List (String × Datum) → List (String × Datum)
  | [] => []
  | (key, d) :: fs => (key, normal d) :: normalFields fs

end

end Datum

def NameKey.ofFloat (x : Float) : NameKey :=
  match Decimal.whole? x with
  | some n => whole n
  | none => fraction x.toBits

namespace Name

def text (s : String) : Name :=
  ⟨.text s⟩

instance : Inhabited Name :=
  ⟨text ""⟩

instance : Coe String Name :=
  ⟨text⟩

def key (n : Name) : NameKey :=
  match n.value with
  | .null => .null
  | .bool b => .whole (if b then 1 else 0)
  | .int n => .whole n
  | .float x => .ofFloat x
  | .text s => .text s
  | d => .compound d.normal.shown

instance : BEq Name :=
  ⟨fun m n => m.key == n.key⟩

/-- Names are the same exactly when their keys are. -/
theorem beq_iff_key_eq {m n : Name} : m == n ↔ m.key = n.key :=
  beq_iff_eq (a := m.key) (b := n.key)

instance : EquivBEq Name where
  rfl := beq_iff_key_eq.2 rfl
  symm h := beq_iff_key_eq.2 (beq_iff_key_eq.1 h).symm
  trans h h' := beq_iff_key_eq.2 ((beq_iff_key_eq.1 h).trans (beq_iff_key_eq.1 h'))

/-- Text names are the same exactly when their texts are. -/
theorem text_beq_text {s t : String} : text s == text t ↔ s = t := by
  rw [beq_iff_key_eq]
  simp [text, key]

/-- Whether two names are equal as values: the undefined number is not equal to itself. -/
def same (m n : Name) : Bool :=
  m == n && !m.value.isUndefined

def shown (n : Name) : String :=
  match n.value with
  | .text s => s
  | d => d.shown

/-- The name in a message, where text stands in quotes. -/
def quoted (n : Name) : String :=
  n.value.shown

def isEmpty (n : Name) : Bool :=
  n.value.isEmpty

/-- The name followed by a dot and another name; an absent name adds nothing. -/
def qualify (n : Name) (name : String) : String :=
  if n.isEmpty then name else s!"{n.shown}.{name}"

/-- Whether things can be looked up by the name; by a list or an object they cannot. -/
def isKey (n : Name) : Bool :=
  match n.value with
  | .list _ => false
  | .object _ => false
  | _ => true

/-- Whether the name is a number, truth values included. -/
def isNumber (n : Name) : Bool :=
  n.value.float?.isSome

/-- Whether the first name is listed before the second or is the same: numbers by value, and all
else by its text. -/
def le (m n : Name) : Bool :=
  match m.key, n.key with
  | .whole a, .whole b => decide (a ≤ b)
  | _, _ =>
    match m.value.float?, n.value.float? with
    | some x, some y => x ≤ y
    | _, _ => Text.le m.shown n.shown

/-- The names in order, without repetitions. Names in a list are all text or all numbers, or else
there is at most one of them. -/
def sorted? (names : List Name) : Option (List Name) :=
  if names.all (·.value.text?.isSome) || names.all isNumber || names.length ≤ 1 then
    some (names.mergeSort le).eraseReps
  else none

end Name

end NominalTypes
