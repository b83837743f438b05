import NominalTypes.Decimal.FloatText
import NominalTypes.Text.Quoted

/-!
# Document values

The values that stub documents are made of: nothing, truth values, integers of any size,
floating-point numbers, text, lists, and objects whose fields keep the order in which they were
written.
-/

namespace NominalTypes

/-- A value of a document. -/
inductive Datum where
  | null
  | bool (value : Bool)
  | int (value : Int)
  | float (value : Float)
  | text (value : String)
  | list (items : List Datum)
  | object (fields : List (String × Datum))
  deriving Inhabited

namespace Datum

def get? (d : Datum) (key : String) : Option Datum :=
  match d with
  | object fields => fields.lookup key
  | _ => none

def isObject : Datum → Bool
  | object _ => true
  | _ => false

/-- The text that the value is, if it is text. -/
def text? : Datum → Option String
  | text s => some s
  | _ => none

/-- What the value consists of when it is gone through item by item: the items of a list, the
characters of a text, the keys of an object. -/
def items? : Datum → Option (List Datum)
  | list items => some items
  | text s => some ((Text.pieces s.toList).map text)
  | object fields => some (fields.map fun f => text f.1)
  | _ => none

/-- Whether the value counts as absent: nothing, false, zero, or empty. -/
def isEmpty : Datum → Bool
  | null => true
  | bool b => !b
  | int n => n == 0
  | float x => x == 0.0
  | text s => s.isEmpty
  | list items => items.isEmpty
  | object fields => fields.isEmpty

/-- The sort of the value, as messages name it. -/
def sort : Datum → String
  | null => "NoneType"
  | bool _ => "bool"
  | int _ => "int"
  | float _ => "float"
  | text _ => "str"
  | list _ => "list"
  | object _ => "dict"

mutual

def shown : Datum → String
  | null => "None"
  | bool true => "True"
  | bool false => "False"
  | int n => toString n
  | float x => Decimal.floatText x
  | text s => Text.quote s
  | list items => "[" ++ ", ".intercalate (shownItems items) ++ "]"
  | object fields => "\x7b" ++ ", ".intercalate (shownFields fields) ++ "\x7d"

def shownItems : List Datum → List String
  | [] => []
  | d :: ds => shown d :: shownItems ds

/-- The fields of an object as messages show them. -/
def shownFields : List (String × Datum) → List String
  | [] => []
  | (key, d) :: fs => (Text.quote key ++ ": " ++ shown d) :: shownFields fs

end

mutual

/-- How deeply lists and objects are nested in the value. -/
def height : Datum → Nat
  | list items => heightItems items + 1
  | object fields => heightFields fields + 1
  | _ => 0

def heightItems : List Datum → Nat
  | [] => 0
  | d :: ds => max (height d) (heightItems ds)

/-- The greatest height of the fields of an object. -/
def heightFields : List (String × Datum) → Nat
  | [] => 0
  | (_, d) :: fs => max (height d) (heightFields fs)

end

/-- The value as an integer; truth values count as one and zero. -/
def integer? : Datum → Option Int
  | bool b => some (if b then 1 else 0)
  | int n => some n
  | _ => none

/-- The value as a floating-point number, if it is a number or a truth value. -/
def float? : Datum → Option Float
  | float x => some x
  | d => d.integer?.map Float.ofInt

/-- Equality of values that are not lists or objects: numbers compare by their exact value, whatever
their sort. -/
def scalarEqual (a b : Datum) : Bool :=
  match a, b with
  | null, null => true
  | text s, text t => s == t
  | _, _ =>
    match a.integer?, b.integer?, a, b with
    | some m, some n, _, _ => m == n
    | some m, none, _, float y => Decimal.equalsInt y m
    | none, some n, float x, _ => Decimal.equalsInt x n
    | none, none, float x, float y => x == y
    | _, _, _, _ => false

/-- Whether the value is the undefined number, which is not equal to itself. -/
def isUndefined : Datum → Bool
  | float x => x.isNaN
  | _ => false

mutual

/-- Equality of values. Numbers compare by value whatever their sort, and the order of the fields of
objects does not matter. -/
def equal : Datum → Datum → Bool
  | list xs, list ys => equalItems xs ys
  | object fs, object gs => fs.length == gs.length && equalFields fs gs
  | list _, _ => false
  | object _, _ => false
  | a, b => scalarEqual a b

/-- Equality of lists, item by item; an undefined number among the items stands for itself. -/
def equalItems : List Datum → List Datum → Bool
  | [], [] => true
  | x :: xs, y :: ys => (equal x y || (isUndefined x && isUndefined y)) && equalItems xs ys
  | _, _ => false

/-- Whether every field of the first object is equal to the field of the same name in the second. -/
def equalFields : List (String × Datum) → List (String × Datum) → Bool
  | [], _ => true
  | (key, d) :: fs, gs =>
    (match gs.lookup key with
      | some e => equal d e || (isUndefined d && isUndefined e)
      | none => false) && equalFields fs gs

end

/-- Equality of values that are parts of others: as for the items of lists. -/
def equalPart (a b : Datum) : Bool :=
  equal a b || (isUndefined a && isUndefined b)

/-- Adds a field to the fields of an object. A repeated key keeps its place and takes the last
value. -/
def insertField (fields : List (String × Datum)) (key : String) (d : Datum) :
    List (String × Datum) :=
  if fields.any (·.1 == key) then
    fields.map fun f => if f.1 == key then (key, d) else f
  else fields ++ [(key, d)]

end Datum

end NominalTypes
