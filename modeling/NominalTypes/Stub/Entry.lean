import NominalTypes.Error
import NominalTypes.Modifier

/-!
# Entries of stub documents

How the fields of document entries are read: required fields, choices among names, lists, text, and
modifier keywords.
-/

namespace NominalTypes.Stub

def text (d : Datum) : Result String :=
  match d with
  | .text s => .ok s
  | _ => .error (.shape .notText)

/-- The text of a type, where an empty list or object counts as empty text. -/
def typeText (d : Datum) : Result String :=
  match d with
  | .text s => .ok s
  | .list [] => .ok ""
  | .object [] => .ok ""
  | .list _ => .error (.shape .notTypeText)
  | _ => .error (.shape .notText)

/-- The text of the type of a parameter or of an annotation. -/
def nameOfType (d : Datum) : Result String :=
  match d with
  | .text s => .ok s
  | _ => .error (.shape .notTypeText)

/-- The items of a field; a missing field has none. -/
def items (entry : Datum) (key : String) : Result (List Datum) :=
  match entry.get? key with
  | none => .ok []
  | some d =>
    match d.items? with
    | some items => .ok items
    | none => .error (.shape .notItems)

/-- The texts that a field lists; a missing field has none. -/
def texts (entry : Datum) (key : String) : Result (List String) := do
  (← items entry key).mapM text

/-- The value of a field that the entry must have. -/
def required (entry : Datum) (key place : String) : Result Datum :=
  match entry.get? key with
  | some d => .ok d
  | none => .error (.structural (.missingField place key entry))

def choose {α : Type} (choice : String) (all : List α) (name : α → String) (d : Datum) : Result α :=
  match all.find? fun a => d.text? == some (name a) with
  | some a => .ok a
  | none => .error (.structural (.unknownChoice choice d (all.map name)))

/-- The flags that keywords set. A list or an object is no keyword at all. -/
def accessOfKeywords (keywords : List Datum) : Result Access :=
  keywords.foldlM
    (fun access keyword =>
      match keyword with
      | .text name =>
        match Flag.ofKeyword? name with
        | some flag => .ok (access.insert flag)
        | none => .error (.unknownModifier keyword)
      | .list _ | .object _ => .error (.shape .notText)
      | _ => .error (.unknownModifier keyword))
    {}

def access (entry : Datum) : Result Access := do
  accessOfKeywords (← items entry "modifiers")

end NominalTypes.Stub
