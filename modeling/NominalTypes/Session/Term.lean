import NominalTypes.Document.Name

/-!
# Terms

Terms name types, elements and type expressions from outside: by signature text, by names and places
of declarations, by operations on other terms, or by the register in which a value was saved. Places
are counted from zero, and negative ones from the end.
-/

namespace NominalTypes

mutual

/-- A term that denotes a type. -/
inductive TypeTerm where
  /-- Signature text, read in the scope of an element or in the current scope. -/
  | signature (text : String) (within : Option ElementTerm)
  /-- The primitive type of the kind with the given name. -/
  | primitive (kind : String)
  | none
  | void
  | null
  | object
  | array (component : TypeTerm)
  | declared (cls : ElementTerm) (args : List TypeTerm) (owner : Option TypeTerm)
  /-- A class applied to arguments whose bounds are checked. -/
  | applied (cls : ElementTerm) (args : List TypeTerm) (owner : Option TypeTerm)
  | wildcard (upper lower : Option TypeTerm)
  | intersection (bounds : List TypeTerm)
  | union (alternatives : List TypeTerm)
  | ofElement (x : ElementTerm)
  | ofExpr (e : ExprTerm)
  | capture (t : TypeTerm)
  | erase (t : TypeTerm)
  /-- The value of a register, or an item of it. -/
  | saved (register : Name) (item : Option Int)
  /-- The type arguments of a type, or one of them. -/
  | argument (t : TypeTerm) (index : Option Int)

/-- A term that denotes an element. Of several declarations with one name, the one at the given
place is meant. -/
inductive ElementTerm where
  | named (name : String)
  | package (name : Name)
  | loosePackage (name : Name)
  | field (cls : ElementTerm) (name : Name) (index : Int)
  | method (cls : ElementTerm) (name : Name) (index : Int)
  | constructor (cls : ElementTerm) (index : Int)
  | parameter (executable : ElementTerm) (index : Int)
  | typeParameter (generic : ElementTerm) (index : Int)
  | localClass (cls : ElementTerm) (index : Int)
  | ofType (t : TypeTerm)
  | enclosing (x : ElementTerm)
  /-- A new class without package that no class path registers. -/
  | orphan (name : Name) (kind : String)
  | saved (register : Name)

/-- A term that denotes a type expression. -/
inductive ExprTerm where
  | signature (text : String)
  | named (name : String)
  | array (component : ExprTerm)
  | applied (name : String) (args : List ExprTerm) (owner : Option ExprTerm)
  | wildcard (upper lower : List ExprTerm)
  | var (x : ElementTerm)
  | foreign (value : Datum)

end

instance : Inhabited TypeTerm :=
  ⟨.null⟩

instance : Inhabited ElementTerm :=
  ⟨.named ""⟩

instance : Inhabited ExprTerm :=
  ⟨.named ""⟩

end NominalTypes
