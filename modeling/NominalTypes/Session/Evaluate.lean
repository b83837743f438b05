import NominalTypes.Declaration.Expression
import NominalTypes.Session.Element
import NominalTypes.Session.Value
import NominalTypes.Signature.Reader

/-!
# Evaluating terms

Terms are evaluated from left to right, and the first failure ends the evaluation. Every type that a
term builds anew is an occurrence of its own. Signature text is read in the scope of an element; if
none is given, of the element that `context` finds.
-/

namespace NominalTypes.Session

/-- The item of a list at the given place, which must exist. A negative place counts from the
end. -/
def item {α : Type} (items : List α) (index : Int) : SessionM α :=
  let place := if index < 0 then items.length + index else index
  match if place < 0 then none else items[place.toNat]? with
  | some a => return a
  | none => throw .noSuchItem

/-- What an element must be for the operation on it to make sense. -/
def suitable {α : Type} : Option α → SessionM α
  | some a => return a
  | none => throw .unsuitable

def asClass : Element → SessionM ClassId
  | .type c => return c
  | _ => throw .unsuitable

def asExecutable : Element → SessionM ExecutableId
  | .executable e => return e
  | _ => throw .unsuitable

def asGeneric : Element → SessionM GenericId
  | .type c => return .cls c
  | .executable e => return .executable e
  | _ => throw .unsuitable

def asTypeParameter : Element → SessionM TypeVarId
  | .typeParameter v => return v
  | _ => throw .unsuitable

/-- The value in a register, which must have been saved. -/
def savedIn (register : Name) : SessionM Value := do
  ask fun _ => register.requireKey
  match (← get).saved.lookup register with
  | some value => return value
  | none => throw .noSuchKey

/-- A value, or the item of it at the given place. -/
def itemOf (value : Value) (index : Option Int) : SessionM Value :=
  match value, index with
  | value, none => return value
  | .types ts, some i => return .type (← item ts i)
  | .arguments ts, some i => return .type (← item ts i)
  | _, some _ => throw (.shape .notItems)

/-- The element in a register, if there was one to save. -/
def savedElement (register : Name) : SessionM (Option Element) := do
  match ← savedIn register with
  | .element x => return some x
  | .nothing => return none
  | _ => throw .unsuitable

/-- The class with the given name on the current class path, which must not stand for a primitive
type. -/
def namedElement (name : String) : SessionM Element := do
  let path := (← get).current
  ask fun tbl => do
    let c ← tbl.requireType path name
    tbl.requireDeclaration c
    return .type c

/-- A new class without package that no class path registers. -/
def orphan (name : Name) (kind : ClassKind) : SessionM Element :=
  extend fun tbl => do
    let (c, tbl) := tbl.addClass { name := name.shown, simpleName := name, kind }
    tbl.requireDeclaration c
    return (.type c, tbl)

def loosePackage (name : Name) : SessionM Element :=
  extend fun tbl =>
    let (p, tbl) := tbl.addPackage { name }
    return (.package p, tbl)

/-- The type arguments of a value, which must be a declared type. -/
def argumentsOf : Value → SessionM (List Ty)
  | .type (.declared _ args _ _) => return args
  | _ => throw .unsuitable

def typeKind (name : String) : SessionM TypeKind :=
  match TypeKind.ofName? name with
  | some kind => return kind
  | none => throw (.unknownKind name)

def classKind (name : String) : SessionM ClassKind :=
  match ClassKind.all.find? (·.name == name) with
  | some kind => return kind
  | none => throw (.unknownKind name)

section Terms

variable (context : SessionM (Option Element))

/-- The scope of the given element, or without one the current scope. -/
def scopeWithin (within : Option Element) : SessionM Scope := do
  match within with
  | some x => scopeAt (some x)
  | none => scopeAt (← context)

mutual

/-- The value that a term denotes: a type, unless it refers to a saved value that is none. -/
def valueOf : TypeTerm → SessionM Value
  | .signature text within => do
    let scope ← scopeWithin context (← elementOfOption within)
    let t ← ask fun tbl => do tbl.descriptor (← Signature.parseType tbl scope text)
    return .type (← number t)
  | .primitive kind => do
    let kind ← typeKind kind
    return .type (← ask fun _ => Table.makePrimitive kind)
  | .none => return .type .none
  | .void => return .type (.void [])
  | .null => return .type .null
  | .object => return .type (← view Table.objectType)
  | .array component => do
    let component ← asType (← valueOf component)
    return .type (← ask fun _ => Table.makeArray component [])
  | .declared cls args owner => do
    let c ← asClass (← suitable (← elementOf? cls))
    let args ← typesOf args
    let owner ← typeOf? owner
    return .type (← ask fun tbl => tbl.makeDeclared c args owner [])
  | .applied cls args owner => do
    let c ← asClass (← suitable (← elementOf? cls))
    let args ← typesOf args
    let owner ← typeOf? owner
    return .type (← number (← ask fun tbl => tbl.apply budget c args owner))
  | .wildcard upper lower => do
    let upper ← typeOf? upper
    let lower ← typeOf? lower
    return .type (← number (← ask fun tbl => tbl.makeWildcard upper lower []))
  | .intersection bounds => do
    let bounds ← typesOf bounds
    return .type (← number (← ask fun _ => Table.makeIntersection bounds))
  | .union alternatives => do
    let alternatives ← typesOf alternatives
    return .type (← number (← ask fun _ => Table.makeUnion alternatives))
  | .ofElement x => do
    let x ← suitable (← elementOf? x)
    return .type (← number (← ask fun tbl => tbl.typeOf x))
  | .ofExpr e => do
    let e ← exprOf e
    return .type (← number (← ask fun tbl => tbl.descriptor e))
  | .capture t => do captureValue (← valueOf t)
  | .erase t => do return .type (← number (← erase (← valueOf t)))
  | .saved register index => do itemOf (← savedIn register) index
  | .argument t index => do itemOf (.arguments (← argumentsOf (← valueOf t))) index

def typesOf : List TypeTerm → SessionM (List Ty)
  | [] => return []
  | t :: ts => return (← asType (← valueOf t)) :: (← typesOf ts)

/-- The type that an optional term denotes, unless it refers to nothing. -/
def typeOf? : Option TypeTerm → SessionM (Option Ty)
  | none => return none
  | some t => do asType? (← valueOf t)

/-- The element that a term denotes, if there is one: not every type has an element behind it, and
not every element another around it. -/
def elementOf? : ElementTerm → SessionM (Option Element)
  | .named name => return some (← namedElement name)
  | .package name => do
    packageNamed (← get).current name
  | .loosePackage name => return some (← loosePackage name)
  | .field cls name index => do
    let c ← asClass (← suitable (← elementOf? cls))
    let fields ← view fun tbl => (tbl.fieldsOf c).filter fun f => (tbl.field f).name.same name
    return some (.field (← item fields index))
  | .method cls name index => do
    let c ← asClass (← suitable (← elementOf? cls))
    let methods ← view fun tbl =>
      (tbl.methodsOf c).filter fun m => (tbl.executable m).name.same name
    return some (.executable (← item methods index))
  | .constructor cls index => do
    let c ← asClass (← suitable (← elementOf? cls))
    return some (.executable (← item (← view fun tbl => tbl.constructorsOf c) index))
  | .parameter executable index => do
    let e ← asExecutable (← suitable (← elementOf? executable))
    return some (.parameter (← item (← view fun tbl => tbl.parametersOf e) index))
  | .typeParameter generic index => do
    let g ← asGeneric (← suitable (← elementOf? generic))
    return some (.typeParameter (← item (← view fun tbl => tbl.typeVars g) index))
  | .localClass cls index => do
    let c ← asClass (← suitable (← elementOf? cls))
    let path := (← get).current
    return some (.type (← item (← view fun tbl => tbl.localClasses path c) index))
  | .ofType t => return elementBehind (← valueOf t)
  | .enclosing x => do
    let x ← suitable (← elementOf? x)
    ask fun tbl => tbl.enclosingElement x
  | .orphan name kind => return some (← orphan name (← classKind kind))
  | .saved register => savedElement register

/-- The element that an optional term denotes, if there is one. -/
def elementOfOption : Option ElementTerm → SessionM (Option Element)
  | none => return none
  | some x => elementOf? x

def exprOf : ExprTerm → SessionM Expr
  | .signature text => do
    let scope ← scopeWithin context none
    ask fun tbl => Signature.parseType tbl scope text
  | .named name => do
    let path := (← get).current
    return .named (← ask fun tbl => tbl.requireType path name) []
  | .array component => return .array (← exprOf component) []
  | .applied name args owner => do
    let owner := (← exprOfOption owner).filter fun o => !o.isAbsent
    let args ← exprsOf args
    let path := (← get).current
    return .applied (← ask fun tbl => tbl.requireType path name) args owner []
  | .wildcard upper lower => do
    let upper ← exprsOf upper
    return .wildcard upper (← exprsOf lower) []
  | .var x => return .var (← asTypeParameter (← suitable (← elementOf? x))) []
  | .foreign value => return .foreign value

/-- The type expressions that several terms denote. -/
def exprsOf : List ExprTerm → SessionM (List Expr)
  | [] => return []
  | e :: es => return (← exprOf e) :: (← exprsOf es)

/-- The type expression that an optional term denotes. -/
def exprOfOption : Option ExprTerm → SessionM (Option Expr)
  | none => return none
  | some e => return some (← exprOf e)

end

end Terms

/-- The element in whose scope signature text is read. To find it may need signature text in turn,
so this has a budget of steps. -/
def evalContext : Nat → SessionM (Option Element)
  | 0 => throw .exhausted
  | fuel + 1 => do elementOfOption (evalContext fuel) (← get).context

/-- The scope of the given element, or without one the current scope. -/
def scope (within : Option Element) : SessionM Scope :=
  scopeWithin (evalContext budget) within

def evalValue : TypeTerm → SessionM Value :=
  valueOf (evalContext budget)

def evalTypes : List TypeTerm → SessionM (List Ty) :=
  typesOf (evalContext budget)

/-- The element that a term denotes, if there is one. -/
def evalElement? : ElementTerm → SessionM (Option Element) :=
  elementOf? (evalContext budget)

/-- The element that an optional term denotes, if there is one. -/
def evalElementOption : Option ElementTerm → SessionM (Option Element) :=
  elementOfOption (evalContext budget)

def evalExpr : ExprTerm → SessionM Expr :=
  exprOf (evalContext budget)

def evalType (t : TypeTerm) : SessionM Ty := do
  asType (← evalValue t)

/-- The element that a term denotes, which must exist. -/
def evalElement (x : ElementTerm) : SessionM Element := do
  suitable (← evalElement? x)

end NominalTypes.Session
