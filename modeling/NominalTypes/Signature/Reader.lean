import NominalTypes.Signature.Scope
import NominalTypes.Signature.Token

/-!
# Reading signature text

The grammar of type expressions is

* type: annotations, a reference, and any number of `[]` and `...`;
* reference: a type variable, or a dotted name of a class with arguments, followed by member classes
  with arguments;
* arguments: arguments in angle brackets, separated by commas;
* argument: annotations and a wildcard with at most one bound, or a type.

Names are resolved while they are read. The first token that does not fit fixes the position of an
error.
-/

namespace NominalTypes.Signature

/-- The text that is read and the scope in which it is read. -/
structure Source where
  tbl : Table
  scope : Scope
  text : String

/-- Reads something from the front of a list of tokens. -/
abbrev Reading := StateT (List Lexeme) Result

variable (src : Source)

def failAt {α : Type} (fault : SignatureFault) (position : Nat) : Reading α :=
  throw (.signature fault src.text position)

/-- Fails at the next token, or at the end of the text. -/
def fail {α : Type} (fault : SignatureFault) : Reading α := do
  match ← get with
  | [] => failAt src fault src.text.length
  | next :: _ => failAt src fault next.position

def peek? : Reading (Option Token) := do
  return (← get).head?.map (·.token)

def advance : Reading Unit :=
  modify List.tail

def nextIs (c : Char) : Reading Bool := do
  return (← peek?) == some (.mark c)

def expect (c : Char) : Reading Unit := do
  if ← nextIs c then advance else fail src (.expected c.toString)

def identifier : Reading String := do
  match ← peek? with
  | none => fail src .unexpectedEnd
  | some (.identifier name) =>
    advance
    return name
  | some _ => fail src .expectedIdentifier

def moreSegments : List Lexeme → List String × List Lexeme
  | ⟨.mark '.', _⟩ :: ⟨.identifier name, _⟩ :: rest =>
    let (names, rest) := moreSegments rest
    (name :: names, rest)
  | rest => ([], rest)

def dottedName : Reading (List String) := do
  let first ← identifier src
  let (more, rest) := moreSegments (← get)
  set rest
  return first :: more

/-- Reads annotations, at most `fuel` of them. -/
def annotationsWithin : Nat → Reading (List ClassId)
  | 0 => return []
  | fuel + 1 => do
    if ← nextIs '@' then
      advance
      let name := ".".intercalate (← dottedName src)
      match ← src.scope.resolveClass src.tbl name with
      | some c =>
        if (src.tbl.cls c).kind == .annotationType then
          return c :: (← annotationsWithin fuel)
        else fail src (.notAnAnnotationType name)
      | none => fail src (.notAnAnnotationType name)
    else return []

def readAnnotations : Reading (List ClassId) := do
  annotationsWithin src (← get).length

def readArrayMarks : Expr → List Lexeme → Result (Expr × List Lexeme)
  | e, ⟨.ellipsis, _⟩ :: rest => readArrayMarks (.array e []) rest
  | e, ⟨.mark '[', _⟩ :: ⟨.mark ']', _⟩ :: rest => readArrayMarks (.array e []) rest
  | _, ⟨.mark '[', _⟩ :: rest => fail src (.expected "]") rest
  | e, rest => .ok (e, rest)

def mark (marks : List ClassId) : Expr → Expr
  | .named c own => .named c (marks ++ own)
  | .array component own => .array component (marks ++ own)
  | .applied c args owner own => .applied c args owner (marks ++ own)
  | .wildcard upper lower own => .wildcard upper lower (marks ++ own)
  | .var v own => .var v (marks ++ own)
  | .foreign value => .foreign value

/-- Reads the bound of a wildcard after the question mark. -/
def readWildcard (type : Reading Expr) (marks : List ClassId) : Reading Expr := do
  match ← peek? with
  | some (.identifier "extends") =>
    advance
    return .wildcard [← type] [] marks
  | some (.identifier "super") =>
    advance
    return .wildcard [] [← type] marks
  | _ => return .wildcard [] [] marks

def readArgument (type : Reading Expr) : Reading Expr := do
  let start ← get
  let marks ← readAnnotations src
  if ← nextIs '?' then
    advance
    readWildcard type marks
  else
    set start
    type

/-- Reads the arguments after a comma, at most `fuel` of them. -/
def moreArguments (type : Reading Expr) : Nat → Reading (List Expr)
  | 0 => return []
  | fuel + 1 => do
    if ← nextIs ',' then
      advance
      let arg ← readArgument src type
      return arg :: (← moreArguments type fuel)
    else return []

def readArguments (type : Reading Expr) : Reading (List Expr) := do
  let first ← readArgument src type
  let more ← moreArguments src type (← get).length
  expect src '>'
  return first :: more

/-- A class that is used with arguments and an owner. -/
def classUse (c : ClassId) : List Expr → Option Expr → Expr
  | [], none => .named c []
  | args, owner => .applied c args owner []

/-- Reads the arguments of a class, if there are any, and applies it to them. -/
def readApplied (type : Reading Expr) (c : ClassId) (owner : Option Expr) : Reading Expr := do
  match ← get with
  | ⟨.mark '<', position⟩ :: _ =>
    advance
    let args ← readArguments src type
    let d := src.tbl.cls c
    if d.isPrimitive then failAt src (.parameterizedPrimitive d.name) position
    else if args.length ≠ d.typeParameters.length then
      failAt src (.argumentCount d.name d.typeParameters.length args.length) position
    else return classUse c args owner
  | _ => return classUse c [] owner

/-- The type as the owner of a member class: only a type with arguments is one. -/
def asOwner : Expr → Option Expr
  | .applied c args owner marks => some (.applied c args owner marks)
  | _ => none

/-- Reads member classes after a class, at most `fuel` of them. -/
def readMembers (type : Reading Expr) : Nat → ClassId → Expr → Reading Expr
  | 0, _, e => return e
  | fuel + 1, c, e => do
    if ← nextIs '.' then
      advance
      let name ← identifier src
      match ← src.tbl.inheritedMemberClass c name with
      | some m => readMembers type fuel m (← readApplied src type m (asOwner e))
      | none => fail src (.unknownMember (src.tbl.cls c).name name)
    else return e

/-- Reads a class with arguments and members that begins with a dotted name. -/
def readClass (type : Reading Expr) (segments : List String) (start : Nat) : Reading Expr := do
  let name := ".".intercalate segments
  match ← src.scope.resolveClass src.tbl name with
  | some c =>
    let e ← readApplied src type c none
    readMembers src type (← get).length c e
  | none => failAt src (.unknownType name) start

def scopedVariable? (segments : List String) : Option TypeVarId :=
  match segments with
  | [name] => src.scope.typeVariables.lookup name
  | _ => none

def readReference (type : Reading Expr) : Reading Expr := do
  let start := ((← get).head?.map (·.position)).getD src.text.length
  let segments ← dottedName src
  match scopedVariable? src segments with
  | some v =>
    if (← nextIs '<') || (← nextIs '.') then
      fail src (.qualifiedVariable (".".intercalate segments))
    else return .var v []
  | none => readClass src type segments start

/-- Reads a type whose arguments are nested at most `fuel` deep. -/
def readType : Nat → Reading Expr
  | 0 => throw .exhausted
  | fuel + 1 => do
    let marks ← readAnnotations src
    let e ← readReference src (readType fuel)
    readArrayMarks src (mark marks e)

/-- Reads the bounds after an ampersand, at most `fuel` of them. -/
def moreBounds (type : Reading Expr) : Nat → Reading (List Expr)
  | 0 => return []
  | fuel + 1 => do
    if ← nextIs '&' then
      advance
      let bound ← type
      return bound :: (← moreBounds type fuel)
    else return []

def readBounds (type : Reading Expr) : Reading (List Expr) := do
  let first ← type
  return first :: (← moreBounds type (← get).length)

def readWhole {α : Type} (read : Reading Expr → Reading α) : Result α := do
  let lexemes ← tokenize src.tbl.words src.text
  let (result, rest) ← (read (readType src (lexemes.length + 1))).run lexemes
  match rest with
  | [] => return result
  | next :: _ => throw (.signature .trailingText src.text next.position)

/-- The type expression that the text denotes in the scope. -/
def parseType (tbl : Table) (scope : Scope) (text : String) : Result Expr :=
  readWhole ⟨tbl, scope, text⟩ id

/-- The bounds that the text denotes in the scope. -/
def parseBounds (tbl : Table) (scope : Scope) (text : String) : Result (List Expr) :=
  readWhole ⟨tbl, scope, text⟩ readBounds

end NominalTypes.Signature
