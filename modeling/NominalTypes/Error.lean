import NominalTypes.Document.Datum
import NominalTypes.Ty.Kind

/-!
# Errors

Every operation either answers or gives the cause of its failure. Causes are grouped by what was
wrong: the kind of an argument, the form of a type expression, the structure of an otherwise well
formed input, the text of a signature, and so on. `Error.message` has the wording.

A search that would go on for ever is stopped when its budget of steps is used up. The cause
`Error.exhausted` says so, and says nothing else about the input.
-/

namespace NominalTypes

/-- An argument has a kind that the operation does not take. Declarations, types and expressions are
given as messages show them. -/
inductive KindFault where
  | notPrimitiveKind (kind : TypeKind)
  | notNoTypeKind (kind : TypeKind)
  | arrayComponent (kind : TypeKind)
  | typeArgument (kind : TypeKind)
  | wildcardBound (kind : TypeKind)
  | primitiveClass (name : String)
  | classWithoutPackage (name : String)
  | declaresNoType (element : String)
  | notADeclaration (value : String)
  | noTypeExpression (declaration : String)
  | noUnboxedType (type : String)
  | notCapturable (kind : TypeKind)
  | neverAMember (element : String)
  | notAContainer (kind : TypeKind)
  | notAType (kind : TypeKind)
  | notAnExecutable (kind : TypeKind)
  | noSupertypes (kind : TypeKind)
  | noUpperBound (kind : TypeKind)
  | noMembers (element : String)
  | noPackage (element : String)
  | notAConstant (value : Datum)

def KindFault.message : KindFault → String
  | notPrimitiveKind kind => s!"Not a primitive kind: {kind.name}"
  | notNoTypeKind kind => s!"Not a no-type kind: {kind.name}"
  | arrayComponent kind => s!"Invalid array component kind: {kind.name}"
  | typeArgument kind => s!"Invalid type argument kind: {kind.name}"
  | wildcardBound kind => s!"Invalid wildcard bound kind: {kind.name}"
  | primitiveClass name => s!"{name} is a primitive pseudo-class, not a type declaration"
  | classWithoutPackage name => s!"Top-level class {name} has no package"
  | declaresNoType element => s!"{element} declares no type"
  | notADeclaration value => s!"Not a native declaration: {value}"
  | noTypeExpression declaration => s!"{declaration} has no generic type expression"
  | noUnboxedType type => s!"{type} has no unboxed type"
  | notCapturable kind => s!"Cannot capture a {kind.name} type"
  | neverAMember element => s!"{element} cannot be a member of a type"
  | notAContainer kind => s!"Containing type must be a declared type, got {kind.name}"
  | notAType kind => s!"Expected a type, got a {kind.name} type"
  | notAnExecutable kind => s!"Expected an executable type, got {kind.name}"
  | noSupertypes kind => s!"A {kind.name} type has no supertypes"
  | noUpperBound kind => s!"A {kind.name} type has no upper bound"
  | noMembers element => s!"Only type declarations have members, got {element}"
  | noPackage element => s!"{element} is not declared in a package"
  | notAConstant value => s!"Not a constant value: {value.shown} ({value.sort})"

/-- A type expression has a form that denotes no type. -/
inductive FormFault where
  | ownerNotDeclared (name : String) (owner : String)
  | notAnExpression (value : String)

def FormFault.message : FormFault → String
  | ownerNotDeclared name owner => s!"Owner of {name} is not a declared type: {owner}"
  | notAnExpression value => s!"Unsupported native type expression: {value}"

/-- A type has no erasure. -/
inductive ErasureFault where
  | package (name : String)
  | notAType (value : String)
  | unboundedUnion (union : String)

def ErasureFault.message : ErasureFault → String
  | package name => s!"Package {name} has no erasure"
  | notAType value => s!"Unexpected type: {value}"
  | unboundedUnion union => s!"Union {union} has no common supertype to erase to"

/-- A value cannot be the value of an annotation attribute. -/
inductive ValueFault where
  | nestedArrays
  | mixedArray
  | unsupported (value : Datum)

def ValueFault.message : ValueFault → String
  | nestedArrays => "Annotation arrays cannot be nested"
  | mixedArray => "Annotation array elements must all have the same kind"
  | unsupported value => s!"Unsupported annotation value: {value.shown} ({value.sort})"

/-- An input of the right kind is not well structured. -/
inductive StructureFault where
  | argumentCount (name : String) (needed given : Nat)
  | twoWildcardBounds
  | fewBounds
  | fewAlternatives
  | notAnOwner (owner name : String)
  | outOfBounds (argument bound parameter : String)
  | noTypes
  | duplicateType (name : String)
  | notADocument
  | notDocuments
  | notATypeEntry (entry : Datum)
  | unknownChoice (choice : String) (value : Datum) (names : List String)
  | notNested (nesting name : String)
  | unnamed
  | variadicNotLast (executable : String)
  | missingField (place key : String) (entry : Datum)
  | notAnAnnotationType (name : String)
  | unknownClassLiteral (name : String)
  | unknownEnumConstant (name : String)
  | unknownAttributes (type : String) (names : List String)

def StructureFault.message : StructureFault → String
  | argumentCount name needed given =>
    s!"{name} expects {needed} type argument(s), got {given}"
  | twoWildcardBounds => "A wildcard cannot have both an extends and a super bound"
  | fewBounds => "An intersection type needs at least two bounds"
  | fewAlternatives => "A union type needs at least two alternatives"
  | notAnOwner owner name => s!"{owner} is not an owner of {name}"
  | outOfBounds argument bound parameter =>
    s!"Type argument {argument} is not within bound {bound} of {parameter}"
  | noTypes => "least_upper_bounds needs at least one type"
  | duplicateType name => "Type " ++ Text.quote name ++ " is already defined"
  | notADocument => "Stub document must be an object with a 'package' field"
  | notDocuments => "Expected a JSON object or array of stub documents"
  | notATypeEntry entry => s!"Type entry must be an object, got {entry.shown}"
  | unknownChoice choice value names =>
    s!"Unknown {choice} {value.shown}, expected one of: " ++ ", ".intercalate names
  | notNested nesting name => s!"Only nested types can be {nesting} ({name})"
  | unnamed => "Only anonymous types may omit their name"
  | variadicNotLast executable => s!"Only the last parameter of {executable} may be variadic"
  | missingField place key entry =>
    s!"Entry in {place} is missing " ++ Text.quote key ++ s!": {entry.shown}"
  | notAnAnnotationType name => "Not an annotation type: " ++ Text.quote name
  | unknownClassLiteral name => "Cannot resolve class literal " ++ Text.quote name
  | unknownEnumConstant name => "Cannot resolve enum constant " ++ Text.quote name
  | unknownAttributes type names =>
    s!"@{type} has no attribute(s) " ++ ", ".intercalate names

/-- Signature text could not be read. -/
inductive SignatureFault where
  | unexpectedCharacter
  | unexpectedEnd
  | expected (token : String)
  | expectedIdentifier
  | trailingText
  | notAnAnnotationType (name : String)
  | qualifiedVariable (name : String)
  | unknownType (name : String)
  | unknownMember (cls name : String)
  | parameterizedPrimitive (name : String)
  | argumentCount (name : String) (needed given : Nat)
  | malformedParameter
  deriving DecidableEq, Repr

def SignatureFault.message : SignatureFault → String
  | unexpectedCharacter => "Unexpected character"
  | unexpectedEnd => "Unexpected end of signature"
  | expected token => "Expected " ++ Text.quote token
  | expectedIdentifier => "Expected an identifier"
  | trailingText => "Unexpected trailing text"
  | notAnAnnotationType name => s!"Not an annotation type: {name}"
  | qualifiedVariable name => s!"Type variable {name} cannot be qualified or parameterized"
  | unknownType name => "Cannot resolve type " ++ Text.quote name
  | unknownMember cls name => s!"{cls} has no member type " ++ Text.quote name
  | parameterizedPrimitive name => s!"Primitive type {name} cannot be parameterized"
  | argumentCount name needed given =>
    s!"{name} expects {needed} type argument(s), got {given}"
  | malformedParameter => "Malformed type parameter"

/-- A document value stands where a value of another sort is needed. -/
inductive ShapeFault where
  | notItems
  | notText
  /-- The type of a parameter or of an annotation, a list that stands for a type, or an import. -/
  | notTypeText
  | notObject

/-- The cause of a failure. -/
inductive Error where
  | kind (fault : KindFault)
  | form (fault : FormFault)
  | erasure (fault : ErasureFault)
  | value (fault : ValueFault)
  | structural (fault : StructureFault)
  | notAMember (element container : String)
  | signature (fault : SignatureFault) (text : String) (position : Nat)
  | typeNotFound (name : String)
  | unknownModifier (keyword : Datum)
  | namesNoClass (expression : String)
  | primitiveStub
  | unevenArguments
  /-- What was given cannot play the part that the operation needs. -/
  | unsuitable
  | unknownKind (name : String)
  | notJson
  /-- Text spells no number, or an integer with too many digits. -/
  | notANumber
  | outOfRange
  | shape (fault : ShapeFault)
  | noSuchItem
  | noSuchKey
  | exhausted

/-- The wording of an error of signature text: the fault, then the text with a mark under the
position of the fault. -/
def signatureMessage (fault : SignatureFault) (text : String) (position : Nat) : String :=
  if text.isEmpty then fault.message
  else s!"{fault.message}\n  {text}\n  " ++ String.ofList (List.replicate position ' ') ++ "^"

/-- The wording of an error, where it has one. -/
def Error.message? : Error → Option String
  | kind fault => some fault.message
  | form fault => some fault.message
  | erasure fault => some fault.message
  | value fault => some fault.message
  | structural fault => some fault.message
  | notAMember element container => some s!"{element} is not a member of {container}"
  | signature fault text position => some (signatureMessage fault text position)
  | typeNotFound name => some ("No type named " ++ Text.quote name ++ " on the class path")
  | unknownModifier keyword => some s!"Unknown modifier keyword: {keyword.shown}"
  | namesNoClass expression => some s!"Type expression does not name a class: {expression}"
  | primitiveStub => none
  | unevenArguments => none
  | unsuitable => none
  | unknownKind _ => none
  | notJson => none
  | notANumber => none
  | outOfRange => none
  | shape _ => none
  | noSuchItem => none
  | noSuchKey => none
  | exhausted => none

/-- An answer, or the cause of a failure. -/
abbrev Result := Except Error

/-- The failure with the given cause, in a computation that results are part of. -/
def failWith {m : Type → Type} {α : Type} [MonadLiftT Result m] (e : Error) : m α :=
  liftM (Except.error e : Result α)

@[simp]
theorem failWith_eq_error {α : Type} (e : Error) : (failWith e : Result α) = .error e :=
  rfl

end NominalTypes
