import NominalTypes.Declaration.Enclosing
import NominalTypes.Ty.Basic

/-!
# Types in source text

A type is rendered as it would be written: classes by their full names, members of types with
arguments after those types, and annotations in front. A type has such a name if every owner that
would be looked at is a declared type.
-/

namespace NominalTypes.Table

variable (tbl : Table)

/-- Whether the type is the root class, which is known by its name. -/
def isObject : Ty → Bool
  | .declared c _ _ _ => (tbl.cls c).name == "java.lang.Object"
  | _ => false

def markText (c : ClassId) : String :=
  "@" ++ tbl.qualifiedName c

def withMarks (marks : List ClassId) (text : String) : String :=
  " ".intercalate (marks.map tbl.markText ++ [text])

/-- Arguments in angle brackets, if there are any. -/
def argumentText : List String → String
  | [] => ""
  | args => "<" ++ ", ".intercalate args ++ ">"

/-- Whether a member class is written after its owner: when the owner, or the type around that, has
arguments. -/
def showsOwner : Option Ty → Bool
  | some (.declared _ args owner _) => !args.isEmpty || owner.isSome
  | _ => false

def wildcardText (upper lower : Ty) (upperText lowerText : String) : String :=
  if !lower.isNull then s!"? super {lowerText}"
  else if tbl.isObject upper then "?"
  else s!"? extends {upperText}"

mutual

def typeText : Ty → String
  | .primitive p marks => tbl.withMarks marks p.name
  | .none => "none"
  | .void marks => tbl.withMarks marks "void"
  | .null => "null"
  | .array component marks => tbl.withMarks marks (typeText component ++ "[]")
  | .declared c args owner marks =>
    let name :=
      if showsOwner owner then ownerText owner ++ "." ++ (tbl.cls c).simpleName.shown
      else (tbl.cls c).name
    tbl.withMarks marks (name ++ argumentText (typeTexts args))
  | .var _ v marks => tbl.withMarks marks (tbl.typeVar v).name
  | .wildcard _ upper lower marks =>
    tbl.withMarks marks (tbl.wildcardText upper lower (typeText upper) (typeText lower))
  | .captured token _ upper lower _ =>
    s!"capture#{token} of {tbl.wildcardText upper lower (typeText upper) (typeText lower)}"
  | .intersection _ bounds => " & ".intercalate (typeTexts bounds)
  | .union _ alternatives => " | ".intercalate (typeTexts alternatives)
  | .executable _ vars result parameters _ thrown =>
    argumentText (typeTexts vars) ++ "(" ++ ", ".intercalate (typeTexts parameters) ++ ")" ++
      typeText result ++
      match typeTexts thrown with
      | [] => ""
      | thrown => " throws " ++ ", ".intercalate thrown
  | .package p => (tbl.package p).name.shown

def typeTexts : List Ty → List String
  | [] => []
  | t :: ts => typeText t :: typeTexts ts

def ownerText : Option Ty → String
  | none => ""
  | some t => typeText t

end

mutual

/-- Whether the type has a name: its owners, as far as the name shows them, are declared types. -/
def hasName : Ty → Bool
  | .array component _ => hasName component
  | .declared _ args owner _ => haveNames args && ownerHasName owner
  | .wildcard _ upper lower _ => if lower.isNull then hasName upper else hasName lower
  | .captured _ _ upper lower _ => if lower.isNull then hasName upper else hasName lower
  | .intersection _ bounds => haveNames bounds
  | .union _ alternatives => haveNames alternatives
  | .executable _ vars result parameters _ thrown =>
    haveNames vars && haveNames parameters && hasName result && haveNames thrown
  | _ => true

def haveNames : List Ty → Bool
  | [] => true
  | t :: ts => hasName t && haveNames ts

/-- Whether an owner, if there is one, is a declared type with a name. -/
def ownerHasName : Option Ty → Bool
  | some (.declared _ args owner _) => haveNames args && ownerHasName owner
  | some _ => false
  | none => true

end

def typeName (t : Ty) : Result String :=
  if hasName t then .ok (tbl.typeText t) else .error .unsuitable

/-- The name of a type as it was given: a class or package with nothing around its name has that
name itself, and any other type its source text. -/
def givenTypeName (t : Ty) : Result Name := do
  let text ← tbl.typeName t
  match t with
  | .declared c [] owner [] => return if showsOwner owner then text else (tbl.cls c).givenName
  | .package p => return (tbl.package p).name
  | _ => return text

end NominalTypes.Table
