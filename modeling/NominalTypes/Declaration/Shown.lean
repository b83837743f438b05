import NominalTypes.Declaration.ClassPath

/-!
# Declarations and type expressions in messages

How messages show declarations, type expressions and class paths.
-/

namespace NominalTypes.Table

variable (tbl : Table)

def shownClass (c : ClassId) : String :=
  s!"NativeClass({(tbl.cls c).givenName.quoted})"

def shownPackage (p : PackageId) : String :=
  s!"NativePackage({(tbl.package p).name.quoted})"

def shownTypeVar (v : TypeVarId) : String :=
  "NativeTypeVariable(" ++ Text.quote (tbl.typeVar v).name ++ ")"

def shownExecutable (e : ExecutableId) : String :=
  s!"NativeExecutable({(tbl.cls e.cls).name}.{(tbl.executable e).name.shown})"

def shownField (f : FieldId) : String :=
  s!"NativeField({(tbl.cls f.cls).name}.{(tbl.field f).name.shown})"

def shownParameter (p : ParameterId) : String :=
  s!"NativeParameter({(tbl.parameter p).name.quoted})"

/-- Parts in round brackets; a single part is followed by a comma. -/
def shownTuple : List String → String
  | [part] => s!"({part},)"
  | parts => "(" ++ ", ".intercalate parts ++ ")"

/-- The annotations of a type expression in a message. -/
def shownMarks (marks : List ClassId) : String :=
  shownTuple (marks.map fun c => s!"NativeAnnotation(@{(tbl.cls c).name})")

mutual

def shownExpr : Expr → String
  | .named c marks => s!"ClassRef(target={tbl.shownClass c}, annotations={tbl.shownMarks marks})"
  | .array component marks =>
    s!"ArrayOf(component={shownExpr component}, annotations={tbl.shownMarks marks})"
  | .applied c args owner marks =>
    let shownOwner :=
      match owner with
      | some o => shownExpr o
      | none => "None"
    s!"Parameterized(raw={tbl.shownClass c}, args={shownTuple (shownExprs args)}, " ++
      s!"owner={shownOwner}, annotations={tbl.shownMarks marks})"
  | .wildcard upper lower marks =>
    s!"WildcardOf(upper={shownTuple (shownExprs upper)}, lower={shownTuple (shownExprs lower)}, " ++
      s!"annotations={tbl.shownMarks marks})"
  | .var v marks =>
    s!"TypeVarRef(variable={tbl.shownTypeVar v}, annotations={tbl.shownMarks marks})"
  | .foreign value => value.shown

def shownExprs : List Expr → List String
  | [] => []
  | e :: es => shownExpr e :: shownExprs es

end

/-- A class path in a message, with its ancestors given from the parent on. -/
def shownPathIn : List ClassPath → String
  | [] => "None"
  | p :: ancestors => s!"ClassPath({p.types.size} types, parent={shownPathIn ancestors})"

def shownPath (p : PathId) : String :=
  shownPathIn (tbl.pathChain p).reverse

end NominalTypes.Table
