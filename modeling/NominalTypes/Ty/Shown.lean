import NominalTypes.Declaration.Shown
import NominalTypes.Element.Basic

/-!
# Types in messages

How messages show types part by part. Annotations are left out.
-/

namespace NominalTypes

def Primitive.shown (p : Primitive) : String :=
  s!"<TypeKind.{p.name.toUpper}: " ++ Text.quote p.name ++ ">"

namespace Table

variable (tbl : Table)

def shownWildcard (upper lower : String) : String :=
  s!"WildcardType(extends_bound={upper}, super_bound={lower})"

mutual

def shownType : Ty → String
  | .primitive p _ => s!"PrimitiveType(kind={p.shown})"
  | .none => "NoneType()"
  | .void _ => "VoidType()"
  | .null => "NullType()"
  | .array component _ => s!"ArrayType(component={shownType component})"
  | .declared c args owner _ =>
    let element := tbl.shownElement (.type c)
    let args := shownTuple (shownTypes args)
    s!"DeclaredType(element={element}, args={args}, owner={shownOwner owner})"
  | .var _ v _ => s!"TypeVariable(element={tbl.shownElement (.typeParameter v)})"
  | .wildcard _ upper lower _ => shownWildcard (shownType upper) (shownType lower)
  | .captured token site upper lower _ =>
    let wildcard := shownWildcard (shownType upper) (shownType lower)
    s!"CapturedType(wildcard={wildcard}, token={token}, site={site})"
  | .intersection _ bounds => s!"IntersectionType(bounds={shownTuple (shownTypes bounds)})"
  | .union _ alternatives => s!"UnionType(alternatives={shownTuple (shownTypes alternatives)})"
  | .executable e vars result parameters receiver thrown =>
    let element := tbl.shownElement (.executable e)
    s!"ExecutableType(element={element}, type_variables={shownTuple (shownTypes vars)}, " ++
      s!"return_type={shownType result}, parameter_types={shownTuple (shownTypes parameters)}, " ++
      s!"receiver_type={shownType receiver}, thrown_types={shownTuple (shownTypes thrown)})"
  | .package p => s!"PackageType(element={tbl.shownElement (.package p)})"

def shownTypes : List Ty → List String
  | [] => []
  | t :: ts => shownType t :: shownTypes ts

def shownOwner : Option Ty → String
  | none => Datum.shown .null
  | some t => shownType t

end

end Table

end NominalTypes
