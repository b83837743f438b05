import NominalTypes.Proofs.Resolution
import NominalTypes.Signature.Reader

/-!
# The grammar of type expressions

The rules say which type expression a sequence of tokens stands for:

* type: annotations, a reference, and any number of `[]` and `...`;
* reference: a type variable, or the longest dotted name that denotes a class, arguments if there
are any, and any number of member classes, each after a dot and with arguments if there are any;
* arguments: arguments in angle brackets, separated by commas;
* argument: annotations, a question mark and at most one bound, or a type.

The rules for the parts of a type take the relation for nested types as a parameter, and `IsType`
ties the knot. Nothing in them refers to the reader.

A dotted name is as long as possible. This leaves one way to read a name that is followed by a dot:
if the next segment names a member class, then it belongs to the name
(`Reference.not_dot_of_resolves`).
-/

namespace NominalTypes.Signature.Grammar

open List

variable (tbl : Table) (scope : Scope)

/-- Segments with a dot before each of them. -/
def dots (names : List String) : List Token :=
  names.flatMap fun name => [.mark '.', .identifier name]

/-- The tokens of a dotted name. -/
def dotted (first : String) (more : List String) : List Token :=
  .identifier first :: dots more

/-- A dotted name denotes a class. -/
def Denotes (names : List String) (c : ClassId) : Prop :=
  scope.resolveClass tbl (".".intercalate names) = .ok (some c)

/-- Annotations: names of annotation types, each after an at sign. -/
inductive Annotations : List Token → List ClassId → Prop
  | none : Annotations [] []
  | more {first more c ts marks} (hname : Denotes tbl scope (first :: more) c)
      (hkind : (tbl.cls c).kind = .annotationType) (hmarks : Annotations ts marks) :
      Annotations (.mark '@' :: (dotted first more ++ ts)) (c :: marks)

/-- Array marks after an expression. -/
inductive ArrayMarks : Expr → List Token → Expr → Prop
  | none {e} : ArrayMarks e [] e
  | brackets {e ts e'} (h : ArrayMarks (.array e []) ts e') :
      ArrayMarks e (.mark '[' :: .mark ']' :: ts) e'
  | ellipsis {e ts e'} (h : ArrayMarks (.array e []) ts e') : ArrayMarks e (.ellipsis :: ts) e'

section

variable (T : List Token → Expr → Prop)

/-- An argument. -/
inductive Argument : List Token → Expr → Prop
  | type {ts e} (h : T ts e) : Argument ts e
  | unbounded {ms marks} (hmarks : Annotations tbl scope ms marks) :
      Argument (ms ++ [.mark '?']) (.wildcard [] [] marks)
  | upper {ms marks ts e} (hmarks : Annotations tbl scope ms marks) (h : T ts e) :
      Argument (ms ++ .mark '?' :: .identifier "extends" :: ts) (.wildcard [e] [] marks)
  | lower {ms marks ts e} (hmarks : Annotations tbl scope ms marks) (h : T ts e) :
      Argument (ms ++ .mark '?' :: .identifier "super" :: ts) (.wildcard [] [e] marks)

/-- Further arguments, each after a comma. -/
inductive Further : List Token → List Expr → Prop
  | none : Further [] []
  | more {ts e us es} (h : Argument tbl scope T ts e) (hmore : Further us es) :
      Further (.mark ',' :: (ts ++ us)) (e :: es)

/-- The use of a class below an owner, with or without arguments. Primitive types take none, and
other classes as many as they have type parameters. -/
inductive Use : List Token → ClassId → Option Expr → Expr → Prop
  | plain {c owner} : Use [] c owner (classUse c [] owner)
  | applied {c owner ts e us es} (hprimitive : (tbl.cls c).isPrimitive = false)
      (hcount : (e :: es).length = (tbl.cls c).typeParameters.length)
      (hfirst : Argument tbl scope T ts e) (hmore : Further tbl scope T us es) :
      Use (.mark '<' :: (ts ++ us ++ [.mark '>'])) c owner (classUse c (e :: es) owner)

/-- Member classes of a class that is used by an expression. An expression with arguments is the
owner of the next one. -/
inductive Members : ClassId → Expr → List Token → Expr → Prop
  | none {c e} : Members c e [] e
  | more {c e name m ts e' us e''} (hmember : tbl.inheritedMemberClass c name = .ok (some m))
      (huse : Use tbl scope T ts m (asOwner e) e') (hmore : Members m e' us e'') :
      Members c e (.mark '.' :: .identifier name :: (ts ++ us)) e''

/-- A type variable, or a class with arguments and members. A name without dots that is a type
variable in scope denotes nothing else. -/
inductive Reference : List Token → Expr → Prop
  | var {name v} (h : scope.typeVariables.lookup name = some v) :
      Reference [.identifier name] (.var v [])
  | cls {first more c ts e us e'}
      (hvariable : more = [] → scope.typeVariables.lookup first = none)
      (hname : Denotes tbl scope (first :: more) c)
      (hlongest : ∀ longer rest d, longer ≠ [] → ts ++ us = dots longer ++ rest →
        ¬ Denotes tbl scope (first :: (more ++ longer)) d)
      (huse : Use tbl scope T ts c none e) (hmembers : Members tbl scope T c e us e') :
      Reference (dotted first more ++ (ts ++ us)) e'

end

/-- A type. -/
inductive IsType : List Token → Expr → Prop
  | intro {ms marks rs e us e'} (hmarks : Annotations tbl scope ms marks)
      (href : Reference tbl scope IsType rs e) (harrays : ArrayMarks (mark marks e) us e') :
      IsType (ms ++ (rs ++ us)) e'

variable {tbl scope} {T : List Token → Expr → Prop}

/-! ### What the rules say about the first tokens -/

theorem Reference.exists_head {ts e} (h : Reference tbl scope T ts e) :
    ∃ name us, ts = .identifier name :: us := by
  cases h with
  | var => exact ⟨_, _, rfl⟩
  | cls => exact ⟨_, _, rfl⟩

/-- Before the closing bracket, an argument is followed by further ones or by the bracket. -/
theorem Further.head?_or {ts es} (h : Further tbl scope T ts es) :
    ts.head?.or (some (.mark '>')) = some (.mark ',') ∨
      ts.head?.or (some (.mark '>')) = some (.mark '>') := by
  cases h with
  | none => exact .inr rfl
  | more => exact .inl rfl

/-- Member classes begin with a dot. -/
theorem Members.head?_ne {c e e' ts} (h : Members tbl scope T c e ts e') (next : Option Token)
    (hnext : next ≠ some (.mark '.') ∧ next ≠ some (.mark '<')) :
    ts.head?.or next ≠ some (.mark '<') := by
  cases h with
  | none => exact hnext.2
  | more => nofun

/-- A name that denotes a class is not followed by a member directly. -/
theorem Reference.nil_of_use_nil {first more c us e e'}
    (hidentifiers : ∀ name, .identifier name ∈ dotted first more ++ us →
      IsIdentifier tbl.words name)
    (hname : Denotes tbl scope (first :: more) c)
    (hlongest : ∀ longer rest d, longer ≠ [] → us = dots longer ++ rest →
        ¬ Denotes tbl scope (first :: (more ++ longer)) d)
    (hmembers : Members tbl scope T c e us e') : us = [] := by
  cases hmembers with
  | none => rfl
  | @more _ _ name m ts _ us _ hmember =>
    have hnames : ∀ n ∈ first :: (more ++ [name]), IsIdentifier tbl.words n := by
      intro n hn
      refine hidentifiers n ?_
      simp only [dotted, dots, mem_append, mem_cons, mem_flatMap, not_mem_nil,
        or_false, reduceCtorEq, false_or, Token.identifier.injEq] at hn ⊢
      grind
    obtain ⟨d, hd⟩ := Scope.exists_resolveClass_concat hnames hname hmember
    exact absurd hd (hlongest [name] (ts ++ us) d (cons_ne_nil _ _) rfl)

end NominalTypes.Signature.Grammar
