import NominalTypes.Proofs.Reading

/-!
# The expressions that are read

Whatever the text and the scope are, the reader gives expressions of a certain form, which is
described here without the tokens. A class has as many arguments as it has type parameters, or none;
only a class with arguments, or a member of one, is an owner; a wildcard stands for an argument
only, and has at most one bound.

The form is relative to the number of type parameters of each class, and to the classes that can
follow a class as its members. Classes do not change the number of their type parameters while their
bodies are read, so an expression keeps its form.
-/

namespace NominalTypes

open List

variable {c : ClassId} {e : Expr} {owner : Option Expr}

/-- How many type parameters a class has. -/
def Table.arity (tbl : Table) (c : ClassId) : Nat :=
  (tbl.cls c).typeParameters.length

/-- The second class is found as a member of the first. -/
def Table.HasMember (tbl : Table) (c m : ClassId) : Prop :=
  ∃ name, tbl.inheritedMemberClass c name = .ok (some m)

namespace Expr

/-- Whether the expression is a wildcard. -/
def isWildcard : Expr → Bool
  | wildcard _ _ _ => true
  | _ => false

/-- Expressions as they are read. -/
inductive Written (arity : ClassId → Nat) (member : ClassId → ClassId → Prop) : Expr → Prop
  | named {c marks} : Written arity member (.named c marks)
  | var {v marks} : Written arity member (.var v marks)
  | array {e marks} (he : Written arity member e) (hwildcard : e.isWildcard = false) :
      Written arity member (.array e marks)
  | applied {c args marks} (hargs : ∀ a ∈ args, Written arity member a) (hne : args ≠ [])
      (hcount : args.length = arity c) : Written arity member (.applied c args none marks)
  | member {c args d ds o own marks} (hargs : ∀ a ∈ args, Written arity member a)
      (hcount : args = [] ∨ args.length = arity c) (hmember : member d c)
      (howner : Written arity member (.applied d ds o own)) :
      Written arity member (.applied c args (some (.applied d ds o own)) marks)
  | unbounded {marks} : Written arity member (.wildcard [] [] marks)
  | upper {e marks} (he : Written arity member e) (hwildcard : e.isWildcard = false) :
      Written arity member (.wildcard [e] [] marks)
  | lower {e marks} (he : Written arity member e) (hwildcard : e.isWildcard = false) :
      Written arity member (.wildcard [] [e] marks)

variable {arity arity' : ClassId → Nat} {member member' : ClassId → ClassId → Prop}

/-- Annotations do not count. -/
theorem Written.mark (h : Written arity member e) (marks : List ClassId) :
    Written arity member (Signature.mark marks e) := by
  cases h with
  | named => exact .named
  | var => exact .var
  | array he hwildcard => exact .array he hwildcard
  | applied hargs hne hcount => exact .applied hargs hne hcount
  | member hargs hcount hmember howner => exact .member hargs hcount hmember howner
  | unbounded => exact .unbounded
  | upper he hwildcard => exact .upper he hwildcard
  | lower he hwildcard => exact .lower he hwildcard

/-- Classes without type parameters may come to have some, as they do when they are entered. -/
theorem Written.mono (harity : ∀ c, arity c ≠ 0 → arity' c = arity c)
    (hmember : ∀ d c, member d c → member' d c) (h : Written arity member e) :
    Written arity' member' e := by
  have hlength {args : List Expr} {c} (hne : args ≠ []) (hcount : args.length = arity c) :
      args.length = arity' c := by
    rw [harity c (hcount ▸ mt length_eq_zero_iff.mp hne), hcount]
  induction h with
  | named => exact .named
  | var => exact .var
  | array _ hwildcard ih => exact .array ih hwildcard
  | applied _ hne hcount ih => exact .applied ih hne (hlength hne hcount)
  | @member c args _ _ _ _ _ _ hcount hm _ ih ihowner =>
    refine .member ih ?_ (hmember _ _ hm) ihowner
    exact or_iff_not_imp_left.mpr fun hne => hlength hne (hcount.resolve_left hne)
  | unbounded => exact .unbounded
  | upper _ hwildcard ih => exact .upper ih hwildcard
  | lower _ hwildcard ih => exact .lower ih hwildcard

/-- The expression is a use of the class. -/
def Uses (c : ClassId) (e : Expr) : Prop :=
  ∃ marks, e = .named c marks ∨ ∃ args owner, e = .applied c args owner marks

theorem isWildcard_of_uses (h : Uses c e) : e.isWildcard = false := by
  rcases h with ⟨_, rfl | ⟨_, _, rfl⟩⟩
  · rfl
  · rfl

theorem isWildcard_mark (marks : List ClassId) (e : Expr) :
    (Signature.mark marks e).isWildcard = e.isWildcard := by
  cases e <;> rfl

end Expr

namespace Signature

open NominalTypes.Expr

variable {α β : Type} {src : Source} {r : Reading α} {f : α → Reading β}

/-- If the reading returns, then such a value. -/
def Gives (r : Reading α) (P : α → Prop) : Prop :=
  ∀ ls a rest, r ls = .ok (a, rest) → P a

namespace Gives

variable {P P' : α → Prop} {Q : β → Prop}

theorem any (r : Reading α) : Gives r fun _ => True :=
  fun _ _ _ _ => trivial

theorem mono (h : Gives r P) (hP : ∀ a, P a → P' a) : Gives r P' :=
  fun ls a rest hr => hP a (h ls a rest hr)

theorem pure {a} (h : P a) : Gives (Pure.pure a) P := by
  intro ls b rest hr
  cases hr
  exact h

theorem bind (hr : Gives r P) (hf : ∀ a, P a → Gives (f a) Q) : Gives (r >>= f) Q := by
  intro ls b rest h
  obtain ⟨⟨a, ls'⟩, ha, hb⟩ := bind_eq_ok.mp (show (r ls >>= fun x => f x.1 x.2) = _ from h)
  exact hf a (hr ls a ls' ha) ls' b rest hb

theorem after (hf : ∀ a, Gives (f a) Q) : Gives (r >>= f) Q :=
  (any r).bind fun a _ => hf a

theorem lift {r : Result α} (hf : ∀ a, r = .ok a → Gives (f a) Q) :
    Gives ((liftM r : Reading α) >>= f) Q := by
  refine bind (P := fun a => r = .ok a) ?_ hf
  intro ls a rest h
  obtain ⟨b, hb, h⟩ := bind_eq_ok.mp (show (r >>= fun b => .ok (b, ls)) = _ from h)
  cases h
  exact hb

theorem failAt (fault : SignatureFault) (position : Nat) :
    Gives (Signature.failAt src fault position) P := by
  intro ls a rest h
  cases h

theorem fail (fault : SignatureFault) : Gives (Signature.fail src fault) P := by
  refine after fun ls => ?_
  cases ls with
  | nil => exact failAt _ _
  | cons l ls => exact failAt _ _

end Gives

/-- An expression of the form that is read, and no wildcard. -/
def IsWritten (tbl : Table) (e : Expr) : Prop :=
  Written tbl.arity tbl.HasMember e ∧ e.isWildcard = false

section

variable {type : Reading Expr}

theorem gives_readArrayMarks (he : IsWritten src.tbl e) :
    Gives (readArrayMarks src e) (IsWritten src.tbl) := by
  intro ls
  fun_induction readArrayMarks src e ls with
  | case1 e _ rest ih => exact ih ⟨.array he.1 he.2, rfl⟩
  | case2 e _ _ rest ih => exact ih ⟨.array he.1 he.2, rfl⟩
  | case3 => exact Gives.fail _ _
  | case4 e rest =>
    intro a rest' h
    cases h
    exact he

variable (htype : Gives type (IsWritten src.tbl))
include htype

theorem gives_readWildcard (marks : List ClassId) :
    Gives (readWildcard type marks) (Written src.tbl.arity src.tbl.HasMember) := by
  refine Gives.after fun next => ?_
  split
  · exact Gives.after fun _ => htype.bind fun e he => Gives.pure (.upper he.1 he.2)
  · exact Gives.after fun _ => htype.bind fun e he => Gives.pure (.lower he.1 he.2)
  · exact Gives.pure .unbounded

theorem gives_readArgument :
    Gives (readArgument src type) (Written src.tbl.arity src.tbl.HasMember) := by
  refine Gives.after fun start => Gives.after fun marks => Gives.after fun isWild => ?_
  split
  · exact Gives.after fun _ => gives_readWildcard htype marks
  · exact Gives.after fun _ => htype.mono fun e he => he.1

theorem gives_moreArguments (fuel : Nat) :
    Gives (moreArguments src type fuel)
      fun es => ∀ e ∈ es, Written src.tbl.arity src.tbl.HasMember e := by
  induction fuel with
  | zero => exact Gives.pure (forall_mem_nil _)
  | succ fuel ih =>
    refine Gives.after fun more => ?_
    split
    · refine Gives.after fun _ => (gives_readArgument htype).bind fun e he => ?_
      exact ih.bind fun es hes => Gives.pure (forall_mem_cons.mpr ⟨he, hes⟩)
    · exact Gives.pure (forall_mem_nil _)

theorem gives_readArguments :
    Gives (readArguments src type)
      fun es => es ≠ [] ∧ ∀ e ∈ es, Written src.tbl.arity src.tbl.HasMember e := by
  refine (gives_readArgument htype).bind fun e he => Gives.after fun ls => ?_
  refine (gives_moreArguments htype ls.length).bind fun es hes => Gives.after fun _ => ?_
  exact Gives.pure ⟨cons_ne_nil _ _, forall_mem_cons.mpr ⟨he, hes⟩⟩

omit htype in
/-- A class with arguments, or without: below an owner it may be both. -/
theorem written_classUse {tbl : Table} {args}
    (hargs : ∀ a ∈ args, Written tbl.arity tbl.HasMember a)
    (hcount : args = [] ∨ args.length = tbl.arity c)
    (howner : ∀ o ∈ owner, Written tbl.arity tbl.HasMember o ∧
      ∃ d ds outer marks, o = .applied d ds outer marks ∧ tbl.HasMember d c) :
    Written tbl.arity tbl.HasMember (classUse c args owner) ∧ Uses c (classUse c args owner) := by
  cases owner with
  | none =>
    cases args with
    | nil => exact ⟨.named, [], .inl rfl⟩
    | cons a as =>
      have hne : a :: as ≠ [] := cons_ne_nil _ _
      exact ⟨.applied hargs hne (hcount.resolve_left hne), [], .inr ⟨_, _, rfl⟩⟩
  | some o =>
    obtain ⟨hwritten, d, ds, outer, marks, rfl, hmember⟩ := howner o rfl
    have huse : classUse c args (some (.applied d ds outer marks)) =
        .applied c args (some (.applied d ds outer marks)) [] := by
      cases args <;> rfl
    rw [huse]
    exact ⟨.member hargs hcount hmember hwritten, [], .inr ⟨_, _, rfl⟩⟩

theorem gives_readApplied (howner : ∀ o ∈ owner, Written src.tbl.arity src.tbl.HasMember o ∧
      ∃ d ds outer marks, o = .applied d ds outer marks ∧ src.tbl.HasMember d c) :
    Gives (readApplied src type c owner) fun e =>
      Written src.tbl.arity src.tbl.HasMember e ∧ Uses c e := by
  refine Gives.after fun ls => ?_
  split
  · refine Gives.after fun _ => (gives_readArguments htype).bind fun args hargs => ?_
    dsimp only
    split
    · exact Gives.failAt _ _
    · split
      · exact Gives.failAt _ _
      · rename_i hcount
        exact Gives.pure (written_classUse hargs.2 (.inr (not_not.mp hcount)) howner)
  · exact Gives.pure (written_classUse (forall_mem_nil _) (.inl rfl) howner)

/-- What is an owner has arguments, or an owner itself. -/
theorem gives_readMembers (fuel : Nat) (he : Written src.tbl.arity src.tbl.HasMember e)
    (huses : Uses c e) :
    Gives (readMembers src type fuel c e) (IsWritten src.tbl) := by
  induction fuel generalizing c e with
  | zero => exact Gives.pure ⟨he, isWildcard_of_uses huses⟩
  | succ fuel ih =>
    refine Gives.after fun more => ?_
    split
    · refine Gives.after fun _ => Gives.after fun name => Gives.lift fun found hfound => ?_
      cases found with
      | none => exact Gives.fail _
      | some m =>
        have howner : ∀ o ∈ asOwner e, Written src.tbl.arity src.tbl.HasMember o ∧
            ∃ d ds outer marks, o = .applied d ds outer marks ∧ src.tbl.HasMember d m := by
          intro o ho
          rcases huses with ⟨marks, rfl | ⟨args, owner, rfl⟩⟩
          · cases ho
          · cases ho
            exact ⟨he, c, args, owner, marks, rfl, name, hfound⟩
        exact (gives_readApplied htype howner).bind fun e' he' => ih he'.1 he'.2
    · exact Gives.pure ⟨he, isWildcard_of_uses huses⟩

theorem gives_readClass (segments : List String) (start : Nat) :
    Gives (readClass src type segments start) (IsWritten src.tbl) := by
  refine Gives.lift fun found _ => ?_
  cases found with
  | none => exact Gives.failAt _ _
  | some c =>
    have howner : ∀ o ∈ (none : Option Expr), Written src.tbl.arity src.tbl.HasMember o ∧
        ∃ d ds outer marks, o = .applied d ds outer marks ∧ src.tbl.HasMember d c := by
      rintro o ⟨⟩
    refine (gives_readApplied htype howner).bind fun e he => Gives.after fun ls => ?_
    exact gives_readMembers htype ls.length he.1 he.2

theorem gives_readReference : Gives (readReference src type) (IsWritten src.tbl) := by
  refine Gives.after fun ls => Gives.after fun segments => ?_
  split
  · refine Gives.after fun _ => Gives.after fun _ => ?_
    split
    · exact Gives.fail _
    · exact Gives.pure ⟨.var, rfl⟩
  · exact gives_readClass htype _ _

theorem gives_readBounds : Gives (readBounds type) fun es => ∀ e ∈ es, IsWritten src.tbl e := by
  have hmore (fuel : Nat) :
      Gives (moreBounds type fuel) fun es => ∀ e ∈ es, IsWritten src.tbl e := by
    induction fuel with
    | zero => exact Gives.pure (forall_mem_nil _)
    | succ fuel ih =>
      refine Gives.after fun more => ?_
      split
      · refine Gives.after fun _ => htype.bind fun e he => ?_
        exact ih.bind fun es hes => Gives.pure (forall_mem_cons.mpr ⟨he, hes⟩)
      · exact Gives.pure (forall_mem_nil _)
  refine htype.bind fun e he => Gives.after fun ls => ?_
  exact (hmore ls.length).bind fun es hes => Gives.pure (forall_mem_cons.mpr ⟨he, hes⟩)

end

theorem gives_readType (fuel : Nat) : Gives (readType src fuel) (IsWritten src.tbl) := by
  induction fuel with
  | zero =>
    intro ls e rest h
    cases h
  | succ fuel ih =>
    refine Gives.after fun marks => (gives_readReference ih).bind fun e he => ?_
    refine gives_readArrayMarks ⟨he.1.mark marks, ?_⟩
    rw [isWildcard_mark]
    exact he.2

theorem Gives.readWhole {read : Reading Expr → Reading α} {P : α → Prop}
    (hread : ∀ fuel, Gives (read (readType src fuel)) P) {a}
    (h : Signature.readWhole src read = .ok a) : P a := by
  obtain ⟨lexemes, -, h⟩ := bind_eq_ok.mp h
  obtain ⟨⟨b, rest⟩, hb, h⟩ := bind_eq_ok.mp h
  cases rest with
  | nil =>
    cases h
    exact hread _ lexemes a [] hb
  | cons l rest => cases h

variable {tbl : Table} {scope : Scope} {text : String}

theorem written_of_parseType (h : parseType tbl scope text = .ok e) : IsWritten tbl e :=
  @Gives.readWhole _ ⟨tbl, scope, text⟩ id _ gives_readType e h

theorem written_of_parseBounds {es} (h : parseBounds tbl scope text = .ok es) :
    ∀ e ∈ es, IsWritten tbl e :=
  @Gives.readWhole _ ⟨tbl, scope, text⟩ readBounds _
    (fun fuel => gives_readBounds (gives_readType fuel)) es h

end Signature

end NominalTypes
