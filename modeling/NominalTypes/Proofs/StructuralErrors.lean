import NominalTypes.Proofs.Legibility
import NominalTypes.Proofs.Persistence

/-!
# Checks that meet no structural error

A check of two types looks at bounds and supertypes as it needs them, and fails if one of them
denotes no type. In a readable table such a failure is about the kind of a part, never about the
number of parts: expressions have as many arguments as their classes have type parameters and at
most one bound in a wildcard, and what is made of the types that they denote keeps these numbers.
Nothing is said about whether a check comes to an end.
-/

namespace NominalTypes

open List

variable {α β : Type}

/-- The result is no failure for the structure of the input. -/
def Sound (r : Result α) : Prop :=
  ∀ fault, r ≠ .error (.structural fault)

namespace Sound

variable {r : Result α} {xs : List α}

theorem ok (a : α) : Sound (.ok a) :=
  nofun

theorem bind {f : α → Result β} (hr : Sound r) (hf : ∀ a, r = .ok a → Sound (f a)) :
    Sound (r >>= f) := by
  cases r with
  | error e => exact fun fault h => hr fault (congrArg Except.error (Except.error.inj h))
  | ok a => exact hf a rfl

theorem mapM {f : α → Result β} (h : ∀ x ∈ xs, Sound (f x)) : Sound (xs.mapM f) := by
  induction xs with
  | nil => exact ok _
  | cons x xs ih =>
    rw [forall_mem_cons] at h
    rw [mapM_cons]
    exact h.1.bind fun _ _ => (ih h.2).bind fun _ _ => ok _

theorem forM {f : α → Result PUnit} (h : ∀ x ∈ xs, Sound (f x)) : Sound (xs.forM f) := by
  induction xs with
  | nil => exact ok _
  | cons x xs ih =>
    rw [forall_mem_cons] at h
    exact h.1.bind fun _ _ => ih h.2

theorem allM {f : α → Result Bool} (h : ∀ x ∈ xs, Sound (f x)) : Sound (xs.allM f) := by
  induction xs with
  | nil => exact ok _
  | cons x xs ih =>
    rw [forall_mem_cons] at h
    refine h.1.bind fun b _ => ?_
    cases b with
    | true => exact ih h.2
    | false => exact ok _

theorem anyM {f : α → Result Bool} (h : ∀ x ∈ xs, Sound (f x)) : Sound (xs.anyM f) := by
  induction xs with
  | nil => exact ok _
  | cons x xs ih =>
    rw [forall_mem_cons] at h
    refine h.1.bind fun b _ => ?_
    cases b with
    | true => exact ok _
    | false => exact ih h.2

end Sound

namespace Table

variable {tbl : Table} {c : ClassId} {t : Ty} {e : Expr} {marks : List ClassId} {n : Nat}

/-! ### What expressions denote -/

theorem sound_requireDeclaration (c : ClassId) : Sound (tbl.requireDeclaration c) := by
  rw [requireDeclaration]
  split <;> rintro _ ⟨⟩

theorem sound_makeDeclared {args : List Ty} (owner : Option Ty) (marks : List ClassId)
    (hcount : args = [] ∨ args.length = tbl.arity c) :
    Sound (tbl.makeDeclared c args owner marks) := by
  have hif : ¬(!args.isEmpty && decide (args.length ≠ (tbl.cls c).typeParameters.length)) =
      true := by
    rcases hcount with rfl | hcount
    · simp
    · simp [hcount, arity]
  rw [makeDeclared, if_neg hif]
  split <;> rintro _ ⟨⟩

/-- An expression of the form that is read denotes a type, or a part of it is of a wrong kind. -/
theorem sound_descriptor {member} (h : e.Written tbl.arity member) : Sound (tbl.descriptor e) := by
  have hmade {args : List Expr} {c marks} (owner : Option Ty)
      (hargs : ∀ a ∈ args, Sound (tbl.descriptor a))
      (hcount : args = [] ∨ args.length = tbl.arity c) : Sound (do
        tbl.requireDeclaration c
        tbl.makeDeclared c (← tbl.descriptors args) owner marks) := by
    refine (sound_requireDeclaration c).bind fun _ _ => ?_
    rw [descriptors_eq_mapM]
    refine (Sound.mapM hargs).bind fun as has => sound_makeDeclared owner marks ?_
    have hlength := (mapM_eq_ok.mp has).length_eq
    rw [← length_eq_zero_iff, ← hlength, length_eq_zero_iff]
    exact hcount
  induction h with
  | named =>
    rw [descriptor, primitiveType]
    repeat' split
    all_goals rintro _ ⟨⟩
  | var => exact .ok _
  | array _ _ ih =>
    refine ih.bind fun s _ => ?_
    rw [makeArray]
    split <;> rintro _ ⟨⟩
  | applied _ _ hcount ih => exact hmade _ ih (.inr hcount)
  | member _ hcount _ _ ih ihowner =>
    refine ihowner.bind fun o _ => ?_
    cases o with
    | declared => exact hmade _ ih hcount
    | _ => rintro _ ⟨⟩
  | unbounded => exact .ok _
  | upper _ _ ih =>
    rw [descriptor_upper]
    refine ih.bind fun s _ => ?_
    rw [makeWildcard_upper]
    repeat' split
    all_goals rintro _ ⟨⟩
  | lower _ _ ih =>
    rw [descriptor_lower]
    refine ih.bind fun s _ => ?_
    rw [makeWildcard_lower]
    repeat' split
    all_goals rintro _ ⟨⟩

theorem exists_mem_exprs_of_bounds {v : TypeVarId} (h : e ∈ (tbl.typeVar v).bounds) :
    ∃ c, e ∈ (tbl.cls c).exprs := by
  obtain ⟨g, i⟩ := v
  have hparameter : ∃ p ∈ tbl.typeParametersOf g, e ∈ p.bounds := by
    by_cases hi : i < (tbl.typeParametersOf g).length
    · exact ⟨_, getD_mem hi _, h⟩
    · rw [typeVar, getD_eq_default _ _ (Nat.le_of_not_lt hi)] at h
      cases h
  cases g with
  | cls c => exact ⟨c, ClassDecl.mem_exprs.mpr (.inr (.inr (.inl hparameter)))⟩
  | executable x =>
    obtain ⟨p, hp, he⟩ := hparameter
    have hexprs : e ∈ (tbl.executable x).exprs :=
      mem_cons_of_mem _ (mem_append_right _ (mem_flatMap.mpr ⟨p, hp, he⟩))
    refine ⟨x.cls, ClassDecl.mem_exprs.mpr ?_⟩
    rw [typeParametersOf, executable] at hp
    rw [executable] at hexprs
    split_ifs at hp hexprs with hconstructor
    · by_cases hi : x.index < (tbl.cls x.cls).constructors.length
      · exact .inr (.inr (.inr (.inr (.inl ⟨_, getD_mem hi _, hexprs⟩))))
      · rw [getD_eq_default _ _ (Nat.le_of_not_lt hi)] at hp
        cases hp
    · by_cases hi : x.index < (tbl.cls x.cls).methods.length
      · exact .inr (.inr (.inr (.inr (.inr ⟨_, getD_mem hi _, hexprs⟩))))
      · rw [getD_eq_default _ _ (Nat.le_of_not_lt hi)] at hp
        cases hp

namespace Readable

variable (h : tbl.Readable)
include h

theorem sound_descriptors {es : List Expr} (hes : ∀ e ∈ es, ∃ c, e ∈ (tbl.cls c).exprs) :
    Sound (tbl.descriptors es) := by
  rw [descriptors_eq_mapM]
  refine .mapM fun e he => ?_
  obtain ⟨c, hc⟩ := hes e he
  exact sound_descriptor (h c e hc)

theorem sound_boundsOf (v : TypeVarId) : Sound (tbl.boundsOf v) := by
  rw [boundsOf]
  split
  · exact .ok _
  · exact h.sound_descriptors fun e he => exists_mem_exprs_of_bounds he

theorem sound_upperBound (v : TypeVarId) : Sound (tbl.upperBound v) := by
  refine (h.sound_boundsOf v).bind fun ts hts => ?_
  match ts, ne_nil_of_boundsOf hts with
  | [t], _ => exact .ok _
  | t :: s :: ts, _ => exact .ok _

/-- What expressions denote is erased by following bounds. -/
theorem sound_eraseUnionFree (ht : t.Every tbl.Denoted) (n : Nat) :
    Sound (tbl.eraseUnionFree n t) := by
  induction n generalizing t with
  | zero => exact nofun
  | succ n ih =>
    cases t with
    | primitive | void | null => exact .ok _
    | none | captured | union | executable | package => cases ht.top
    | declared c args owner marks =>
      rw [eraseUnionFree, eraseWith]
      split <;> exact .ok _
    | array component marks => exact (ih ht.component).bind fun _ _ => .ok _
    | var k v marks =>
      exact (h.sound_upperBound v).bind fun u hu => ih (every_denoted_upperBound hu)
    | wildcard k upper lower marks => exact ih ht.upper
    | intersection k bounds =>
      cases bounds with
      | nil => cases ht.top.2
      | cons b bounds => exact ih (ht.part mem_cons_self)

end Readable

/-! ### Going up -/

theorem sound_rawSupertypes (c : ClassId) : Sound (tbl.rawSupertypes c) := by
  refine .mapM fun e _ => ?_
  cases e <;> exact nofun

theorem sound_isSubclassOf (c goal : ClassId) : Sound (tbl.isSubclassOf c goal) := by
  have hreaches (n : Nat) (pending seen : List ClassId) :
      Sound (tbl.reaches goal n pending seen) := by
    induction n generalizing pending seen with
    | zero => exact .ok _
    | succ n ih =>
      cases pending with
      | nil => exact .ok _
      | cons c pending =>
        rw [reaches]
        split_ifs
        · exact .ok _
        · exact ih _ _
        · exact (sound_rawSupertypes c).bind fun _ _ => ih _ _
  rw [isSubclassOf]
  split_ifs
  · exact .ok _
  · exact .ok _
  · exact .ok _
  · exact (sound_rawSupertypes c).bind fun _ _ => hreaches _ _ _

theorem sound_typeMapping (t : Ty) : Sound (tbl.typeMapping t) := by
  induction t using Ty.children_induction with
  | step t ih =>
    cases t with
    | declared c args owner marks =>
      cases owner with
      | none => exact .ok _
      | some o => exact (ih o (mem_append_right _ mem_cons_self)).bind fun _ _ => .ok _
    | _ => exact nofun

/-- The layer has passed the checks of its constructor, unless it is an array, for erasure makes
arrays without a check. -/
def Made (tbl : Table) (t : Ty) : Prop :=
  tbl.Checked t ∨ t.kind = .array

theorem Made.suits (h : tbl.Made t) (hargument : t.isArgument = true) : t.Suits := by
  cases t with
  | wildcard =>
    obtain ⟨hupper, hlower, -⟩ := h.resolve_right nofun
    exact ⟨rfl, hupper, hlower⟩
  | array | declared | captured | null | var => exact ⟨rfl, rfl, rfl⟩
  | _ => cases hargument

theorem suits_assignment_of_made (ht : t.Every tbl.Made) :
    ∀ v x, tbl.assignment t v = some x → x.Suits := by
  refine of_assignment (fun c args owner marks h => ⟨fun a ha => ?_, fun _ => h.owner⟩) ht
  exact (h.arg ha).top.suits ((h.top.resolve_right nofun).2 a ha)

section Rooted

variable (hroot : tbl.isObject tbl.objectType = true)
include hroot

theorem every_made_of_denoted (h : t.Every tbl.Denoted) : t.Every tbl.Made :=
  h.mono fun _ hx => .inl (hx.passed.checked hroot)

theorem every_made_of_instantiate {m : Mapping} {t'}
    (hm : ∀ v x, m.lookup v = some x → x.Every tbl.Made)
    (ht : t.Every tbl.Made) (h : tbl.instantiate m t = .ok t') : t'.Every tbl.Made := by
  refine every_of_instantiate hm (every_made_of_denoted hroot every_denoted_objectType) ht
    (ht.visited.mono fun x hx x' h => ?_) h
  rcases remakes_of_instantiate h with ⟨-, rfl⟩ | ⟨_, v, _, -, hx⟩ | hremakes
  · exact hx
  · exact (hm v x' hx).top
  · exact .inl (hremakes.passed.checked hroot)

theorem persists_made : tbl.Persists tbl.Made where
  unmarked h := .inl (h.resolve_right nofun)
  normal h := h.every (fun x hx => .inl (by cases x <;> trivial))
    (fun _ _ => .inl ⟨.inl rfl, forall_mem_nil _⟩) fun _ _ => .inr rfl
  supertypes _ _ h t ht := every_made_of_denoted hroot (descriptors_denoted _ h t ht)
  upperBound h := every_made_of_denoted hroot (every_denoted_upperBound h)
  instantiate hm _ ht h := every_made_of_instantiate hroot hm ht h

variable (h : tbl.Readable)
include h

theorem sound_declaredSupertypes {args owner}
    (ht : (Ty.declared c args owner marks).Every tbl.Made) :
    Sound (tbl.declaredSupertypes n c args owner) := by
  have hexprs : ∀ e ∈ tbl.supertypeExprs c, ∃ c, e ∈ (tbl.cls c).exprs := by
    refine fun e he => ⟨c, ClassDecl.mem_exprs.mpr ?_⟩
    rcases mem_append.mp he with he | he
    · exact .inl (Option.mem_toList.mp he)
    · exact .inr (.inl he)
  rw [declaredSupertypes]
  split
  · exact .ok _
  · refine (h.sound_descriptors hexprs).bind fun ps hps => ?_
    have hdenoted := descriptors_denoted _ hps
    split
    · exact .mapM fun p hp => h.sound_eraseUnionFree (hdenoted p hp) n
    · refine (sound_typeMapping _).bind fun m hm => .mapM fun p hp => ?_
      rw [substitute]
      split
      · exact .ok _
      · obtain ⟨s, hs⟩ := exists_instantiate (fun v x hx => suits_assignment_of_made ht v x (by
          rwa [lookup_typeMapping hm, assignment_remark c args owner [] marks] at hx))
          ((hdenoted p hp).mono fun _ hx => hx.passed.checked hroot)
        rw [hs]
        exact .ok _

theorem sound_ascend (ht : t.Every tbl.Made) (target : ClassId) :
    Sound (tbl.ascend n target t) := by
  unfold ascend
  split
  · split_ifs
    · exact .ok _
    · refine (sound_isSubclassOf _ _).bind fun b _ => ?_
      split_ifs
      · exact (sound_declaredSupertypes hroot h ht).bind fun _ _ => .ok _
      · exact .ok _
  · split_ifs <;> exact .ok _
  · refine Sound.bind ?_ fun _ _ => .ok _
    cases t with
    | var k v marks => exact (h.sound_upperBound v).bind fun _ _ => .ok _
    | _ => exact .ok _

theorem sound_climb (ht : t.Every tbl.Made) (target : ClassId) (k : Nat) :
    Sound (climb (tbl.ascend n target) k t) := by
  induction k generalizing t with
  | zero => exact nofun
  | succ k ih =>
    refine (sound_ascend hroot h ht target).bind fun a ha => ?_
    have hfound := (persists_made hroot).ascend ht ha
    cases a with
    | arrived s => exact .ok _
    | above ts =>
      change ∀ s ∈ ts, s.Every tbl.Made at hfound
      change Sound (firstFound (climb (tbl.ascend n target) k) ts)
      clear ha
      induction ts with
      | nil => exact .ok _
      | cons s ts ihts =>
        rw [forall_mem_cons] at hfound
        refine (ih hfound.1).bind fun found _ => ?_
        cases found with
        | some r => exact .ok _
        | none => exact ihts hfound.2

end Rooted

/-! ### Checks -/

theorem sound_requireType (t : Ty) : Sound t.requireType := by
  rw [Ty.requireType]
  split <;> exact nofun

section Step

variable {check : Relation → Ty → Ty → Result Bool} {rel : Relation} {s : Ty} {args args' : List Ty}
  {owner owner' : Option Ty}
  (hcheck : ∀ rel s t, s.Every tbl.Made → t.Every tbl.Made → Sound (check rel s t))
include hcheck

theorem sound_checkPrimitive (ht : t.Every tbl.Made) :
    Sound (tbl.checkPrimitive check rel s t) := by
  unfold checkPrimitive
  split
  · exact .ok _
  · split_ifs
    · exact hcheck rel _ t (.leaf (.inl ⟨.inl rfl, forall_mem_nil _⟩) rfl) ht
    · exact .ok _
  · split_ifs <;> exact .ok _
  · exact .ok _

variable (hs : s.Every tbl.Made) (ht : t.Every tbl.Made)

include hs ht

theorem sound_checkArray : Sound (tbl.checkArray check rel s t) := by
  unfold checkArray
  split
  · split_ifs
    · exact .ok _
    · exact hcheck rel s _ hs ht.component
  · exact .ok _
  · exact .ok _

theorem sound_checkStrict : Sound (checkStrict check s t) :=
  (sound_requireType s).bind fun _ _ => (sound_requireType t).bind fun _ _ =>
    hcheck .subtype s t hs ht

theorem sound_checkContains : Sound (checkContains check s t) := by
  refine (sound_requireType s).bind fun _ _ => (sound_requireType t).bind fun _ _ => ?_
  split
  · refine (sound_checkStrict hcheck ht.upper hs.upper).bind fun b _ => ?_
    split_ifs
    · exact sound_checkStrict hcheck hs.lower ht.lower
    · exact .ok _
  · refine (sound_checkStrict hcheck ht hs.upper).bind fun b _ => ?_
    split_ifs
    · exact sound_checkStrict hcheck hs.lower ht
    · exact .ok _
  · exact .ok _

omit hs ht in
theorem sound_checkParameterization (hargs : ∀ a ∈ args, a.Every tbl.Made)
    (howner : ∀ o ∈ owner, o.Every tbl.Made) (hargs' : ∀ a ∈ args', a.Every tbl.Made)
    (howner' : ∀ o ∈ owner', o.Every tbl.Made) :
    Sound (checkParameterization check rel args owner args' owner') := by
  unfold checkParameterization
  split_ifs
  · exact .ok _
  · refine (Sound.allM fun p hp => ?_).bind fun b _ => ?_
    · obtain ⟨ha', ha⟩ := of_mem_zip hp
      exact sound_checkContains hcheck (hargs' _ ha') (hargs _ ha)
    · split_ifs
      · split
        · exact hcheck rel _ _ (howner _ rfl) (howner' _ rfl)
        · exact .ok _
      · exact .ok _

theorem sound_checkLower : Sound (checkLower check rel s t) := by
  unfold checkLower
  split
  · exact hcheck rel s _ hs ht.capturedLower
  · exact hcheck rel s _ hs ht.lower
  · exact .ok _

variable (hroot : tbl.isObject tbl.objectType = true) (h : tbl.Readable)
include hroot h

theorem sound_checkUpper : Sound (tbl.checkUpper n check rel s t) := by
  unfold checkUpper
  split
  · exact (h.sound_upperBound _).bind fun u hu =>
      hcheck rel u _ ((persists_made hroot).upperBound hu) ht
  · exact hcheck rel _ _ hs.capturedUpper ht
  · exact hcheck rel _ _ hs.upper ht
  · exact sound_checkArray hcheck hs.component ht
  · refine (sound_isSubclassOf _ _).bind fun b _ => ?_
    split_ifs
    · rw [resolveSupertype_eq_climb]
      refine (sound_climb hroot h hs _ n).bind fun found hfound => ?_
      split
      · have hr := (persists_made hroot).climb hs hfound
        exact sound_checkParameterization hcheck (fun a => hr.arg) (fun o => hr.owner)
          (fun a => ht.arg) fun o => ht.owner
      · exact .ok _
    · exact .ok _
  · exact .ok _

theorem sound_checkStep : Sound (tbl.checkStep n check rel s t) := by
  unfold checkStep
  split_ifs
  · exact .ok _
  · split
    · exact .allM fun b hb => hcheck rel _ b hs (ht.part hb)
    · exact .allM fun a ha => hcheck rel a _ (hs.part ha) ht
    · exact .anyM fun b hb => hcheck rel b _ (hs.part hb) ht
    · exact .anyM fun a ha => hcheck rel _ a hs (ht.part ha)
    · rw [checkSimple]
      split_ifs
      · exact .ok _
      · exact sound_checkPrimitive hcheck ht
      · exact .ok _
      · exact .ok _
      · refine (sound_checkLower hcheck hs ht).bind fun b _ => ?_
        split_ifs
        · exact .ok _
        · exact sound_checkUpper hcheck hs ht hroot h

end Step

/-- A check of types that have been made meets no structural error. -/
theorem Readable.sound_check (h : tbl.Readable) (hroot : tbl.isObject tbl.objectType = true)
    (n : Nat) (rel : Relation) (s t : Ty) (hs : s.Every tbl.Made) (ht : t.Every tbl.Made) :
    Sound (tbl.check n rel s t) := by
  induction n generalizing rel s t with
  | zero => exact nofun
  | succ n ih => exact sound_checkStep ih hs ht hroot h

end Table

end NominalTypes
