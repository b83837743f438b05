import NominalTypes.Ty.Subsignature
import NominalTypes.Proofs.Cutoff
import NominalTypes.Proofs.Instances

/-!
# Signatures under substitution

One executable type has a subsignature of another. This is kept when type parameters of classes are
replaced in both, with one reservation. If the parameters are the same after renaming, they stay so:
the renaming concerns type parameters of the executables, and may be carried out before or after. If
the parameters of the first are the erased parameters of the second, then they have no variables and
do not change, while the erasure of a parameter changes with what is put for the variable that it
leads to. Parameters that lead to none of the replaced variables are `Ty.Steady`.

`Table.Erases` describes erasure where no union is met: it follows the first bounds of a type.
-/

namespace NominalTypes

open List

variable {α : Type} {names : Mapping} {f : α → Result Bool} {xs : List α}

theorem allM_eq_true :
    xs.allM f = .ok true ↔ ∀ x ∈ xs, f x = .ok true := by
  induction xs with
  | nil => exact ⟨fun _ => forall_mem_nil _, fun _ => rfl⟩
  | cons x xs ih =>
    rw [allM_cons, forall_mem_cons, ← ih, bind_eq_ok]
    constructor
    · rintro ⟨b, hb, h⟩
      cases b with
      | true => exact ⟨hb, h⟩
      | false => cases h
    · exact fun ⟨hx, hxs⟩ => ⟨true, hx, hxs⟩

theorem exists_allM_eq_ok (h : ∀ x ∈ xs, ∃ b, f x = .ok b) :
    ∃ b, xs.allM f = .ok b := by
  induction xs with
  | nil => exact ⟨true, rfl⟩
  | cons x xs ih =>
    rw [forall_mem_cons] at h
    obtain ⟨b, hb⟩ := h.1
    obtain ⟨c, hc⟩ := ih h.2
    rw [allM_cons, hb]
    cases b with
    | true => exact ⟨c, hc⟩
    | false => exact ⟨false, rfl⟩

/-- A relation between lists passes to lists that are related to them. -/
theorem forall₂_transport {β γ δ : Type} {R : α → β → Prop} {A : α → γ → Prop} {B : β → δ → Prop}
    {R' : γ → δ → Prop} {ys xs' ys'} (h : Forall₂ R xs ys)
    (hA : Forall₂ A xs xs') (hB : Forall₂ B ys ys')
    (hstep : ∀ x ∈ xs, ∀ y x' y', R x y → A x x' → B y y' → R' x' y') :
    Forall₂ R' xs' ys' := by
  induction h generalizing xs' ys' with
  | nil =>
    cases hA
    cases hB
    exact .nil
  | cons hxy _ ih =>
    cases hA with
    | cons hx hA =>
      cases hB with
      | cons hy hB =>
        rw [forall_mem_cons] at hstep
        exact .cons (hstep.1 _ _ _ hxy hx hy) (ih hA hB hstep.2)

namespace Ty

/-- The type is what expressions may denote, or a part of it. -/
def Ordinary : Ty → Prop
  | captured _ _ _ _ _ | union _ _ | executable _ _ _ _ _ _ | package _ => False
  | _ => True

/-- Where the erasure of the type is looked for, there is no variable that is replaced and no use of
a class that has an owner. -/
inductive Steady (σ : TypeVarId → Option Ty) : Ty → Prop
  | basic {t} (h : t.isBasic = true) : Steady σ t
  | declared {c args marks} : Steady σ (declared c args .none marks)
  | var {n v marks} (h : σ v = .none) : Steady σ (var n v marks)
  | array {t marks} (h : Steady σ t) : Steady σ (array t marks)
  | wildcard {n upper lower marks} (h : Steady σ upper) : Steady σ (wildcard n upper lower marks)
  | intersection {n bound bounds} (h : Steady σ bound) : Steady σ (intersection n (bound :: bounds))

variable {σ : TypeVarId → Option Ty} {s t : Ty}

/-- A property of all layers that does not depend on what is below them passes to the type with
variables replaced. -/
theorem every_replace {q} (hσ : ∀ v x, σ v = some x → x.Every q)
    (hq : ∀ t : Ty, q t → (∀ n v marks, t = var n v marks → σ v = .none) → q (t.replace σ))
    (ht : t.Every q) : (t.replace σ).Every q := by
  induction ht with
  | @intro t top parts ih =>
    cases hvariable : t.isVariable with
    | false =>
      have htop := hq t top fun n v marks h => by subst h; cases hvariable
      rw [replace_eq_rebuild hvariable] at htop ⊢
      exact .rebuild htop ih parts
    | true =>
      cases t with
      | var n v marks =>
        rw [replace]
        cases hv : σ v with
        | none => exact .leaf top rfl
        | some x => exact hσ v x hv
      | _ => cases hvariable

theorem Ordinary.of_bare_eq (h : s.bare = t.bare) (hs : s.Ordinary) : t.Ordinary := by
  cases s <;> cases t <;> trivial

theorem every_ordinary_replace (hσ : ∀ v x, σ v = some x → x.Every Ordinary)
    (ht : t.Every Ordinary) : (t.replace σ).Every Ordinary := by
  refine every_replace hσ (fun t h hnone => ?_) ht
  cases t with
  | var n v marks =>
    rw [replace, hnone n v marks rfl]
    trivial
  | _ => trivial

theorem bare_eq_of_same_of_ordinary (hs : s.Every Ordinary) (ht : t.Every Ordinary)
    (h : s.same t = true) : s.bare = t.bare := by
  have htokened {x : Ty} (hx : x.Ordinary) : x.Tokened fun _ => .null := by
    rintro token site upper lower marks rfl
    cases hx
  exact bare_eq_of_same h (hs.mono fun _ => htokened) (ht.mono fun _ => htokened)

theorem kind_of_isArgument (h : t.isArgument = true) :
    t.kind ≠ .intersection ∧ t.kind ≠ .union := by
  cases t <;> simp_all [isArgument, kind]

theorem isSameType_iff (hkind : s.kind ≠ .intersection ∧ s.kind ≠ .union) :
    s.isSameType t = true ↔ s.isWildcard = false ∧ t.isWildcard = false ∧ s.same t = true := by
  unfold isSameType
  rw [Bool.and_eq_true, Bool.and_eq_true, Bool.not_eq_true', Bool.not_eq_true', and_assoc]
  cases s <;> first | rfl | exact absurd rfl hkind.1 | exact absurd rfl hkind.2

end Ty

namespace Table

variable {tbl : Table} {occurrences : Nat → TypeKind → Ty} {σ : TypeVarId → Option Ty}
  {s t e e' : Ty}

/-! ### Erasure along first bounds -/

theorem ordinary_of_denoted (h : tbl.Denoted t) : t.Ordinary := by
  cases t <;> trivial

theorem erases_of_eraseWith {lub : List Ty → Result (List Ty)} {k}
    (h : tbl.eraseWith lub k t = .ok e) (ht : t.Every Ty.Ordinary) : tbl.Erases t e := by
  induction k generalizing t e with
  | zero => cases h
  | succ k ih =>
    cases t with
    | declared c args owner marks =>
      cases (eraseWith_declared ..).symm.trans h
      exact .declared
    | array component marks =>
      obtain ⟨x, hx, h⟩ := bind_eq_ok.mp h
      cases h
      exact .array (ih hx ht.component)
    | var n v marks =>
      obtain ⟨u, hu, h⟩ := bind_eq_ok.mp h
      exact .var hu (ih h ((every_denoted_upperBound hu).mono fun _ => ordinary_of_denoted))
    | wildcard n upper lower marks => exact .wildcard (ih h ht.upper)
    | intersection n bounds =>
      cases bounds with
      | nil => cases h
      | cons bound bounds => exact .intersection (ih h (ht.part mem_cons_self))
    | primitive | none | void | null =>
      cases h
      exact .basic rfl
    | captured | union | executable | package => cases ht.top

namespace Erases

theorem ordinary (h : tbl.Erases t e) : e.Every Ty.Ordinary := by
  refine h.normal.every (fun x hx => ?_) (fun _ _ => trivial) fun _ _ => trivial
  cases x with
  | primitive | none | void | null => trivial
  | _ => cases hx

theorem replace_eq (h : tbl.Erases t e) (σ : TypeVarId → Option Ty) : e.replace σ = e := by
  have hnormal := h.normal
  clear h
  induction hnormal with
  | @basic t h => cases t <;> first | rfl | cases h
  | declared => rfl
  | array h ih => rw [Ty.replace, ih, Ty.orUpper_eq_self h.isWildcard]

theorem orUpper (h : tbl.Erases t e) : tbl.Erases t.orUpper e := by
  cases t with
  | wildcard n upper lower marks =>
    cases h with
    | basic h => cases h
    | wildcard h => exact h
  | _ => exact h

theorem replace_steady (h : tbl.Erases t e) (hsteady : t.Steady σ) :
    tbl.Erases (t.replace σ) e := by
  induction h with
  | @basic t h =>
    have hself : t.replace σ = t := (Erases.basic h : tbl.Erases t t).replace_eq σ
    rw [hself]
    exact .basic h
  | declared =>
    exact .declared
  | array _ ih =>
    cases hsteady with
    | basic h => cases h
    | array hsteady => exact .array (ih hsteady).orUpper
  | var hu h _ =>
    cases hsteady with
    | basic h => cases h
    | var hnone =>
      rw [Ty.replace, hnone]
      exact .var hu h
  | captured =>
    cases hsteady with
    | basic h => cases h
  | wildcard _ ih =>
    cases hsteady with
    | basic h => cases h
    | wildcard hsteady => exact .wildcard (ih hsteady).orUpper
  | intersection _ ih =>
    cases hsteady with
    | basic h => cases h
    | intersection hsteady =>
      exact .intersection (ih hsteady).orUpper

/-- If the result of replacing variables in a steady type is not generic, it is its own erasure. A
wildcard gives way to its bound here, so that the induction passes through arrays. -/
theorem bare_orUpper_replace (h : tbl.Erases t e) (hsteady : t.Steady σ)
    (hgeneric : (t.replace σ).orUpper.isGeneric = false) :
    (t.replace σ).orUpper.bare = e.bare := by
  induction h with
  | @basic t h => cases t <;> first | rfl | cases h
  | @declared c args owner marks =>
    cases hsteady with
    | basic h => cases h
    | declared =>
      cases args with
      | nil => rfl
      | cons a args => cases hgeneric
  | array _ ih =>
    cases hsteady with
    | basic h => cases h
    | array hsteady => exact congrArg (Ty.array · []) (ih hsteady hgeneric)
  | var =>
    cases hsteady with
    | basic h => cases h
    | var hnone =>
      rw [Ty.replace, hnone] at hgeneric
      cases hgeneric
  | wildcard _ ih =>
    cases hsteady with
    | basic h => cases h
    | wildcard hsteady => exact ih hsteady hgeneric
  | captured | intersection => cases hgeneric

end Erases

theorem exists_erases (hvars : ∀ v, ∃ e, tbl.Erases (.var 0 v []) e)
    (ht : tbl.Genuine occurrences t) (hordinary : t.Every Ty.Ordinary) : ∃ e, tbl.Erases t e := by
  induction ht with
  | @intro t top parts ih =>
    cases t with
    | declared c args owner marks => exact ⟨_, .declared⟩
    | array component marks =>
      obtain ⟨e, he⟩ := ih component mem_cons_self hordinary.component
      exact ⟨_, .array he⟩
    | var n v marks =>
      obtain ⟨e, he⟩ := hvars v
      cases he with
      | basic h => cases h
      | var hu he => exact ⟨e, .var hu he⟩
    | wildcard n upper lower marks =>
      obtain ⟨e, he⟩ := ih upper mem_cons_self hordinary.upper
      exact ⟨e, .wildcard he⟩
    | intersection n bounds =>
      cases bounds with
      | nil => cases top.1
      | cons bound bounds =>
        obtain ⟨e, he⟩ := ih bound mem_cons_self (hordinary.part mem_cons_self)
        exact ⟨e, .intersection he⟩
    | primitive | none | void | null => exact ⟨_, .basic rfl⟩
    | captured | union | executable | package => cases hordinary.top

/-! ### Replacing variables in signatures -/

/-- What is put for type parameters of classes: type arguments as the program builds them, which are
no wildcards and in which no type parameter of the executable occurs. -/
structure Filling (tbl : Table) (occurrences : Nat → TypeKind → Ty) (o : ExecutableId)
    (σ : TypeVarId → Option Ty) : Prop where
  argument : ∀ v x, σ v = some x → tbl.GenuineArgument occurrences x
  isWildcard : ∀ v x, σ v = some x → x.isWildcard = false
  ordinary : ∀ v x, σ v = some x → x.Every Ty.Ordinary
  bounds : ∀ v x, σ v = some x → x.Every fun y => ∀ b ∈ y.conjuncts, b.isWildcard = false
  avoids : ∀ v x, σ v = some x → x.Every (Ty.Over (· ∉ tbl.typeVars (.executable o)))
  executable : ∀ e v, v ∈ tbl.typeVars (.executable e) → σ v = none

/-- The second type is the first with variables replaced. Both are as the program builds them, and
ordinary. -/
structure Carries (tbl : Table) (occurrences : Nat → TypeKind → Ty) (σ : TypeVarId → Option Ty)
    (t t' : Ty) : Prop where
  left : tbl.Genuine occurrences t
  right : tbl.Genuine occurrences t'
  ordinary : t.Every Ty.Ordinary
  ordinary_right : t'.Every Ty.Ordinary
  bare_eq : t'.bare = (t.replace σ).bare

section Carries

variable {m o : ExecutableId} {ps ps' qs qs' : List Ty}

/-- A renaming maps type parameters of one executable to type parameters of another. -/
def Renames (tbl : Table) (m o : ExecutableId) (names : Mapping) : Prop :=
  ∀ v x, names.lookup v = some x →
    v ∈ tbl.typeVars (.executable o) ∧ ∃ w ∈ tbl.typeVars (.executable m), x = .var 0 w []

theorem renames_matchVariables (tbl : Table) (m o : ExecutableId) :
    tbl.Renames m o
      (matchVariables (tbl.ownVariables (.executable o)) (tbl.ownVariables (.executable m))) := by
  intro v x h
  rw [matchVariables, ownVariables, ownVariables] at h
  -- The entries are inserted one by one, into what is in the mapping already.
  refine Or.resolve_left ?_ (show ¬([] : Mapping).lookup v = some x by simp)
  revert h
  generalize tbl.typeVars (.executable o) = vs
  generalize tbl.typeVars (.executable m) = ws
  generalize ([] : Mapping) = names
  induction vs generalizing ws names with
  | nil => exact fun h => .inl h
  | cons u vs ih =>
    cases ws with
    | nil => exact fun h => .inl h
    | cons w ws =>
      intro h
      rcases ih ws (Mapping.insert names u (.var 0 w [])) h with h | ⟨hv, y, hy, rfl⟩
      · rw [Mapping.lookup_insert] at h
        split_ifs at h with heq
        · cases h
          exact .inr ⟨heq ▸ mem_cons_self, w, mem_cons_self, rfl⟩
        · exact .inl h
      · exact .inr ⟨mem_cons_of_mem _ hv, y, mem_cons_of_mem _ hy, rfl⟩

/-- Renaming type parameters of executables and replacing type parameters of classes can be
exchanged. -/
theorem bare_replace_comm (hσ : tbl.Filling occurrences o σ) (hnames : tbl.Renames m o names)
    (t : Ty) :
    ((t.replace σ).replace (names.lookup ·)).bare =
      ((t.replace (names.lookup ·)).replace σ).bare := by
  rw [Ty.replace_replace (names.lookup ·) σ]
  refine Ty.bare_replace_of_image (.of_forall (fun _ _ v _ _ => ?_) t)
  dsimp only
  rw [Ty.image, Ty.image, Ty.subst, Ty.subst]
  cases hv : names.lookup v with
  | some x =>
    obtain ⟨hown, w, hw, rfl⟩ := hnames v x hv
    rw [hσ.executable o v hown, Option.getD_some, Ty.replace, hσ.executable m w hw]
    rfl
  | none =>
    rw [Option.getD_none, Ty.replace]
    cases hx : σ v with
    | none => rfl
    | some x =>
      -- What is put for a type parameter of a class is not touched by the renaming.
      have hkept : x.replace (names.lookup ·) = x.replace fun _ => none := by
        refine Ty.replace_congr ((hσ.avoids v x hx).mono fun y hy n u marks hu => ?_)
        have hnot : u ∉ tbl.typeVars (.executable o) := hy n u marks hu
        dsimp only
        cases hlookup : names.lookup u with
        | none => rfl
        | some z => exact absurd (hnames u z hlookup).1 hnot
      have hself : x.replace (names.lookup ·) = x :=
        hkept.trans (replace_eq_self (hσ.argument v x hx).2 (hσ.bounds v x hx))
      rw [Option.map_some, hself]
      rfl

theorem Carries.substitute (hcore : tbl.isObject tbl.objectType = true)
    (hσ : tbl.Filling occurrences o σ) (hnames : tbl.Renames m o names)
    (h : tbl.Carries occurrences σ t s) :
    ∃ x y, tbl.substitute names t = .ok x ∧ tbl.substitute names s = .ok y ∧
      tbl.Carries occurrences σ x y := by
  by_cases hne : names = []
  · subst hne
    exact ⟨t, s, rfl, rfl, h⟩
  have hvar (v : TypeVarId) (x : Ty) (hx : names.lookup v = some x) :
      tbl.GenuineArgument occurrences x ∧ x.Every Ty.Ordinary := by
    obtain ⟨-, w, -, rfl⟩ := hnames v x hx
    exact ⟨⟨rfl, .leaf ⟨trivial, fun h => absurd rfl h, nofun⟩ rfl⟩, .leaf trivial rfl⟩
  have hordinary {t x : Ty} (ht : t.Every Ty.Ordinary)
      (hx : tbl.Realizes occurrences (names.lookup ·) t x) : x.Every Ty.Ordinary :=
    (Ty.every_ordinary_replace (fun v x hx => (hvar v x hx).2) ht).of_bare_eq
      (fun _ _ => Ty.Ordinary.of_bare_eq) hx.1.symm
  obtain ⟨x, hx, hxt⟩ := exists_instantiate_replace hcore (fun v x hx => (hvar v x hx).1) h.left
  obtain ⟨y, hy, hys⟩ := exists_instantiate_replace hcore (fun v x hx => (hvar v x hx).1) h.right
  refine ⟨x, y, (substitute_of_ne_nil hne t).trans hx, (substitute_of_ne_nil hne s).trans hy,
    hxt.2, hys.2, hordinary h.ordinary hxt, hordinary h.ordinary_right hys, ?_⟩
  calc y.bare = (s.replace (names.lookup ·)).bare := hys.1
    _ = ((t.replace σ).replace (names.lookup ·)).bare := Ty.bare_replace_congr h.bare_eq
      fun _ => rfl
    _ = ((t.replace (names.lookup ·)).replace σ).bare := bare_replace_comm hσ hnames t
    _ = (x.replace σ).bare := Ty.bare_replace_congr hxt.1.symm fun _ => rfl

/-- Whether two types are the same does not change when variables are replaced in both. -/
theorem isSameType_of_carries (hσ : tbl.Filling occurrences o σ)
    (hkind : t.kind ≠ .intersection ∧ t.kind ≠ .union) (h : tbl.Carries occurrences σ t s)
    (he : e.Every Ty.Ordinary) (hsame : t.isSameType e = true)
    (hbare : e'.bare = (e.replace σ).bare) : s.isSameType e' = true := by
  obtain ⟨htw, -, hsame⟩ := (Ty.isSameType_iff hkind).mp hsame
  have hte : t.bare = e.bare := Ty.bare_eq_of_same_of_ordinary h.ordinary he hsame
  have hse : s.bare = e'.bare :=
    h.bare_eq.trans ((Ty.bare_replace_congr hte fun _ => rfl).trans hbare.symm)
  have hsimple : s.isWildcard = false ∧ s.kind ≠ .intersection ∧ s.kind ≠ .union := by
    have hs := Ty.kind_eq_of_bare_eq h.bare_eq
    rcases Ty.kind_replace σ t with hkept | ⟨n, v, marks, -, hv⟩
    · rw [Ty.isWildcard_of_kind_eq (hs.trans hkept), hs.trans hkept]
      exact ⟨htw, hkind⟩
    · rw [Ty.isWildcard_of_kind_eq hs, hs]
      exact ⟨hσ.isWildcard v _ hv, Ty.kind_of_isArgument (hσ.argument v _ hv).1⟩
  refine (Ty.isSameType_iff hsimple.2).mpr ⟨hsimple.1, ?_, Ty.same_of_bare_eq hse⟩
  rw [← Ty.isWildcard_of_kind_eq (Ty.kind_eq_of_bare_eq hse)]
  exact hsimple.1

theorem sameSignature_eq_true {first second} :
    tbl.sameSignature first second = .ok true ↔ first.1.length = second.1.length ∧
      Forall₂ (fun p q => ∃ z, tbl.substitute (matchVariables second.1 first.1) q = .ok z ∧
        p.isSameType z = true) first.2 second.2 := by
  rw [sameSignature, forall₂_iff_zip]
  split_ifs with hlength
  · simp only [Bool.or_eq_true, decide_eq_true_eq] at hlength
    refine ⟨fun h => (by cases h), fun ⟨hvars, hparameters, _⟩ => ?_⟩
    exact absurd hlength (not_or.mpr ⟨not_not.mpr hparameters, not_not.mpr hvars⟩)
  · simp only [Bool.or_eq_true, decide_eq_true_eq, not_or, not_not] at hlength
    rw [allM_eq_true]
    refine ⟨fun h => ⟨hlength.2, hlength.1, fun {p q} hpq => ?_⟩, fun ⟨_, _, h⟩ x hx => ?_⟩
    · obtain ⟨z, hz, hsame⟩ := bind_eq_ok.mp (h (p, q) hpq)
      exact ⟨z, hz, Except.ok.inj hsame⟩
    · obtain ⟨z, hz, hsame⟩ := h hx
      exact bind_eq_ok.mpr ⟨z, hz, congrArg Except.ok hsame⟩

section Signature

variable (hcore : tbl.isObject tbl.objectType = true) (hσ : tbl.Filling occurrences o σ)
  (hps : Forall₂ (tbl.Carries occurrences σ) ps ps')
  (hkinds : ∀ p ∈ ps, p.kind ≠ .intersection ∧ p.kind ≠ .union)

include hσ hps hkinds

include hcore in
/-- Parameters that are the same after renaming stay so. -/
theorem sameSignature_of_carries (hqs : Forall₂ (tbl.Carries occurrences σ) qs qs')
    (h : tbl.sameSignature (tbl.ownVariables (.executable m), ps)
      (tbl.ownVariables (.executable o), qs) = .ok true) :
    tbl.sameSignature (tbl.ownVariables (.executable m), ps')
      (tbl.ownVariables (.executable o), qs') = .ok true := by
  obtain ⟨hlength, hsame⟩ := sameSignature_eq_true.mp h
  refine sameSignature_eq_true.mpr ⟨hlength, forall₂_transport hsame hps hqs ?_⟩
  rintro p hp q p' q' ⟨z, hz, hpz⟩ hpp' hqq'
  obtain ⟨x, y, hx, hy, hxy⟩ := hqq'.substitute hcore hσ (renames_matchVariables tbl m o)
  cases hx.symm.trans hz
  exact ⟨y, hy, isSameType_of_carries hσ (hkinds p hp) hpp' hxy.ordinary hpz hxy.bare_eq⟩

/-- Parameters that are the erased parameters of the other signature stay so, as long as these do
not change. -/
theorem sameSignature_of_bare_eq {es es'}
    (hes : Forall₂ (fun e e' => (∃ q, tbl.Erases q e) ∧ e'.bare = e.bare) es es')
    (h : tbl.sameSignature (tbl.ownVariables (.executable m), ps) ([], es) = .ok true) :
    tbl.sameSignature (tbl.ownVariables (.executable m), ps') ([], es') = .ok true := by
  obtain ⟨hlength, hsame⟩ := sameSignature_eq_true.mp h
  refine sameSignature_eq_true.mpr ⟨hlength, forall₂_transport hsame hps hes ?_⟩
  rintro p hp e p' e' ⟨z, hz, hpz⟩ hpp' ⟨⟨q, hq⟩, hbare⟩
  cases hz
  refine ⟨e', rfl, isSameType_of_carries hσ (hkinds p hp) hpp' hq.ordinary hpz ?_⟩
  rw [hq.replace_eq σ, hbare]

omit hps hkinds in
include hcore in
/-- Comparing signatures does not fail. -/
theorem exists_sameSignature (m : ExecutableId) (ps : List Ty)
    (hqs : Forall₂ (tbl.Carries occurrences σ) qs qs') :
    ∃ b, tbl.sameSignature (tbl.ownVariables (.executable m), ps)
      (tbl.ownVariables (.executable o), qs') = .ok b := by
  rw [sameSignature]
  split_ifs
  · exact ⟨false, rfl⟩
  · refine exists_allM_eq_ok fun x hx => ?_
    obtain ⟨q, -, hq⟩ := exists_of_forall₂_right hqs (of_mem_zip hx).2
    obtain ⟨_, y, -, hy, -⟩ := hq.substitute hcore hσ (renames_matchVariables tbl m o)
    exact ⟨_, bind_eq_ok.mpr ⟨y, hy, rfl⟩⟩

end Signature

/-! ### Erased signatures -/

theorem isGeneric_of_bare_eq (h : s.bare = t.bare) : s.isGeneric = t.isGeneric := by
  induction s using Ty.children_induction generalizing t with
  | step s ih =>
    cases s with
    | array component marks =>
      obtain ⟨_, _, rfl, hcomponent⟩ := Ty.eq_array_of_bare_eq h.symm
      rw [Ty.isGeneric, Ty.isGeneric, ih component mem_cons_self hcomponent.symm]
    | declared c args owner marks =>
      obtain ⟨args', owner', _, rfl, hargs, howner⟩ := Ty.eq_declared_of_bare_eq h.symm
      have hempty : args.isEmpty = args'.isEmpty := by
        cases args <;> cases args' <;> first | rfl | cases hargs
      cases owner with
      | none =>
        cases Option.map_eq_none_iff.mp howner
        rw [Ty.isGeneric, Ty.isGeneric, hempty]
      | some o =>
        obtain ⟨o', rfl, ho⟩ := Option.map_eq_some_iff.mp howner
        rw [Ty.isGeneric, Ty.isGeneric, hempty,
          ih o (mem_append_right _ mem_cons_self) ho.symm]
    | _ => cases t <;> first | rfl | cases h

section Erase

variable {vars thrown thrown' es : List Ty} {result receiver result' receiver' : Ty} {k : Nat}

/-- The erasure of an executable type is the type itself, or made of the erasures of its parts. -/
theorem eq_or_erases_of_erase (hqs : ∀ q ∈ qs, q.Every Ty.Ordinary)
    (h : tbl.erase k (.executable o vars result qs receiver thrown) = .ok t) :
    t = .executable o vars result qs receiver thrown ∨ ∃ result' es receiver' thrown',
      t = .executable o [] result' es receiver' thrown' ∧ Forall₂ tbl.Erases qs es := by
  rw [erase] at h
  cases k with
  | zero => cases h
  | succ k =>
    rw [eraseWith] at h
    split_ifs at h
    · obtain ⟨result', -, h⟩ := bind_eq_ok.mp h
      obtain ⟨es, hes, h⟩ := bind_eq_ok.mp h
      obtain ⟨receiver', -, h⟩ := bind_eq_ok.mp h
      obtain ⟨thrown', -, h⟩ := bind_eq_ok.mp h
      cases h
      exact .inr ⟨_, es, _, _, rfl, forall₂_imp_mem (mapM_eq_ok.mp hes) fun q hq e _ he =>
        erases_of_eraseWith he (hqs q hq)⟩
    · cases h
      exact .inl rfl

/-- Erasing an executable type with replaced variables leads to the erased parameters from before,
if these are steady. -/
theorem exists_erase_of_steady (vars : List Ty) (hqs : Forall₂ (tbl.Carries occurrences σ) qs qs')
    (hes : Forall₂ tbl.Erases qs es) (hsteady : ∀ q ∈ qs, q.Steady σ)
    (hrest : ∀ x ∈ result' :: receiver' :: thrown', ∃ e, tbl.Erases x e) :
    ∃ t es', Settles (fun k => tbl.erase k (.executable o vars result' qs' receiver' thrown')) t ∧
      t.signature = .ok ([], es') ∧
      Forall₂ (fun e e' => (∃ q, tbl.Erases q e) ∧ e'.bare = e.bare) es es' := by
  by_cases hgeneric : (!vars.isEmpty ||
      (result' :: receiver' :: qs' ++ thrown').any Ty.isGeneric) = true
  · obtain ⟨es', hes', hbare⟩ : ∃ es', Forall₂ tbl.Erases qs' es' ∧
        Forall₂ (fun e e' => (∃ q, tbl.Erases q e) ∧ e'.bare = e.bare) es es' := by
      clear hgeneric
      induction hes generalizing qs' with
      | nil =>
        cases hqs
        exact ⟨[], .nil, .nil⟩
      | cons he _ ih =>
        cases hqs with
        | cons hq hqs =>
          rw [forall_mem_cons] at hsteady
          obtain ⟨es', hes', hbare⟩ := ih hqs hsteady.2
          obtain ⟨e', he', heq⟩ := (he.replace_steady hsteady.1).exists_of_bare_eq hq.bare_eq.symm
          exact ⟨e' :: es', .cons he' hes', .cons ⟨⟨_, he⟩, heq⟩ hbare⟩
    obtain ⟨r, hr⟩ := hrest result' mem_cons_self
    obtain ⟨x, hx⟩ := hrest receiver' (mem_cons_of_mem _ mem_cons_self)
    obtain ⟨ts, hts⟩ : ∃ ts, Forall₂ tbl.Erases thrown' ts := by
      have hthrown : ∀ y ∈ thrown', ∃ e, tbl.Erases y e := fun y hy =>
        hrest y (mem_cons_of_mem _ (mem_cons_of_mem _ hy))
      clear hrest hgeneric
      induction thrown' with
      | nil => exact ⟨[], .nil⟩
      | cons y ys ih =>
        rw [forall_mem_cons] at hthrown
        obtain ⟨e, he⟩ := hthrown.1
        obtain ⟨es, hes⟩ := ih hthrown.2
        exact ⟨e :: es, .cons he hes⟩
    refine ⟨.executable o [] r es' x ts, es', ?_, rfl, hbare⟩
    let lub (k : Nat) : List Ty → Result (List Ty) := tbl.leastUpperBounds (k + 1)
    have hmap {xs ys : List Ty} (h : Forall₂ tbl.Erases xs ys) :
        Settles (fun k => xs.mapM (tbl.eraseWith (lub k) k)) ys :=
      Settles.mapM (h.imp fun _ _ hx => hx.settles_eraseWith lub)
    refine ((hr.settles_eraseWith lub).bind (g := fun r k => do
      let es ← qs'.mapM (tbl.eraseWith (lub k) k)
      let x ← tbl.eraseWith (lub k) k receiver'
      let ts ← thrown'.mapM (tbl.eraseWith (lub k) k)
      return .executable o [] r es x ts) ((hmap hes').bind ((hx.settles_eraseWith lub).bind
        ((hmap hts).bind (.ok _))))).step rfl fun k => ?_
    rw [erase, eraseWith, if_pos hgeneric]
  · have hself : Settles (fun k => tbl.erase k (.executable o vars result' qs' receiver' thrown'))
        (.executable o vars result' qs' receiver' thrown') := by
      refine (Settles.ok _).step rfl fun k => ?_
      rw [erase, eraseWith, if_neg hgeneric]
      rfl
    simp only [Bool.or_eq_true, Bool.not_eq_true', any_eq_true, not_or, not_exists,
      not_and, Bool.not_eq_false, List.isEmpty_iff] at hgeneric
    obtain ⟨rfl, hnone⟩ := hgeneric
    refine ⟨_, qs', hself, rfl, ?_⟩
    have hparameters : ∀ q ∈ qs', q.isGeneric = false := fun q hq =>
      (Bool.not_eq_true _).mp (hnone q (by simp [hq]))
    clear hself hnone
    induction hes generalizing qs' with
    | nil =>
      cases hqs
      exact .nil
    | @cons q e _ _ he _ ih =>
      cases hqs with
      | cons hq hqs =>
        rw [forall_mem_cons] at hsteady hparameters
        have hgeneric : (q.replace σ).isGeneric = false := by
          rw [← isGeneric_of_bare_eq hq.bare_eq]
          exact hparameters.1
        have hwildcard : (q.replace σ).isWildcard = false := by
          cases hx : q.replace σ <;> first | rfl | (rw [hx] at hgeneric; cases hgeneric)
        have hbare := he.bare_orUpper_replace hsteady.1
        rw [Ty.orUpper_eq_self hwildcard] at hbare
        exact .cons ⟨⟨q, he⟩, hq.bare_eq.trans (hbare hgeneric)⟩ (ih hqs hsteady.2 hparameters.2)

end Erase

/-- A subsignature stays one when type parameters of classes are replaced, if the parameters are the
same or the erasures of those of the second signature do not change. -/
theorem exists_isSubsignature_of_carries (hcore : tbl.isObject tbl.objectType = true)
    (hσ : tbl.Filling occurrences o σ) (hvars : ∀ v, ∃ e, tbl.Erases (.var 0 v []) e)
    (hps : Forall₂ (tbl.Carries occurrences σ) ps ps')
    (hkinds : ∀ p ∈ ps, p.kind ≠ .intersection ∧ p.kind ≠ .union)
    (hqs : Forall₂ (tbl.Carries occurrences σ) qs qs') {r r' x x' y y' z z' ts ts' us us'}
    (hrest : ∀ w ∈ y' :: z' :: us', tbl.Genuine occurrences w ∧ w.Every Ty.Ordinary) {k}
    (h : tbl.isSubsignature k (.executable m (tbl.ownVariables (.executable m)) r ps x ts)
      (.executable o (tbl.ownVariables (.executable o)) y qs z us) = .ok true)
    (hmatch : tbl.sameSignature (tbl.ownVariables (.executable m), ps)
      (tbl.ownVariables (.executable o), qs) = .ok true ∨ ∀ q ∈ qs, q.Steady σ) :
    ∃ n, ∀ k ≥ n,
      tbl.isSubsignature k (.executable m (tbl.ownVariables (.executable m)) r' ps' x' ts')
        (.executable o (tbl.ownVariables (.executable o)) y' qs' z' us') = .ok true := by
  obtain ⟨b, hb⟩ := exists_sameSignature hcore hσ m ps' hqs
  have hsame (hfirst : tbl.sameSignature (tbl.ownVariables (.executable m), ps)
      (tbl.ownVariables (.executable o), qs) = .ok true) : b = true :=
    Except.ok.inj (hb.symm.trans (sameSignature_of_carries hcore hσ hps hkinds hqs hfirst))
  cases b with
  | true =>
    refine ⟨0, fun k _ => ?_⟩
    change (tbl.sameSignature _ _ >>= fun b => _) = _
    exact bind_eq_ok.mpr ⟨true, hb, rfl⟩
  | false =>
    have hnot := fun hfirst => Bool.false_ne_true (hsame hfirst)
    have hsteady := hmatch.resolve_left hnot
    -- Before variables are replaced, it is the erasure that gives the answer.
    change (tbl.sameSignature _ _ >>= fun b => _) = _ at h
    obtain ⟨c, hc, h⟩ := bind_eq_ok.mp h
    cases c with
    | true => exact absurd hc hnot
    | false =>
      obtain ⟨t, ht, h⟩ := bind_eq_ok.mp h
      obtain ⟨second, hsecond, h⟩ := bind_eq_ok.mp h
      have hordinary : ∀ q ∈ qs, q.Every Ty.Ordinary := fun q hq => by
        obtain ⟨p, -, hp⟩ := exists_of_forall₂_left hqs hq
        exact hp.ordinary
      rcases eq_or_erases_of_erase hordinary ht with rfl | ⟨_, es, _, _, rfl, hes⟩
      · cases hsecond
        exact absurd h hnot
      · cases hsecond
        obtain ⟨t', es', ht', hsignature, hbare⟩ :=
          exists_erase_of_steady (tbl.ownVariables (.executable o)) hqs hes hsteady
            fun w hw => exists_erases hvars (hrest w hw).1 (hrest w hw).2
        obtain ⟨n, hn⟩ := ht'.1
        refine ⟨n, fun k hk => ?_⟩
        change (tbl.sameSignature _ _ >>= fun b => _) = _
        exact bind_eq_ok.mpr ⟨false, hb, bind_eq_ok.mpr ⟨t', hn k hk, bind_eq_ok.mpr
          ⟨_, hsignature, sameSignature_of_bare_eq hσ hps hkinds hbare h⟩⟩⟩

end Carries

end Table

end NominalTypes
