import NominalTypes.Proofs.Criteria
import NominalTypes.Proofs.ErasureBound

/-!
# Least upper bounds are upper bounds

The least upper bounds of two types are computed by a recursion through the arguments of the types,
with a list of bounds that are known already and a list of questions that are being answered; a
question that comes up again inside itself is answered by the root class. All that is known, and all
that is answered, are upper bounds: a candidate is one up to erasure (`Table.Covers`), and if it
gets arguments, then those of both types are contained in them.
-/

namespace NominalTypes

open List

variable {a e u x : Ty} {c : ClassId} {marks : List ClassId} {args' : List Ty}

/-- Types without owners and lower bounds of wildcards. -/
def Shape.unowned : Shape where
  raw := true
  owners := false
  supers := false
  intersections := true
  captures := true
  capturedSupers := true

namespace Table

/-- Types and arrays of primitive types are built from reference types; uses of classes are none of
classes of primitive types, and captured variables are known by their tokens. -/
def Solid (tbl : Table) (captures : Nat → Ty) : Ty → Prop
  | .array component _ => component.isPrimitive = true ∨ component.isReference = true
  | .declared c _ _ _ => (tbl.cls c).isPrimitive = false
  | .wildcard _ upper lower _ => upper.isReference = true ∧ lower.isReference = true
  | .captured token site upper lower marks =>
    upper.isReference = true ∧ lower.isReference = true ∧
      (Ty.captured token site upper lower marks).bare = captures token
  | .intersection _ bounds => ∀ b ∈ bounds, b.isReference = true
  | _ => True

/-- The type is a reference type, and so are its parts. -/
structure Fine (tbl : Table) (captures : Nat → Ty) (t : Ty) : Prop where
  within : tbl.Within .unowned t
  isReference : t.isReference = true
  solid : t.Every (tbl.Solid captures)

/-- The supertypes and the bounds of type variables have parts that are reference types, and the
bounds of type variables do not go round in a circle. -/
structure Joinable (tbl : Table) (captures : Nat → Ty) : Prop where
  obeys : tbl.Obeys .unowned
  arrays : tbl.ArraysRooted
  supertypes : ∀ c ps, tbl.descriptors (tbl.supertypeExprs c) = .ok ps →
    ∀ p ∈ ps, p.Every (tbl.Solid captures)
  bounds : ∀ v ts, tbl.boundsOf v = .ok ts → ∀ t ∈ ts, t.Every (tbl.Solid captures)
  founded : ∀ v, tbl.Founded captures (.var 0 v [])

variable {tbl : Table} {captures : Nat → Ty} {n k : Nat} {s t : Ty}

/-! ### Parts of types -/

theorem solid_bare (t : Ty) : tbl.Solid captures t.bare ↔ tbl.Solid captures t := by
  cases t with
  | declared c args owner marks => simp only [Ty.bare_declared, Solid]
  | intersection n bounds => simp [Ty.bare_intersection, Solid]
  | union | executable => simp only [Ty.bare, Solid]
  | captured token site upper lower marks =>
    simp only [Ty.bare, Solid, Ty.isReference_bare, Ty.bare_bare]
  | _ => simp only [Ty.bare, Solid, Ty.isReference_bare, Ty.isPrimitive_bare]

theorem solid_of_bare_eq (h : s.bare = t.bare) (hs : tbl.Solid captures s) : tbl.Solid captures t :=
  Ty.of_bare_eq solid_bare h hs

theorem tokened_of_solid (h : tbl.Solid captures t) : t.Tokened captures := by
  rintro token site upper lower marks rfl
  exact h.2.2

/-- Equal types differ in annotations and numbers only. -/
theorem Fine.bare_eq_of_same (hs : tbl.Fine captures s) (ht : tbl.Fine captures t)
    (h : s.same t = true) : s.bare = t.bare :=
  Ty.bare_eq_of_same h (hs.solid.mono fun _ => tokened_of_solid)
    (ht.solid.mono fun _ => tokened_of_solid)

theorem Fine.member {m bounds} (h : tbl.Fine captures (.intersection m bounds)) {b}
    (hb : b ∈ bounds) : tbl.Fine captures b :=
  ⟨h.within.member hb, h.solid.top b hb, h.solid.part hb⟩

theorem Fine.component {component} (h : tbl.Fine captures (.array component marks))
    (hprimitive : component.isPrimitive = false) : tbl.Fine captures component where
  within := h.within.component
  isReference := h.solid.top.resolve_left fun hp => Bool.false_ne_true (hprimitive.symm.trans hp)
  solid := h.solid.component

theorem Fine.capturedUpper {token site upper lower}
    (h : tbl.Fine captures (.captured token site upper lower marks)) : tbl.Fine captures upper :=
  ⟨h.within.capturedUpper, h.solid.top.1, h.solid.capturedUpper⟩

/-- The type is a type argument, and its parts are reference types. -/
structure FineArgument (tbl : Table) (captures : Nat → Ty) (a : Ty) : Prop where
  admits : tbl.Admits .unowned a
  solid : a.Every (tbl.Solid captures)

theorem FineArgument.orUpper (h : tbl.FineArgument captures a) : tbl.Fine captures a.orUpper where
  within := h.admits.orUpper
  isReference := by
    cases a with
    | wildcard m upper lower marks => exact h.solid.top.1
    | array | declared | captured | null | var => rfl
    | _ => cases h.admits.1
  solid := h.solid.orUpper

theorem FineArgument.isReference_orLower (h : tbl.FineArgument captures a) :
    a.orLower.isReference = true := by
  cases a with
  | wildcard m upper lower marks => exact h.solid.top.2
  | array | declared | captured | null | var => rfl
  | _ => cases h.admits.1

theorem Joinable.founded_var (h : tbl.Joinable captures) (m : Nat) (v : TypeVarId)
    (marks : List ClassId) : tbl.Founded captures (.var m v marks) := by
  cases h.founded v with
  | var hu hfounded => exact .var hu hfounded

theorem Joinable.founded_of_fine (h : tbl.Joinable captures) (ht : tbl.Fine captures t) :
    tbl.Founded captures t := by
  induction t using Ty.children_induction with
  | step t ih =>
    cases t with
    | null => exact .null
    | declared c args owner marks => exact .use ht.solid.top
    | array component marks =>
      cases hp : component.isPrimitive with
      | true =>
        obtain ⟨p, ms, rfl⟩ := Ty.exists_eq_primitive hp
        exact .primitives
      | false => exact .array (ih component mem_cons_self (ht.component hp))
    | var m v marks => exact h.founded_var m v marks
    | captured token site upper lower marks =>
      exact .captured (tokened_of_solid ht.solid.top) (ih upper mem_cons_self ht.capturedUpper)
    | intersection m bounds => exact .intersection fun b hb => ih b hb (ht.member hb)
    | _ => cases ht.isReference

theorem Joinable.fine_upperBound (h : tbl.Joinable captures) {v} (hu : tbl.upperBound v = .ok u) :
    tbl.Fine captures u := by
  obtain ⟨ts, u', hts, hu', hwithin, hform⟩ := h.obeys.exists_upperBound v
  cases hu.symm.trans hu'
  have hfounded : tbl.Founded captures u := by
    cases h.founded v with
    | var hu' hfounded =>
      cases hu.symm.trans hu'
      exact hfounded
  have hreference {x : Ty} (hx : tbl.Founded captures x) (hproper : x.isProper = true) :
      x.isReference = true := by
    cases hx <;> first | rfl | cases hproper
  have hbounds := h.bounds v ts hts
  refine ⟨hwithin, hreference hfounded hwithin.1, ?_⟩
  rcases hform with rfl | rfl
  · exact hbounds u mem_cons_self
  · refine .intro (fun b hb => ?_) hbounds
    cases hfounded with
    | intersection hfounded => exact hreference (hfounded b hb) (hwithin.member hb).1

theorem Joinable.grounded (h : tbl.Joinable captures) : tbl.Grounded := by
  -- A variable is met as an upper bound or among several.
  have hacc {x : Ty} (hx : tbl.Founded captures x) :
      ∀ y, y = x ∨ (∃ m bounds, x = .intersection m bounds ∧ y ∈ bounds) →
        ∀ m v marks, y = .var m v marks → Acc (fun w v => tbl.IsBound v w) v := by
    induction hx with
    | @var _ v u _ hu _ ih =>
      rintro y (rfl | ⟨_, _, hx, -⟩) m w marks hy
      · cases hy
        refine .intro v ?_
        rintro w ⟨ts, m, marks, hts, hw⟩
        refine ih (.var m w marks) ?_ m w marks rfl
        rcases upperBound_cases hts hu with rfl | rfl
        · exact .inl (mem_singleton.mp hw)
        · exact .inr ⟨_, _, rfl, hw⟩
      · cases hx
    | intersection _ ih =>
      rintro y (rfl | ⟨_, _, hx, hy⟩) m w marks heq
      · cases heq
      · cases hx
        exact ih y hy y (.inl rfl) m w marks heq
    | _ =>
      rintro y (rfl | ⟨_, _, hx, -⟩) m w marks heq
      · cases heq
      · cases hx
  exact ⟨fun v => hacc (h.founded v) _ (.inl rfl) 0 v [] rfl⟩

/-! ### Supertypes -/

section Subst

variable {σ : TypeVarId → Option Ty} (hσ : ∀ v x, σ v = some x → tbl.FineArgument captures x)
include hσ

theorem isReference_subst (hx : x.isReference = true) :
    (x.subst σ).orUpper.isReference = true ∧ (x.subst σ).orLower.isReference = true := by
  cases x with
  | var m v marks =>
    rw [Ty.subst]
    cases hv : σ v with
    | none => exact ⟨rfl, rfl⟩
    | some y => exact ⟨(hσ v y hv).orUpper.isReference, (hσ v y hv).isReference_orLower⟩
  | array | declared | captured | null | intersection => exact ⟨rfl, rfl⟩
  | _ => cases hx

theorem every_solid_subst (ht : t.Every (tbl.Solid captures)) :
    (t.subst σ).Every (tbl.Solid captures) := by
  induction ht with
  | @intro t top parts ih =>
    have hlayer (hlayered : t.isLayered = true) (htop : tbl.Solid captures (t.subst σ)) :
        (t.subst σ).Every (tbl.Solid captures) := by
      rw [Ty.subst_of_isLayered hlayered] at htop ⊢
      exact .rebuild htop ih parts
    cases t with
    | var m v marks =>
      rw [Ty.subst]
      cases hv : σ v with
      | none => exact .intro top parts
      | some x => exact (hσ v x hv).solid
    | array component marks =>
      refine hlayer rfl (top.imp (fun hp => ?_) fun hr => (isReference_subst hσ hr).1)
      obtain ⟨p, ms, rfl⟩ := Ty.exists_eq_primitive hp
      rfl
    | declared c args owner marks => exact hlayer rfl top
    | wildcard m upper lower marks =>
      exact hlayer rfl ⟨(isReference_subst hσ top.1).1, (isReference_subst hσ top.2).2⟩
    | intersection m bounds =>
      refine hlayer rfl ?_
      rw [Ty.subst, Ty.substAll_eq_map, map_map]
      intro x hx
      obtain ⟨b, hb, rfl⟩ := mem_map.mp hx
      exact (isReference_subst hσ (top b hb)).1
    | _ => exact .intro top parts

end Subst

theorem solid_objectType (hroot : tbl.Rooted) : tbl.objectType.Every (tbl.Solid captures) :=
  .leaf hroot.isPrimitive rfl

/-- The parts of supertypes are reference types again. -/
theorem Joinable.solid_of_supers (h : tbl.Joinable captures) {ts} (hmaps : tbl.Maps .unowned t)
    (ht : t.Every (tbl.Solid captures)) (hts : tbl.DirectSupers t ts) :
    ∀ s ∈ ts, s.Every (tbl.Solid captures) := by
  obtain ⟨c, args, owner, marks, rfl, -, hsupers⟩ := hts
  intro s hs
  cases hsupers with
  | root => cases hs
  | top =>
    rw [mem_singleton.mp hs]
    exact solid_objectType h.obeys.rooted
  | erased _ hps =>
    obtain ⟨p, hp, rfl⟩ := mem_map.mp hs
    obtain ⟨d, ds, o, ms, rfl⟩ := Ty.exists_eq_declared (h.obeys.invokes_pattern hps p hp).1
    exact .leaf (h.supertypes c _ hps _ hp).top rfl
  | replaced _ hps _ hm hts =>
    obtain ⟨p, hp, hreplaces⟩ :=
      exists_of_forall₂_right (h.obeys.forall₂_replaces (hmaps.remark []) hps hm hts) hs
    refine (every_solid_subst (fun v x hx => ?_) (h.supertypes c _ hps p hp)).of_bare_eq
      (fun _ _ => solid_of_bare_eq) hreplaces.bare_eq.symm
    rw [lookup_typeMapping hm, assignment_remark c args owner [] marks] at hx
    exact ⟨hmaps.2 v x hx, every_assignment ht v x hx⟩

/-- The second type is a use of the class of the first, without owner and with arguments that
contain those of the first. -/
def Encloses (tbl : Table) (x b : Ty) : Prop :=
  ∃ c ds o ms args ms', x = .declared c ds o ms ∧ b = .declared c args none ms' ∧
    (args = [] ∨ ds ≠ []) ∧ ∀ y a, (y, a) ∈ args.zip ds → Contained tbl.Sub a y

theorem Encloses.isSingle {b} (h : tbl.Encloses x b) : b.isSingle = true := by
  obtain ⟨_, _, _, _, _, _, -, rfl, -⟩ := h
  rfl

theorem fine_bare_class (hc : (tbl.cls c).isPrimitive = false) (marks : List ClassId) :
    tbl.Fine captures (.declared c [] none marks) :=
  ⟨⟨rfl, .leaf ⟨.inr ⟨rfl, rfl⟩, forall_mem_nil _, fun _ ho => by cases ho⟩ rfl⟩, rfl,
    .leaf hc rfl⟩

/-- What a type has in going up to a class: a use of the class, such that the type is below every
use that encloses it. By induction on the length of the way. -/
theorem Joinable.sub_of_climb (h : tbl.Joinable captures)
    (hc : (tbl.cls c).isPrimitive = false) (hk : k ≤ n) (ht : tbl.Fine captures t)
    (hx : climb (tbl.ascend n c) k t = .ok (some x)) :
    tbl.Fine captures x ∧ ∀ b, tbl.Encloses x b → tbl.Sub t b := by
  induction k generalizing t with
  | zero => cases hx
  | succ k ih =>
    have habove {ts : List Ty} (hts : tbl.ascend n c t = .ok (.above ts)) :
        ∃ s ∈ ts, climb (tbl.ascend n c) k s = .ok (some x) := by
      rw [climb, hts] at hx
      exact exists_of_firstFound hx
    cases t with
    | declared d args owner marks =>
      obtain ⟨r, hr, hprops, -⟩ := h.obeys.exists_resolves (p := Ty.Every (tbl.Solid captures))
        (fun ht hp hts => h.solid_of_supers ht.maps hp hts) (ht.within.invokes rfl) ht.solid c
      have hsettles := hr (fun j => max n j) fun j => Nat.le_max_right n j
      have hn : max n (k + 1) = n := Nat.max_eq_left hk
      have heq : some x = r := hsettles.eq_of_ok (k := k + 1) (by rw [hn]; exact hx)
      obtain ⟨hinvokes, hsolid, ds, o, ms, rfl⟩ := hprops x heq.symm
      refine ⟨⟨⟨rfl, .intro hinvokes.2.1 hinvokes.2.2⟩, rfl, hsolid⟩, ?_⟩
      rintro b ⟨c', ds, o, ms, args', ms', hx', rfl, hraw, hargs⟩
      cases hx'
      exact .of_step (.invocation (heq ▸ hr) hraw hargs fun _ _ _ hy => by cases hy)
    | array component marks =>
      rw [climb, ascend] at hx
      split_ifs at hx with harray
      · cases hx
        refine ⟨fine_bare_class hc [], ?_⟩
        rintro b ⟨c', ds, o, ms, args', ms', hx', rfl, hraw, -⟩
        cases hx'
        cases hraw.resolve_right fun hne => hne rfl
        exact .of_step (.array harray)
      · cases hx
    | var m v marks =>
      obtain ⟨u, hu⟩ : ∃ u, tbl.upperBound v = .ok u := by
        cases h.founded v with
        | var hu _ => exact ⟨_, hu⟩
      have hascend : tbl.ascend n c (.var m v marks) = .ok (.above [u]) := by
        simp only [ascend, upperBounds, hu]
        rfl
      obtain ⟨s, hs, hx⟩ := habove hascend
      cases mem_singleton.mp hs
      obtain ⟨hfine, hsub⟩ := ih (Nat.le_of_succ_le hk) (h.fine_upperBound hu) hx
      exact ⟨hfine, fun b hb => .of_step (.bound hb.isSingle hu (hsub b hb))⟩
    | captured token site upper lower marks =>
      obtain ⟨s, hs, hx⟩ := habove rfl
      cases mem_singleton.mp hs
      obtain ⟨hfine, hsub⟩ := ih (Nat.le_of_succ_le hk) ht.capturedUpper hx
      exact ⟨hfine, fun b hb => .of_step (.upper hb.isSingle (hsub b hb))⟩
    | intersection m bounds =>
      obtain ⟨s, hs, hx⟩ := habove rfl
      obtain ⟨hfine, hsub⟩ := ih (Nat.le_of_succ_le hk) (ht.member hs) hx
      exact ⟨hfine, fun b hb => .of_step (.member hs (hsub b hb))⟩
    | null =>
      obtain ⟨s, hs, hx⟩ := habove rfl
      cases hs
    | _ => cases ht.isReference

/-! ### Erased supertypes and the root class -/

theorem fine_of_erased (he : e.Erased) (hfounded : tbl.Founded captures e) :
    tbl.Fine captures e := by
  induction he with
  | null => exact ⟨within_null _, rfl, .leaf trivial rfl⟩
  | declared =>
    cases hfounded with
    | use hc => exact fine_bare_class hc _
  | primitives =>
    exact ⟨⟨rfl, .array rfl (.leaf trivial rfl)⟩, rfl, .array (.inl rfl) (.leaf trivial rfl)⟩
  | array he ih =>
    have hfine := ih (hfounded.component he.isPrimitive)
    exact ⟨⟨rfl, .array hfine.within.1 hfine.within.2⟩, rfl,
      .array (.inr hfine.isReference) hfine.solid⟩

/-- A type is below the erased types that it is under. -/
theorem Joinable.sub_of_under (h : tbl.Joinable captures) (ht : tbl.Fine captures t)
    (hunder : tbl.Under t e) : tbl.Sub t e := by
  have hsingle {e : Ty} (he : e.Erased) : e.isSingle = true := by
    cases he <;> rfl
  induction hunder with
  | null he => exact .of_step (.null (hsingle he))
  | @use c d args owner marks marks' hpath =>
    obtain ⟨r, hr, huses, hsome⟩ := h.obeys.toOrderly.exists_resolves (p := fun _ => True)
      (fun _ _ _ _ _ => trivial) (ht.within.invokes rfl).formed trivial d
    cases r with
    | none => exact absurd rfl (hsome c ⟨_, _, _, rfl⟩ ht.solid.top hpath)
    | some x =>
      obtain ⟨-, -, _, _, _, rfl⟩ := huses x rfl
      exact .of_step (.invocation hr (.inl rfl) (fun _ _ hmem => by cases hmem)
        fun _ _ _ hy => by cases hy)
  | primitives => exact .refl rfl
  | component he hunder ih =>
    have hprimitive := hunder.isPrimitive
    exact .of_step (.component hprimitive he.isPrimitive (ih (ht.component hprimitive)))
  | array hd => exact .of_step (.array (h.arrays.isArraySupertype _ hd))
  | bound hu hunder ih =>
    exact .of_step (.bound (hsingle hunder.erased) hu (ih (h.fine_upperBound hu)))
  | capturedUpper hunder ih => exact .of_step (.upper (hsingle hunder.erased) (ih ht.capturedUpper))
  | wildcardUpper => cases ht.isReference
  | member hb hunder ih => exact .of_step (.member hb (ih (ht.member hb)))
  | alternatives => cases ht.isReference

/-- The root class is above all reference types. -/
theorem Joinable.sub_objectType (h : tbl.Joinable captures) (ht : tbl.Fine captures t) :
    tbl.Sub t tbl.objectType := by
  induction t using Ty.children_induction with
  | step t ih =>
    cases t with
    | intersection m bounds =>
      obtain ⟨b, hb⟩ := exists_mem_of_ne_nil bounds ht.within.2.top.2.1
      exact .of_step (.member hb (ih b hb (ht.member hb)))
    | array | declared | var | captured | null =>
      exact .of_step (.root rfl h.obeys.rooted.isObject_objectType)
    | _ => cases ht.isReference

/-! ### Arguments that contain others -/

/-- The third type is an upper bound of the others. -/
structure Above (tbl : Table) (captures : Nat → Ty) (s t b : Ty) : Prop where
  fine : tbl.Fine captures b
  left : tbl.Sub s b
  right : tbl.Sub t b

/-- The bounds that are known are upper bounds, also of types that equal those for which they are
known. -/
def Known (tbl : Table) (captures : Nat → Ty) (known : List (List Ty × List Ty)) : Prop :=
  ∀ entry ∈ known, ∀ x, tbl.Fine captures x → x.isIn entry.1 = true → ∀ b ∈ entry.2,
    tbl.Fine captures b ∧ tbl.Sub x b

/-- The computation finds upper bounds of two types, if the known bounds are, and keeps them so. -/
def Joins (tbl : Table) (captures : Nat → Ty)
    (lub : List (List Ty) → List Ty → BoundsM Result (List Ty)) : Prop :=
  ∀ active s t, tbl.Fine captures s → tbl.Fine captures t →
    Keeps (tbl.Known captures) (lub active [s, t]) fun bs => ∀ b ∈ bs, tbl.Above captures s t b

theorem above_of_joinBounds {bs} (h : ∀ b ∈ bs, tbl.Above captures s t b) {bound}
    (hbound : joinBounds bs = .ok bound) :
    ∀ u ∈ bound, tbl.Above captures s t u := by
  rw [joinBounds.eq_def] at hbound
  split at hbound
  · cases hbound
    intro u hu
    cases hu
  · cases hbound
    rintro u ⟨⟩
    exact h _ mem_cons_self
  · obtain ⟨x, hx, hbound⟩ := bind_eq_ok.mp hbound
    cases hbound
    obtain ⟨rfl, hlength⟩ := makeIntersection_eq_ok hx
    rintro u ⟨⟩
    have hne : bs ≠ [] := by
      rintro rfl
      cases hlength
    refine ⟨⟨⟨rfl, ?_⟩, rfl, ?_⟩, .of_step (.meet fun b hb => (h b hb).left),
      .of_step (.meet fun b hb => (h b hb).right)⟩
    · exact .intro ⟨rfl, hne, fun b hb => (h b hb).fine.within.1⟩
        fun b hb => (h b hb).fine.within.2
    · exact .intro (fun b hb => (h b hb).fine.isReference) fun b hb => (h b hb).fine.solid

theorem fineArgument_wildcard (hu : tbl.Fine captures u) :
    tbl.FineArgument captures (.wildcard 0 u .null []) := by
  have hbound : u.isBound = true := Ty.isBound_of_isReference hu.isReference
  exact ⟨⟨rfl, .wildcard ⟨hbound, rfl, .inr rfl⟩ hu.within.2 (.leaf trivial rfl)⟩,
    .wildcard ⟨hu.isReference, rfl⟩ hu.solid (.leaf trivial rfl)⟩

/-- A wildcard without lower bound contains the arguments that are below its upper bound. -/
theorem contained_wildcard (ha : tbl.FineArgument captures a) (hu : tbl.Sub a.orUpper u) :
    Contained tbl.Sub a (.wildcard 0 u .null []) := by
  refine .between hu ?_
  cases a with
  | wildcard m upper lower marks =>
    cases ha.admits.2.top.2.2.resolve_left Bool.false_ne_true
    exact .refl rfl
  | array | declared | captured | null | var => exact .of_step (.null rfl)
  | _ => cases ha.admits.1

theorem Fine.null_sub (ht : tbl.Fine captures t) : tbl.Sub .null t := by
  induction t using Ty.children_induction with
  | step t ih =>
    cases t with
    | intersection m bounds => exact .of_step (.meet fun b hb => ih b hb (ht.member hb))
    | array | declared | var | captured | null => exact .of_step (.null rfl)
    | _ => cases ht.isReference

theorem Joinable.fine_objectType (h : tbl.Joinable captures) : tbl.Fine captures tbl.objectType :=
  ⟨h.obeys.rooted.within_objectType _, rfl, solid_objectType h.obeys.rooted⟩

/-- What is found for two types is known from then on. -/
theorem Joinable.known_cons (h : tbl.Joinable captures) (hs : tbl.Fine captures s)
    (ht : tbl.Fine captures t) {bs} (hbs : ∀ b ∈ bs, tbl.Above captures s t b) {known}
    (hknown : tbl.Known captures known) :
    tbl.Known captures (([s, t], bs) :: known) := by
  have hsub {x y b : Ty} (hx : tbl.Fine captures x) (hy : tbl.Fine captures y)
      (hsame : x.same y = true) (hb : tbl.Fine captures b) (hyb : tbl.Sub y b) : tbl.Sub x b := by
    obtain ⟨m, hm⟩ := hyb
    exact ⟨m, hm.of_bare_eq h.obeys hy.within hb.within (hx.bare_eq_of_same hy hsame).symm rfl⟩
  refine forall_mem_cons.mpr ⟨fun x hx hin b hb => ⟨(hbs b hb).fine, ?_⟩, hknown⟩
  obtain ⟨y, hy, hxy⟩ := any_eq_true.mp hin
  rcases mem_pair.mp hy with rfl | rfl
  · exact hsub hx hs hxy (hbs b hb).fine (hbs b hb).left
  · exact hsub hx ht hxy (hbs b hb).fine (hbs b hb).right

section Step

variable (h : tbl.Joinable captures)
  {lub : List (List Ty) → List Ty → BoundsM Result (List Ty)} (hlub : tbl.Joins captures lub)
  {active : List (List Ty)}
include h hlub

theorem Joinable.keeps_extendsBound (hs : tbl.Fine captures s) (ht : tbl.Fine captures t) :
    Keeps (tbl.Known captures) (tbl.extendsBound lub active s t) fun w =>
      ∃ u, w = .wildcard 0 u .null [] ∧ tbl.Above captures s t u := by
  refine (hlub active s t hs ht).bind fun bs hbs => ?_
  refine (Keeps.lift _).bind fun bound hbound => ?_
  refine (Keeps.lift _).bind fun w hw => ?_
  obtain ⟨u, l, rfl, -, -, -, hu, hl⟩ := makeWildcard_eq_ok hw
  obtain rfl : l = .null := hl.resolve_right nofun
  have habove : tbl.Above captures s t u := by
    rcases hu with rfl | rfl
    · exact ⟨h.fine_objectType, h.sub_objectType hs, h.sub_objectType ht⟩
    · exact above_of_joinBounds hbs hbound u rfl
  exact Keeps.pure ⟨u, rfl, habove⟩

/-- The argument that is found contains both. -/
theorem Joinable.keeps_containingArgument {a'} (ha : tbl.FineArgument captures a)
    (ha' : tbl.FineArgument captures a') :
    Keeps (tbl.Known captures) (tbl.containingArgument n lub active a a') fun w =>
      tbl.FineArgument captures w ∧ Contained tbl.Sub a w ∧ Contained tbl.Sub a' w := by
  have hlower {m : Nat} {upper lower : Ty} {marks : List ClassId}
      (ha : tbl.FineArgument captures (.wildcard m upper lower marks)) : lower = .null :=
    ha.admits.2.top.2.2.resolve_left Bool.false_ne_true
  have hextends : Keeps (tbl.Known captures) (tbl.extendsBound lub active a.orUpper a'.orUpper)
      fun w => tbl.FineArgument captures w ∧ Contained tbl.Sub a w ∧ Contained tbl.Sub a' w := by
    refine (h.keeps_extendsBound hlub ha.orUpper ha'.orUpper).mono fun w hw => ?_
    obtain ⟨u, rfl, hu⟩ := hw
    exact ⟨fineArgument_wildcard hu.fine, contained_wildcard ha hu.left,
      contained_wildcard ha' hu.right⟩
  have hextends' : Keeps (tbl.Known captures) (tbl.extendsBound lub active a'.orUpper a.orUpper)
      fun w => tbl.FineArgument captures w ∧ Contained tbl.Sub a w ∧ Contained tbl.Sub a' w := by
    refine (h.keeps_extendsBound hlub ha'.orUpper ha.orUpper).mono fun w hw => ?_
    obtain ⟨u, rfl, hu⟩ := hw
    exact ⟨fineArgument_wildcard hu.fine, contained_wildcard ha hu.right,
      contained_wildcard ha' hu.left⟩
  have hself {x : Ty} (hx : ∀ m upper lower marks, x = .wildcard m upper lower marks → False) :
      x.isWildcard = false ∧ x.orUpper = x := by
    cases x with
    | wildcard => exact (hx _ _ _ _ rfl).elim
    | _ => exact ⟨rfl, rfl⟩
  unfold containingArgument
  split
  · cases hlower ha
    cases hlower ha'
    exact hextends
  · rename_i hne
    cases hlower ha
    rw [(hself hne).2] at hextends
    exact hextends
  · rename_i hne
    cases hlower ha'
    rw [(hself hne).2] at hextends'
    exact hextends'
  · rename_i hne hne' _
    rw [(hself hne).2, (hself hne').2] at hextends
    split_ifs with hsame
    · have hbare : a.bare = a'.bare := Ty.bare_eq_of_same hsame
        (ha.solid.mono fun _ => tokened_of_solid) (ha'.solid.mono fun _ => tokened_of_solid)
      exact Keeps.pure ⟨ha, .same (hself hne).1 rfl, .same (hself hne).1 hbare.symm⟩
    · exact hextends

theorem Joinable.keeps_pairArguments {args} (hargs : ∀ a ∈ args, tbl.FineArgument captures a)
    (hargs' : ∀ a ∈ args', tbl.FineArgument captures a) :
    Keeps (tbl.Known captures) (pairArguments (tbl.containingArgument n lub active) args args')
      fun ws => (∀ w ∈ ws, tbl.FineArgument captures w) ∧
        Forall₂ (fun w a => Contained tbl.Sub a w) ws args ∧
        Forall₂ (fun w a => Contained tbl.Sub a w) ws args' := by
  induction args generalizing args' with
  | nil =>
    cases args' with
    | nil => exact .pure ⟨forall_mem_nil _, .nil, .nil⟩
    | cons => exact fun _ _ _ hr => by cases hr
  | cons a args ih =>
    cases args' with
    | nil => exact fun _ _ _ hr => by cases hr
    | cons a' args' =>
      rw [forall_mem_cons] at hargs hargs'
      refine (h.keeps_containingArgument hlub hargs.1 hargs'.1).bind fun w hw => ?_
      refine (ih hargs.2 hargs'.2).bind fun ws hws => .pure ?_
      exact ⟨forall_mem_cons.mpr ⟨hw.1, hws.1⟩, .cons hw.2.1 hws.2.1, .cons hw.2.2 hws.2.2⟩

/-- The parameterization that is found encloses both. -/
theorem Joinable.keeps_containingInvocation {args owner owner' marks'}
    (hx : tbl.Fine captures (.declared c args owner marks))
    (hx' : tbl.Fine captures (.declared c args' owner' marks')) :
    Keeps (tbl.Known captures) (tbl.containingInvocation n lub active (.declared c args owner marks)
      (.declared c args' owner' marks')) fun b => tbl.Fine captures b ∧
        tbl.Encloses (.declared c args owner marks) b ∧
        tbl.Encloses (.declared c args' owner' marks') b := by
  have hfine {args : List Ty} {owner : Option Ty} {marks : List ClassId}
      (hx : tbl.Fine captures (.declared c args owner marks)) :
      ∀ a ∈ args, tbl.FineArgument captures a :=
    fun a ha => ⟨(hx.within.invokes rfl).admits ha, hx.solid.arg ha⟩
  have hencloses {ws ds : List Ty} {o : Option Ty} {ms : List ClassId}
      (hws : Forall₂ (fun w a => Contained tbl.Sub a w) ws ds) :
      tbl.Encloses (.declared c ds o ms) (.declared c ws none []) := by
    refine ⟨c, ds, o, ms, ws, [], rfl, rfl, ?_, fun y a hmem => (forall₂_iff_zip.mp hws).2 hmem⟩
    cases hws with
    | nil => exact .inl rfl
    | cons => exact .inr (cons_ne_nil _ _)
  cases (hx.within.invokes rfl).owner_eq_none rfl
  have howner : Keeps (tbl.Known captures) (pure none) fun o : Option Ty => o = none := .pure rfl
  refine howner.bind fun o ho => ?_
  subst ho
  refine (h.keeps_pairArguments hlub (hfine hx) (hfine hx')).bind fun ws hws => ?_
  refine (Keeps.lift _).mono fun b hb => ?_
  obtain ⟨rfl, hcount, hargument⟩ := makeDeclared_eq_ok hb
  refine ⟨⟨⟨rfl, ?_⟩, rfl, ?_⟩, hencloses hws.2.1, hencloses hws.2.2⟩
  · exact .declared ⟨hcount.symm.imp_right fun hnil => ⟨hnil, rfl⟩, hargument,
      fun _ ho => by cases ho⟩ (fun w hw => (hws.1 w hw).admits.2) fun _ ho => by cases ho
  · exact .declared hx.solid.top (fun w hw => (hws.1 w hw).solid) fun _ ho => by cases ho

/-- The common parameterization of a class that both types have above them, if there is one, is
above both. -/
theorem Joinable.keeps_commonInvocation (hc : (tbl.cls c).isPrimitive = false)
    (hs : tbl.Fine captures s) (ht : tbl.Fine captures t) :
    Keeps (tbl.Known captures) (tbl.commonInvocation n lub active c none [s, t]) fun r =>
      ∀ b ∈ r, tbl.Above captures s t b := by
  have hnone : ∀ b ∈ (none : Option Ty), tbl.Above captures s t b := by simp
  rw [commonInvocation, resolveSupertype_stateT]
  refine (Keeps.lift _).bind fun x hx => ?_
  rw [resolveSupertype_eq_climb] at hx
  split
  · rename_i d ds o ms
    obtain ⟨hfine, hsub⟩ := h.sub_of_climb hc (Nat.le_refl n) hs hx
    obtain ⟨_, _, _, heq⟩ := uses_of_climb hx
    cases heq
    split
    · exact .pure hnone
    · dsimp only
      rw [commonInvocation, resolveSupertype_stateT]
      refine (Keeps.lift _).bind fun y hy => ?_
      rw [resolveSupertype_eq_climb] at hy
      split
      · rename_i d' ds' o' ms'
        obtain ⟨hfine', hsub'⟩ := h.sub_of_climb hc (Nat.le_refl n) ht hy
        obtain ⟨_, _, _, heq⟩ := uses_of_climb hy
        cases heq
        split
        · exact .pure hnone
        · dsimp only
          refine (h.keeps_containingInvocation hlub hfine hfine').bind fun b hb => .pure ?_
          rintro _ ⟨⟩
          exact ⟨hb.1, hsub b hb.2.1, hsub' b hb.2.2⟩
      · exact .pure hnone
  · exact .pure hnone

/-- A candidate that gets arguments, or gets none, is above both types. -/
theorem Joinable.keeps_parameterize (hs : tbl.Fine captures s) (ht : tbl.Fine captures t)
    (hfounded : tbl.Founded captures e) (hse : tbl.Under s e) (hte : tbl.Under t e) :
    Keeps (tbl.Known captures) (tbl.parameterize n lub active [s, t] e)
      (tbl.Above captures s t) := by
  have habove : tbl.Above captures s t e :=
    ⟨fine_of_erased hse.erased hfounded, h.sub_of_under hs hse, h.sub_of_under ht hte⟩
  unfold parameterize
  split
  · split
    · exact .pure habove
    · have hc := habove.fine.solid.top
      refine (h.keeps_commonInvocation hlub hc hs ht).bind fun r hr => .pure ?_
      cases r with
      | none => exact habove
      | some b => exact hr b rfl
  · exact .pure habove

theorem Joinable.keeps_computeBounds (hcovers : tbl.Covers captures (leastUpperBoundsWith lub))
    (hs : tbl.Fine captures s) (ht : tbl.Fine captures t) :
    Keeps (tbl.Known captures) (tbl.computeBounds n lub active [s, t]) fun bs =>
      ∀ b ∈ bs, tbl.Above captures s t b := by
  refine (Keeps.lift _).bind fun cs hcs => (Keeps.lift _).bind fun ms hms => ?_
  have hcandidate (e : Ty) (he : e ∈ ms) :
      tbl.Founded captures e ∧ tbl.Under s e ∧ tbl.Under t e := by
    obtain ⟨⟨x, hx, es, hes, hmem⟩, hall⟩ :=
      exists_erasedSupertypes hcs ((mem_minimalTypes hms).mp he).1
    have hunder (x : Ty) (hx : x ∈ [s, t]) {es : List Ty}
        (hes : tbl.erasedSupertypes n lub x = .ok es) :
        ∀ e ∈ es, e.Erased ∧ tbl.Founded captures e ∧ tbl.Under x e := by
      refine h.obeys.toOrderly.under_of_erasedSupertypes h.arrays hcovers ?_ hes
      rcases mem_pair.mp hx with rfl | rfl
      · exact h.founded_of_fine hs
      · exact h.founded_of_fine ht
    have heach (x : Ty) (hx : x ∈ [s, t]) : tbl.Under x e := by
      obtain ⟨es, hes, y, hy, hey⟩ := hall x hx
      exact (hunder x hx hes y hy).2.2.of_same_right (Ty.same_symm hey)
    exact ⟨(hunder x hx hes e hmem).2.1, heach s (by simp), heach t (by simp)⟩
  refine (Keeps.mapM (R := fun _ => tbl.Above captures s t) fun e he => ?_).bind
    fun found hfound => .pure fun b hb => ?_
  · obtain ⟨hfounded, hse, hte⟩ := hcandidate e he
    exact h.keeps_parameterize hlub hs ht hfounded hse hte
  · obtain ⟨_, _, habove⟩ := exists_of_forall₂_right hfound (mem_classFirst.mp hb)
    exact habove

/-- One step finds upper bounds: known ones, the root class, or new ones that are known from then
on. -/
theorem Joinable.joins_lubStep (hcovers : tbl.Covers captures (leastUpperBoundsWith lub)) :
    tbl.Joins captures (tbl.lubStep n lub) := by
  intro active s t hs ht
  have hone {x : Ty} (hx : tbl.Fine captures x) (hsx : tbl.Sub s x) (htx : tbl.Sub t x) :
      ∀ b ∈ [x], tbl.Above captures s t b :=
    forall_mem_singleton.mpr ⟨hx, hsx, htx⟩
  have hnull {x : Ty} (hx : x.isNull = true) : x = .null := by
    cases x <;> first | rfl | cases hx
  unfold lubStep
  cases hsn : s.isNull <;> cases htn : t.isNull <;>
    simp only [filter_cons, filter_nil, hsn, htn, Bool.not_true, Bool.not_false,
      if_true, Bool.false_eq_true, if_false]
  · refine Keeps.get.bind fun known hknown => ?_
    split
    · rename_i entry hentry
      have hmembers := List.find?_some hentry
      rw [Ty.sameMembers, Bool.and_eq_true, all_eq_true, all_eq_true] at hmembers
      have hbounds := hknown entry (mem_of_find?_eq_some hentry)
      refine .pure fun b hb => ⟨?_, ?_, ?_⟩
      · exact (hbounds s hs (hmembers.2 s (by simp)) b hb).1
      · exact (hbounds s hs (hmembers.2 s (by simp)) b hb).2
      · exact (hbounds t ht (hmembers.2 t (by simp)) b hb).2
    · split
      · exact .pure (hone h.fine_objectType (h.sub_objectType hs) (h.sub_objectType ht))
      · refine (h.keeps_computeBounds hlub hcovers hs ht).bind fun bs hbs => ?_
        exact (Keeps.modify fun _ hknown => h.known_cons hs ht hbs hknown).bind fun _ _ => .pure hbs
  · cases hnull htn
    exact .pure (hone hs (.refl rfl) hs.null_sub)
  · cases hnull hsn
    exact .pure (hone ht ht.null_sub (.refl rfl))
  · cases hnull hsn
    cases hnull htn
    exact .pure (hone hs (.refl rfl) (.refl rfl))

end Step

theorem Joinable.joins_lub (h : tbl.Joinable captures) (n : Nat) :
    tbl.Joins captures (tbl.lub n) := by
  induction n with
  | zero => exact fun _ _ _ _ _ _ _ _ hr => by cases hr
  | succ n ih =>
    exact h.joins_lubStep ih (h.obeys.toOrderly.covers_leastUpperBounds h.arrays n)

/-! ### A criterion -/

/-- Whether the outermost layer of a type is solid. Tables do not mention captured variables, which
do not pass the test. -/
def isSolid (tbl : Table) : Ty → Bool
  | .array component _ => component.isPrimitive || component.isReference
  | .declared c _ _ _ => !(tbl.cls c).isPrimitive
  | .wildcard _ upper lower _ => upper.isReference && lower.isReference
  | .captured _ _ _ _ _ => false
  | .intersection _ bounds => bounds.all Ty.isReference
  | _ => true

theorem solid_of_isSolid (h : tbl.isSolid t = true) : tbl.Solid captures t := by
  cases t with
  | array => exact Bool.or_eq_true_iff.mp h
  | declared => simpa [isSolid, Solid] using h
  | wildcard => exact Bool.and_eq_true_iff.mp h
  | captured => cases h
  | intersection => exact all_eq_true.mp h
  | _ => trivial

/-- In a table whose type variables are bounded by uses of classes, bounds end there. -/
theorem Obeys.joinable_of_tests (h : tbl.Obeys .unowned) (harrays : tbl.ArraysRooted)
    (hpatterns : tbl.testPatterns (fun _ p =>
      decide (p.Every fun x => tbl.isSolid x = true)) = true)
    (hbounds : tbl.testBounds (fun _ ts => decide (∀ t ∈ ts,
      t.kind = .declared ∧ t.Every fun x => tbl.isSolid x = true)) = true) :
    tbl.Joinable captures := by
  have hsolid {t : Ty} (ht : t.Every fun x => tbl.isSolid x = true) :
      t.Every (tbl.Solid captures) := ht.mono fun _ => solid_of_isSolid
  have hroot : ∀ t ∈ [tbl.objectType],
      t.kind = .declared ∧ t.Every fun x => tbl.isSolid x = true := by
    simp only [forall_mem_singleton]
    refine ⟨rfl, .intro ?_ fun x hx => by cases hx⟩
    rw [objectType, isSolid, h.rooted.isPrimitive]
    rfl
  have hall (v : TypeVarId) : ∃ ts, tbl.boundsOf v = .ok ts ∧
      ∀ t ∈ ts, t.kind = .declared ∧ t.Every (tbl.Solid captures) := by
    obtain ⟨ts, hts, htest⟩ := exists_of_testBounds hbounds (fun _ => decide_eq_true hroot) v
    exact ⟨ts, hts, fun t ht => (of_decide_eq_true htest t ht).imp_right hsolid⟩
  have hfounded {t : Ty} (ht : t.kind = .declared ∧ t.Every (tbl.Solid captures)) :
      tbl.Founded captures t := by
    obtain ⟨hkind, hsolid⟩ := ht
    obtain ⟨c, args, owner, marks, rfl⟩ := Ty.exists_eq_declared hkind
    exact .use hsolid.top
  refine ⟨h, harrays, fun c ps hps p hp => hsolid
    (of_decide_eq_true (forall_of_testPatterns hpatterns hps p hp)),
    fun v ts hts t ht => ?_, fun v => ?_⟩
  · obtain ⟨us, hus, hall⟩ := hall v
    cases hts.symm.trans hus
    exact (hall t ht).2
  · obtain ⟨ts, u, hts, hu, -, hform⟩ := h.exists_upperBound v
    obtain ⟨us, hus, hall⟩ := hall v
    cases hts.symm.trans hus
    refine .var hu ?_
    rcases hform with rfl | rfl
    · exact hfounded (hall u mem_cons_self)
    · exact .intersection fun b hb => hfounded (hall b hb)

/-! ### Two types and their least upper bounds -/

/-- Two types are subtypes of each of their least upper bounds, whenever these are found. -/
theorem isSubtype_leastUpperBounds (h : tbl.Joinable captures) (hs : tbl.Fine captures s)
    (ht : tbl.Fine captures t) {bs : List Ty}
    (hbs : (tbl.leastUpperBounds n [s, t] : Result (List Ty)) = .ok bs) :
    ∀ b ∈ bs, Settles (fun k => tbl.isSubtype k s b) true ∧
      Settles (fun k => tbl.isSubtype k t b) true := by
  have habove : ∀ b ∈ bs, tbl.Above captures s t b := by
    rw [leastUpperBounds_pair (h.founded_of_fine hs).isPseudo
      (h.founded_of_fine ht).isPseudo] at hbs
    split_ifs at hbs with hsame
    · cases hbs
      exact forall_mem_singleton.mpr ⟨hs, .refl rfl, .refl (ht.bare_eq_of_same hs hsame)⟩
    · obtain ⟨r, hr, hbs⟩ := bind_eq_ok.mp hbs
      cases hbs
      exact (h.joins_lub n [] s t hs ht [] (forall_mem_nil _) r hr).1
  have hsettles {x b : Ty} (hx : tbl.Fine captures x) (hb : tbl.Fine captures b)
      (hxb : tbl.Sub x b) : Settles (fun k => tbl.isSubtype k x b) true := by
    simp only [isSubtype_eq_check hx.within hb.within]
    exact hxb.settles_check h.obeys rfl h.grounded hx.within hb.within
  intro b hb
  obtain ⟨hfine, hsb, htb⟩ := habove b hb
  exact ⟨hsettles hs hfine hsb, hsettles ht hfine htb⟩

set_option maxRecDepth 20000 in
/-- Two classes that are comparable with themselves: their least upper bound has an argument for
which the same question comes up again, and is answered by the root class. -/
theorem isSubtype_leastUpperBounds_comparable :
    let tbl : Table := {
      classes := #[
        { name := "java.lang.Object", simpleName := "Object", kind := .cls },
        { name := "p.N", simpleName := "N", kind := .interface,
          typeParameters := [{ name := "T" }] },
        { name := "p.A", simpleName := "A", kind := .cls,
          interfaces := [.applied ⟨1⟩ [.named ⟨2⟩ []] none []] },
        { name := "p.B", simpleName := "B", kind := .cls,
          interfaces := [.applied ⟨1⟩ [.named ⟨3⟩ []] none []] }] }
    let A : Ty := .declared ⟨2⟩ [] none []
    let B : Ty := .declared ⟨3⟩ [] none []
    let bound : Ty := .declared ⟨1⟩ [.wildcard 0 tbl.objectType .null []] none []
    tbl.Joinable (fun _ => .null) ∧ tbl.Fine (fun _ => .null) A ∧ tbl.Fine (fun _ => .null) B ∧
      tbl.leastUpperBounds 8 [A, B] = (.ok [bound] : Result (List Ty)) ∧
      Settles (fun k => tbl.isSubtype k A bound) true ∧
      Settles (fun k => tbl.isSubtype k B bound) true := by
  intro tbl A B bound
  have horderly : tbl.Orderly := orderly_of_isLayered (by rfl) (by rfl) (by rfl)
  have hobeys : tbl.Obeys .unowned := horderly.obeys_of_tests (by rfl) (by rfl)
  have hjoinable : tbl.Joinable (fun _ => .null) :=
    hobeys.joinable_of_tests ⟨by decide, by decide, by decide⟩ (by rfl) (by rfl)
  have hA : tbl.Fine (fun _ => .null) A := fine_bare_class rfl []
  have hB : tbl.Fine (fun _ => .null) B := fine_bare_class rfl []
  have hbs : tbl.leastUpperBounds 8 [A, B] = (.ok [bound] : Result (List Ty)) := by rfl
  exact ⟨hjoinable, hA, hB, hbs,
    isSubtype_leastUpperBounds hjoinable hA hB hbs bound mem_cons_self⟩

set_option maxRecDepth 20000 in
/-- Both conditions matter. If a type variable is among its own bounds, the check may not end: asked
whether the variable is below its last bound, it tries the variable first. And if supertype
expressions name the classes of primitive types, these may be the least upper bounds. -/
theorem not_isSubtype_leastUpperBounds :
    let circular : Table := {
      classes := #[
        { name := "java.lang.Object", simpleName := "Object", kind := .cls },
        { name := "p.A", simpleName := "A", kind := .interface },
        { name := "p.B", simpleName := "B", kind := .interface },
        { name := "p.X", simpleName := "X", kind := .cls, interfaces := [.named ⟨2⟩ []] },
        { name := "p.G", simpleName := "G", kind := .cls,
          typeParameters := [{ name := "T", bounds :=
            [.named ⟨1⟩ [], .var ⟨.cls ⟨4⟩, 0⟩ [], .named ⟨2⟩ []] }] }] }
    let T : Ty := .var 0 ⟨.cls ⟨4⟩, 0⟩ []
    let B : Ty := .declared ⟨2⟩ [] none []
    let X : Ty := .declared ⟨3⟩ [] none []
    let primitive : Table := {
      classes := #[
        { name := "java.lang.Object", simpleName := "Object", kind := .cls },
        { name := "int", simpleName := "int", kind := .primitive },
        { name := "p.C", simpleName := "C", kind := .cls, superclass := some (.named ⟨1⟩ []) },
        { name := "p.D", simpleName := "D", kind := .cls, superclass := some (.named ⟨1⟩ []) }] }
    let C : Ty := .declared ⟨2⟩ [] none []
    let D : Ty := .declared ⟨3⟩ [] none []
    (circular.Obeys .unowned ∧ circular.ArraysRooted ∧
      circular.boundsOf ⟨.cls ⟨4⟩, 0⟩ = .ok [.declared ⟨1⟩ [] none [], T, B] ∧
      circular.leastUpperBounds 8 [T, X] = (.ok [B] : Result (List Ty)) ∧
      ∀ k, circular.isSubtype k T B = .error .exhausted) ∧
    ((∀ c, ∃ ds, primitive.rawSupertypes c = .ok ds) ∧ primitive.ArraysRooted ∧
      primitive.leastUpperBounds 8 [C, D] = (.ok [.primitive .int []] : Result (List Ty)) ∧
      primitive.isSubtype 8 C (.primitive .int []) = .ok false) := by
  intro circular T B X primitive C D
  have horderly : circular.Orderly := orderly_of_isLayered (by rfl) (by rfl) (by rfl)
  refine ⟨⟨horderly.obeys_of_tests (by rfl) (by rfl), ⟨by decide, by decide, by decide⟩, rfl,
    by rfl, fun k => ?_⟩, exists_rawSupertypes_of_isLayered (by rfl),
    ⟨by decide, by decide, by decide⟩, by rfl, by rfl⟩
  have hloop : circular.isSubtype k T B = .error .exhausted ∧
      circular.isSubtype k (.intersection 0 [.declared ⟨1⟩ [] none [], T, B]) B =
        .error .exhausted := by
    induction k with
    | zero => exact ⟨rfl, rfl⟩
    | succ k ih =>
      refine ⟨ih.2, ?_⟩
      cases k with
      | zero => rfl
      | succ k =>
        change (circular.isSubtype (k + 1) T B >>= _) = _
        rw [ih.1]
        rfl
  exact hloop.1

set_option maxRecDepth 20000 in
/-- A supertype among the types need not be the bound. The lists of a type variable and of whatever
is below it have the bound that says nothing of the argument. -/
theorem leastUpperBounds_of_equal_variables :
    let tbl : Table := {
      classes := #[
        { name := "java.lang.Object", simpleName := "Object", kind := .cls },
        { name := "p.L", simpleName := "L", kind := .interface,
          typeParameters := [{ name := "E" }] }] }
    let list (a : Ty) : Ty := .declared ⟨1⟩ [a] none []
    let s : Ty := list (.var 0 ⟨.cls ⟨1⟩, 0⟩ [])
    let t : Ty := list (.wildcard 0 (.var 0 ⟨.cls ⟨1⟩, 0⟩ []) .null [])
    ∃ n : Nat, let bound : Ty := list (.wildcard n (.declared ⟨0⟩ [] none []) .null [])
      tbl.isSubtype 8 s t = .ok true ∧
      tbl.leastUpperBounds 8 [s, t] = (.ok [bound] : Result (List Ty)) ∧
      tbl.leastUpperBounds 8 [t, s] = (.ok [bound] : Result (List Ty)) ∧
      tbl.isSubtype 8 t bound = .ok true ∧ tbl.isSubtype 8 bound t = .ok false := by
  intro tbl list s t
  exact ⟨0, by rfl, by rfl, by rfl, by rfl, by rfl⟩

end Table

end NominalTypes
