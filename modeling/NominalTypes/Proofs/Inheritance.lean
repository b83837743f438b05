import NominalTypes.Proofs.Supertypes

/-!
# Inherited parameterizations

A class sees the classes above it with certain arguments. A table is coherent (`Table.Coherent`) if
no class, applied to its own type parameters, sees a class above it with two different lists of
arguments, and well scoped (`Table.Scoped`) if on the way up every type parameter that a supertype
expression mentions has an argument. Coherence then passes to all uses of classes, because what a
use inherits is an instance of what its class inherits.

Going up respects bare forms, and the types that are reached are made of the parts of the given one
and of new layers.
-/

namespace NominalTypes

open List

variable {s t x : Ty} {c d target : ClassId} {args ts args' : List Ty} {owner owner' : Option Ty}
  {σ : TypeVarId → Option Ty} {marks : List ClassId}

namespace Table

variable (tbl : Table)

/-- The first type is a use of a class, and the second one of its direct supertypes. -/
def Supertype (t s : Ty) : Prop :=
  ∃ k c args owner marks ts, t = .declared c args owner marks ∧
    tbl.declaredSupertypes k c args owner = .ok ts ∧ s ∈ ts

/-- The second type is the first or one of the uses of classes above it. -/
def Reaches : Ty → Ty → Prop :=
  Relation.ReflTransGen tbl.Supertype

/-- No class inherits two different parameterizations of one class. A raw type counts as one. -/
def Coherent : Prop :=
  ∀ c d s t, tbl.Reaches (tbl.selfType c) s → tbl.Reaches (tbl.selfType c) t →
    Ty.Uses d s → Ty.Uses d t → s.same t = true

/-- Whatever a class inherits has arguments for all type parameters that its supertype expressions
mention, unless it is raw. -/
def Scoped : Prop :=
  ∀ c d args owner marks, tbl.Reaches (tbl.selfType c) (.declared d args owner marks) →
    tbl.isRaw d args = false → ∀ ps, tbl.descriptors (tbl.supertypeExprs d) = .ok ps →
    ∀ p ∈ ps, p.Every (Ty.Over fun v => (tbl.assignment (.declared d args owner marks) v).isSome)

variable {tbl} {S : Shape}

/-! ### Steps upwards -/

theorem Orderly.exists_of_supertype (h : tbl.Orderly) (ht : t.Formed)
    (hts : tbl.Supertype t s) : ∃ ts, tbl.DirectSupers t ts ∧ s ∈ ts := by
  obtain ⟨k, c, args, owner, marks, ss, rfl, hss, hs⟩ := hts
  obtain ⟨ts, hsettles, hsupers⟩ := h.exists_supers (ht.remark [])
  cases hsettles.eq_of_ok hss
  exact ⟨ss, ⟨c, args, owner, marks, rfl, hsettles, hsupers⟩, hs⟩

theorem DirectSupers.supertype (hts : tbl.DirectSupers t ts) (hs : s ∈ ts) : tbl.Supertype t s := by
  obtain ⟨c, args, owner, marks, rfl, hsettles, -⟩ := hts
  obtain ⟨n, hn⟩ := hsettles.1
  exact ⟨n, c, args, owner, marks, ts, rfl, hn n (Nat.le_refl n), hs⟩

theorem Orderly.formed_of_supertype (h : tbl.Orderly) (ht : t.Formed)
    (hts : tbl.Supertype t s) : s.Formed := by
  obtain ⟨ts, ⟨c, args, owner, marks, rfl, -, hsupers⟩, hs⟩ := h.exists_of_supertype ht hts
  exact h.formed_of_supers (ht.remark []) hsupers s hs

theorem Orderly.invokes_of_supertype (h : tbl.Orderly) (hpatterned : tbl.Patterned S)
    (ht : tbl.Maps S t) (hts : tbl.Supertype t s) : tbl.Invokes S s := by
  obtain ⟨ts, ⟨c, args, owner, marks, rfl, -, hsupers⟩, hs⟩ := h.exists_of_supertype ht.1 hts
  exact h.invokes_of_supers hpatterned (ht.remark []) hsupers s hs

theorem Obeys.invokes_of_supertype (h : tbl.Obeys S) (ht : tbl.Maps S t)
    (hts : tbl.Supertype t s) : tbl.Invokes S s :=
  h.toOrderly.invokes_of_supertype h.patterned ht hts

theorem Orderly.inherits_of_supertype (h : tbl.Orderly) (ht : t.Formed)
    (hts : tbl.Supertype t s) (hc : Ty.Uses c t) (hd : Ty.Uses d s) : tbl.Inherits c d := by
  obtain ⟨ts, ⟨_, _, _, _, rfl, -, hsupers⟩, hs⟩ := h.exists_of_supertype ht hts
  obtain ⟨d', hd', hinherits⟩ := (h.uses_of_supers hsupers).1 s hs
  cases hd.unique hd'
  cases hc.unique ⟨_, _, _, rfl⟩
  exact hinherits

theorem Orderly.formed_of_reaches (h : tbl.Orderly) (ht : t.Formed)
    (hts : tbl.Reaches t s) : s.Formed := by
  induction hts with
  | refl => exact ht
  | tail _ hstep ih => exact h.formed_of_supertype ih hstep

theorem Orderly.invokes_of_reaches (h : tbl.Orderly) (hpatterned : tbl.Patterned S)
    (ht : tbl.Invokes S t) (hts : tbl.Reaches t s) : tbl.Invokes S s := by
  induction hts with
  | refl => exact ht
  | tail _ hstep ih => exact h.invokes_of_supertype hpatterned ih.maps hstep

theorem Obeys.invokes_of_reaches (h : tbl.Obeys S) (ht : tbl.Invokes S t)
    (hts : tbl.Reaches t s) : tbl.Invokes S s :=
  h.toOrderly.invokes_of_reaches h.patterned ht hts

theorem Orderly.inherits_of_reaches (h : tbl.Orderly) (ht : t.Formed)
    (hts : tbl.Reaches t s) (hc : Ty.Uses c t) (hd : Ty.Uses d s) :
    Relation.ReflTransGen tbl.Inherits c d := by
  induction hts generalizing d with
  | refl =>
    cases hc.unique hd
    exact .refl
  | tail hx hstep ih =>
    have hformed := h.formed_of_reaches ht hx
    obtain ⟨e, he⟩ := Ty.exists_uses hformed.kind
    exact (ih he).tail (h.inherits_of_supertype hformed hstep he hd)

/-- What is above a use of a class uses a different class, since inheritance is not cyclic. -/
theorem Orderly.not_uses_of_supertype (h : tbl.Orderly) {z} (ht : t.Formed) (hs : tbl.Supertype t s)
    (hz : tbl.Reaches s z) (hc : Ty.Uses c t) : ¬Ty.Uses c z := by
  intro hcz
  have hformed := h.formed_of_supertype ht hs
  obtain ⟨e, he⟩ := Ty.exists_uses hformed.kind
  have hstep := h.inherits_of_supertype ht hs hc he
  have hpath := h.inherits_of_reaches hformed hz he hcz
  have hcycle : Relation.TransGen tbl.Inherits c c := .head' hstep hpath
  exact h.wellFounded_inherits.transGen.irrefl.irrefl c (Relation.transGen_swap.mpr hcycle)

/-- The parameterization of a class that the way up leads to is reached. -/
theorem Orderly.reaches_of_resolves (h : tbl.Orderly) (ht : t.Formed)
    (hs : tbl.Resolves t target (some s)) :
    tbl.Reaches t s ∧ Ty.Uses target s := by
  obtain ⟨r, hr, hreaches, -⟩ := h.exists_resolves (p := tbl.Reaches t)
    (fun _ hx hts y hy => hx.tail (hts.supertype hy)) ht .refl target
  cases hs.eq hr
  exact (hreaches s rfl).2

/-! ### Parts of supertypes -/

theorem every_assignment {q} (ht : t.Every q) :
    ∀ v x, tbl.assignment t v = some x → x.Every q :=
  of_assignment (fun _ _ _ _ h => ⟨fun _ => h.arg, fun _ => h.owner⟩) ht

/-- A property that new layers have passes from a use of a class to its supertypes. -/
theorem Obeys.every_of_supers (h : tbl.Obeys S) {q} (hq : ∀ x : Ty, x.Fresh → q x)
    (hmaps : tbl.Maps S t) (ht : t.Every q) (hts : tbl.DirectSupers t ts) :
    ∀ s ∈ ts, s.Every q := by
  obtain ⟨c, args, owner, marks, rfl, -, hsupers⟩ := hts
  intro s hs
  rcases h.bare_or_replaced hsupers hs with ⟨d, ms, rfl⟩ | ⟨ps, m, hps, -, hm, hts⟩
  · exact .leaf (hq _ ⟨rfl, fun _ _ _ _ _ h => nomatch h⟩) rfl
  · obtain ⟨p, -, hreplaces⟩ :=
      exists_of_forall₂_right (h.forall₂_replaces (hmaps.remark []) hps hm hts) hs
    refine hreplaces.every q hq fun v x hx => ?_
    rw [lookup_typeMapping hm, assignment_remark c args owner [] marks] at hx
    exact every_assignment ht v x hx

/-! ### Going up and bare forms -/

theorem assignment_of_bare_eq (h : s.bare = t.bare) (v : TypeVarId) :
    (tbl.assignment s v).map Ty.bare = (tbl.assignment t v).map Ty.bare := by
  induction s using Ty.children_induction generalizing t with
  | step s ih =>
    cases s with
    | declared c args owner marks =>
      obtain ⟨args', owner', _, rfl, hargs, howner⟩ := Ty.eq_declared_of_bare_eq h.symm
      have hown : (if v ∈ tbl.typeVars (.cls c) then args[v.index]? else none).map Ty.bare =
          (if v ∈ tbl.typeVars (.cls c) then args'[v.index]? else none).map Ty.bare := by
        split_ifs
        · rw [← getElem?_map, ← getElem?_map, hargs]
        · rfl
      cases owner with
      | none =>
        cases Option.map_eq_none_iff.mp howner
        exact hown
      | some o =>
        obtain ⟨o', rfl, ho⟩ := Option.map_eq_some_iff.mp howner
        rw [assignment, assignment, Option.map_or, Option.map_or, hown,
          ih o (mem_append_right _ mem_cons_self) ho.symm]
    | _ => cases t <;> first | rfl | cases h

theorem bare_image {τ v} (h : (σ v).map Ty.bare = (τ v).map Ty.bare) :
    (Ty.image σ v).bare = (Ty.image τ v).bare := by
  rw [Ty.image, Ty.image, Ty.subst, Ty.subst, ← Option.getD_map Ty.bare, ← Option.getD_map Ty.bare,
    h]

theorem isRaw_of_length_eq (h : args.length = args'.length) :
    tbl.isRaw c args = tbl.isRaw c args' := by
  cases args <;> cases args' <;> first | rfl | cases h

/-- Types with the same bare form have supertypes with the same bare forms. -/
theorem Obeys.passes_bare (h : tbl.Obeys S) :
    tbl.Passes fun s t => s.bare = t.bare ∧ tbl.Invokes S s := by
  refine ⟨fun {s t} hst => ?_, fun {s t} hst => ?_, fun {s t ss ts} hst hss hts => ?_⟩
  · exact ⟨hst.2.formed, (hst.2.of_bare_eq hst.1).formed⟩
  · obtain ⟨hbare, hs⟩ := hst
    obtain ⟨c, args, owner, marks, rfl⟩ := Ty.exists_eq_declared hs.1
    obtain ⟨_, _, _, rfl, -⟩ := Ty.eq_declared_of_bare_eq hbare.symm
    exact ⟨c, ⟨_, _, _, rfl⟩, _, _, _, rfl⟩
  · obtain ⟨hbare, hs⟩ := hst
    obtain ⟨c, args, owner, marks, rfl, -, hss⟩ := hss
    obtain ⟨c', args', owner', marks', rfl, -, hts⟩ := hts
    obtain ⟨_, _, _, heq, hargs, howner⟩ := Ty.eq_declared_of_bare_eq hbare.symm
    cases heq
    have hmaps := hs.maps.remark []
    have hmaps' := (hs.of_bare_eq hbare).maps.remark []
    have hinvokes := h.invokes_of_supers hmaps hss
    have hpairs : Forall₂ (fun x y => x.bare = y.bare) ss ts := by
      refine h.forall₂_supers hmaps hmaps' hss hts (isRaw_of_length_eq ?_) rfl
        (fun _ _ _ _ => rfl) ?_
      · simpa using (congrArg List.length hargs).symm
      · intro ps _ _ p _ x y hx hy
        rw [hx, hy, assignment_remark c args owner [] marks,
          assignment_remark c args' owner' [] marks']
        exact Ty.bare_subst_congr (.of_forall
          (fun _ _ v _ _ => bare_image (assignment_of_bare_eq hbare v)) p)
    exact forall₂_imp_mem hpairs fun x hx y _ hxy => ⟨hxy, hinvokes x hx⟩

/-- Going up from types with the same bare form leads to types with the same bare form. -/
theorem Obeys.resolves_of_bare_eq (h : tbl.Obeys S) (hst : s.bare = t.bare) (hs : tbl.Invokes S s)
    (hx : tbl.Resolves s target (some x)) :
    ∃ y, tbl.Resolves t target (some y) ∧ x.bare = y.bare := by
  obtain ⟨r, r', hleft, hright, hrel, -⟩ := h.exists_ascends h.passes_bare ⟨hst, hs⟩ target
  cases hx.eq hleft
  cases hrel with
  | some hxy => exact ⟨_, hright, hxy.1.1⟩

/-! ### Instances of inherited types -/

theorem assignment_subst (ht : tbl.Invokes S t) (v : TypeVarId) :
    tbl.assignment (t.subst σ) v = (tbl.assignment t v).map (Ty.subst σ) := by
  induction t using Ty.children_induction with
  | step t ih =>
    obtain ⟨c, args, owner, marks, rfl⟩ := Ty.exists_eq_declared ht.1
    have hown : (if v ∈ tbl.typeVars (.cls c) then (args.map (Ty.subst σ))[v.index]? else none) =
        (if v ∈ tbl.typeVars (.cls c) then args[v.index]? else none).map (Ty.subst σ) := by
      split_ifs
      · exact getElem?_map
      · rfl
    rw [Ty.subst, Ty.substAll_eq_map, Ty.substOwner_eq_map]
    cases owner with
    | none => exact hown
    | some o =>
      rw [Option.map_some, assignment, assignment, hown, Option.map_or,
        ih o (mem_append_right _ mem_cons_self) (ht.invokes_owner rfl)]

/-- The supertypes of an instance are instances of the supertypes, where each type parameter that a
supertype expression mentions has an argument. -/
theorem Obeys.forall₂_subst (h : tbl.Obeys S) {ss} (hmaps : tbl.Maps S (.declared c args owner []))
    (hss : tbl.Supers c args owner ss) (hmaps' : tbl.Maps S (.declared c args' owner' []))
    (hts : tbl.Supers c args' owner' ts) (hraw : tbl.isRaw c args = tbl.isRaw c args')
    (hscoped : tbl.isRaw c args = false → ∀ ps, tbl.descriptors (tbl.supertypeExprs c) = .ok ps →
      ∀ p ∈ ps, p.Every (Ty.Over fun v => (tbl.assignment (.declared c args owner []) v).isSome))
    (himage : ∀ v x, tbl.assignment (.declared c args owner []) v = some x →
      (Ty.image (tbl.assignment (.declared c args' owner' [])) v).bare = (x.subst σ).bare) :
    Forall₂ (fun s t => t.bare = (s.subst σ).bare) ss ts := by
  refine h.forall₂_supers hmaps hmaps' hss hts hraw rfl (fun hps _ p hp => ?_)
    fun hps hargs p hp s t hs ht => ?_
  · obtain ⟨d, ds, o, marks, rfl⟩ := Ty.exists_eq_declared (h.invokes_pattern hps p hp).1
    rfl
  · have hvars := hscoped hargs _ hps p hp
    rw [ht, Ty.bare_subst_of_bare_eq hs, Ty.subst_subst hvars]
    refine Ty.bare_subst_congr (hvars.mono fun x hx n v marks hv => ?_)
    obtain ⟨y, hy⟩ := Option.isSome_iff_exists.mp (hx n v marks hv)
    rw [himage v y hy, Ty.image, Ty.subst, hy]
    rfl

/-! ### A class applied to its own type parameters -/

theorem selfType_eq (c : ClassId) : ∃ owner, tbl.selfType c =
    .declared c ((tbl.typeVars (.cls c)).map fun v => .var 0 v []) owner [] := by
  rw [selfType]
  cases tbl.enclosers c with
  | nil => exact ⟨_, rfl⟩
  | cons e es => exact ⟨_, rfl⟩

theorem assignment_selfTypeIn {es v} (h : tbl.assignment (tbl.selfTypeIn c es) v = some x) :
    x = .var 0 v [] := by
  have hown {c : ClassId} (h : (if v ∈ tbl.typeVars (.cls c) then
      ((tbl.typeVars (.cls c)).map fun v => Ty.var 0 v [])[v.index]? else none) = some x) :
      x = .var 0 v [] := by
    split_ifs at h with hv
    rw [getElem?_map, Option.map_eq_some_iff] at h
    obtain ⟨u, hu, heq⟩ := h
    cases heq
    rw [typeVars, getElem?_map, Option.map_eq_some_iff] at hu
    obtain ⟨i, hi, rfl⟩ := hu
    obtain ⟨owner, index⟩ := v
    cases (mem_typeVars.mp hv).1
    rw [getElem?_range (mem_typeVars.mp hv).2] at hi
    cases hi
    rfl
  induction es generalizing c with
  | nil => exact hown h
  | cons e es ih =>
    rw [selfTypeIn] at h
    split_ifs at h
    · exact hown h
    · rw [assignment, Option.or_eq_some_iff] at h
      rcases h with h | ⟨-, h⟩
      · exact hown h
      · exact ih h

theorem maps_selfTypeIn (S : Shape) (c : ClassId) (es : List ClassId) :
    tbl.Maps S (tbl.selfTypeIn c es) := by
  have hself := tbl.selfTypeIn_denoted c es
  refine ⟨formed_of_denoted hself.1 hself.2, fun v x hx => ?_⟩
  rw [assignment_selfTypeIn hx]
  exact ⟨rfl, .leaf trivial rfl⟩

theorem isRaw_typeVars (c : ClassId) :
    tbl.isRaw c ((tbl.typeVars (.cls c)).map fun v => .var 0 v []) = false := by
  rw [isRaw, typeVars, typeParametersOf]
  cases (tbl.cls c).typeParameters with
  | nil => rfl
  | cons d ds => simp

/-- One step up from an instance leads to an instance of what one step up leads to. -/
theorem Obeys.exists_instance_of_supertype (h : tbl.Obeys S) {marks'}
    (hmaps : tbl.Maps S (.declared c args owner marks))
    (hmaps' : tbl.Maps S (.declared c args' owner' marks'))
    (hraw : tbl.isRaw c args = tbl.isRaw c args')
    (hscoped : tbl.isRaw c args = false → ∀ ps, tbl.descriptors (tbl.supertypeExprs c) = .ok ps →
      ∀ p ∈ ps, p.Every (Ty.Over fun v => (tbl.assignment (.declared c args owner marks) v).isSome))
    (himage : ∀ v x, tbl.assignment (.declared c args owner marks) v = some x →
      (Ty.image (tbl.assignment (.declared c args' owner' marks')) v).bare = (x.subst σ).bare)
    (ht : tbl.Supertype (.declared c args' owner' marks') t) :
    ∃ s, tbl.Supertype (.declared c args owner marks) s ∧ tbl.Invokes S s ∧
      t.bare = (s.subst σ).bare := by
  obtain ⟨ts, ⟨_, _, _, _, heq, -, hts⟩, ht⟩ := h.exists_of_supertype hmaps'.1 ht
  cases heq
  obtain ⟨ss, hsettles, hss⟩ := h.exists_supers (hmaps.remark []).1
  rw [assignment_remark c args owner marks []] at hscoped himage
  rw [assignment_remark c args' owner' marks' []] at himage
  obtain ⟨s, hs, hst⟩ := exists_of_forall₂_right
    (h.forall₂_subst (hmaps.remark []) hss (hmaps'.remark []) hts hraw hscoped himage) ht
  refine ⟨s, DirectSupers.supertype ⟨c, args, owner, marks, rfl, hsettles, hss⟩ hs, ?_, hst⟩
  exact h.invokes_of_supers (hmaps.remark []) hss s hs

/-- Whatever a use of a class inherits, apart from itself, is an instance of what its class
inherits. The induction is along the way up. -/
theorem Obeys.exists_instance (h : tbl.Obeys S) (hscoped : tbl.Scoped)
    (ht : tbl.Invokes S (.declared c args owner marks)) (hraw : tbl.isRaw c args = false)
    (hs : tbl.Supertype (.declared c args owner marks) s) (hx : tbl.Reaches s x) :
    ∃ y, tbl.Reaches (tbl.selfType c) y ∧ tbl.Invokes S y ∧
      x.bare = (y.subst (tbl.assignment (.declared c args owner marks))).bare := by
  induction hx with
  | refl =>
    have hmaps : tbl.Maps S (tbl.selfType c) := maps_selfTypeIn S c _
    have himage (v : TypeVarId) (x : Ty) (hx : tbl.assignment (tbl.selfType c) v = some x) :
        (Ty.image (tbl.assignment (.declared c args owner marks)) v).bare =
          (x.subst (tbl.assignment (.declared c args owner marks))).bare := by
      rw [assignment_selfTypeIn hx]
      rfl
    have hself := hscoped c
    obtain ⟨o, heq⟩ := tbl.selfType_eq c
    rw [heq] at hmaps himage hself ⊢
    obtain ⟨y, hy, hinvokes, hbare⟩ := h.exists_instance_of_supertype hmaps ht.maps
      ((isRaw_typeVars c).trans hraw.symm) (hself c _ _ _ .refl) himage hs
    exact ⟨y, .single hy, hinvokes, hbare⟩
  | @tail x z hx hz ih =>
    obtain ⟨y, hy, hinvokes, hbare⟩ := ih
    have hxinvokes := h.invokes_of_reaches (h.invokes_of_supertype ht.maps hs) hx
    have himage (v : TypeVarId) (a : Ty) (ha : tbl.assignment y v = some a) :
        (Ty.image (tbl.assignment x) v).bare =
          (a.subst (tbl.assignment (.declared c args owner marks))).bare := by
      have hv := @assignment_of_bare_eq _ _ tbl hbare v
      rw [assignment_subst hinvokes, ha, Option.map_some, Option.map_some,
        Option.map_eq_some_iff] at hv
      obtain ⟨b, hb, hba⟩ := hv
      rw [Ty.image, Ty.subst, hb]
      exact hba
    obtain ⟨d, ds, o, ms, rfl⟩ := Ty.exists_eq_declared hinvokes.1
    obtain ⟨ds', o', ms', rfl, hds, -⟩ := Ty.eq_declared_of_bare_eq hbare
    have hraw : tbl.isRaw d ds = tbl.isRaw d ds' := by
      refine isRaw_of_length_eq ?_
      simpa using (congrArg List.length hds).symm
    obtain ⟨w, hw, hwinvokes, hbare⟩ := h.exists_instance_of_supertype hinvokes.maps hxinvokes.maps
      hraw (hscoped c d ds o ms hy) himage hz
    exact ⟨w, hy.tail hw, hwinvokes, hbare⟩

theorem Obeys.every_fresh_of_reaches (h : tbl.Obeys S)
    (ht : tbl.Reaches (tbl.selfType c) t) : t.Every Ty.Fresh ∧ tbl.Maps S t := by
  induction ht with
  | refl =>
    exact ⟨(selfTypeIn_denoted c _).1.mono fun x hx => hx.fresh, maps_selfTypeIn S c _⟩
  | tail _ hstep ih =>
    obtain ⟨hfresh, hmaps⟩ := ih
    obtain ⟨ts, hts, hs⟩ := h.exists_of_supertype hmaps.1 hstep
    exact ⟨h.every_of_supers (fun _ => id) hmaps hfresh hts _ hs,
      (h.invokes_of_supertype hmaps hstep).maps⟩

/-- A use of a class that is not raw inherits one parameterization of each class. -/
theorem Obeys.bare_eq_of_reaches (h : tbl.Obeys S) (hscoped : tbl.Scoped) (hcoherent : tbl.Coherent)
    (ht : tbl.Invokes S (.declared c args owner marks)) (hraw : tbl.isRaw c args = false) {y}
    (hx : tbl.Reaches (.declared c args owner marks) x)
    (hy : tbl.Reaches (.declared c args owner marks) y) (hdx : Ty.Uses d x) (hdy : Ty.Uses d y) :
    x.bare = y.bare := by
  rcases Relation.ReflTransGen.cases_head hx with rfl | ⟨s, hs, hsx⟩
  · cases hdx.unique ⟨_, _, _, rfl⟩
    rcases Relation.ReflTransGen.cases_head hy with rfl | ⟨s, hs, hsy⟩
    · rfl
    · exact absurd hdy (h.not_uses_of_supertype ht.formed hs hsy hdx)
  · rcases Relation.ReflTransGen.cases_head hy with rfl | ⟨t, ht', hty⟩
    · cases hdy.unique ⟨_, _, _, rfl⟩
      exact absurd hdx (h.not_uses_of_supertype ht.formed hs hsx hdy)
    · obtain ⟨x', hx', hxinvokes, hxbare⟩ := h.exists_instance hscoped ht hraw hs hsx
      obtain ⟨y', hy', hyinvokes, hybare⟩ := h.exists_instance hscoped ht hraw ht' hty
      have huses {u w : Ty} {σ : TypeVarId → Option Ty} (hu : Ty.Uses d u)
          (hw : tbl.Invokes S w) (hbare : u.bare = (w.subst σ).bare) : Ty.Uses d w := by
        obtain ⟨e, _, _, _, rfl⟩ := Ty.exists_eq_declared hw.1
        obtain ⟨_, _, _, rfl, -⟩ := Ty.eq_declared_of_bare_eq hbare
        cases hu.unique ⟨_, _, _, rfl⟩
        exact ⟨_, _, _, rfl⟩
      have htokened {w : Ty} (hw : tbl.Reaches (tbl.selfType c) w) :
          w.Every (Ty.Tokened fun _ => .null) :=
        (h.every_fresh_of_reaches hw).1.mono fun u hu token site upper lower ms hcaptured =>
          absurd hcaptured (hu.2 token site upper lower ms)
      have hsame := hcoherent c d x' y' hx' hy' (huses hdx hxinvokes hxbare)
        (huses hdy hyinvokes hybare)
      have hbare := Ty.bare_eq_of_same hsame (htokened hx') (htokened hy')
      exact hxbare.trans ((Ty.bare_subst_of_bare_eq hbare).trans hybare.symm)

/-! ### Coherent and well scoped tables -/

/-- Under single inheritance no class is inherited twice. -/
theorem Orderly.coherent_of_length_le_one (h : tbl.Orderly)
    (hsingle : ∀ c, (tbl.supertypeExprs c).length ≤ 1) : tbl.Coherent := by
  have hunique : Relator.RightUnique fun t s => t.Formed ∧ tbl.Supertype t s := by
    rintro t s s' ⟨hformed, hs⟩ ⟨-, hs'⟩
    obtain ⟨ts, hts, hs⟩ := h.exists_of_supertype hformed hs
    obtain ⟨ts', hts', hs'⟩ := h.exists_of_supertype hformed hs'
    cases hts.unique hts'
    obtain ⟨c, args, owner, marks, rfl, -, hsupers⟩ := hts
    have hlength : ts.length ≤ 1 := by
      have hpatterns {ps : List Ty} (hps : tbl.descriptors (tbl.supertypeExprs c) = .ok ps) :
          ps.length ≤ 1 := by
        rw [descriptors_eq_mapM] at hps
        rw [(mapM_eq_ok.mp hps).length_eq.symm]
        exact hsingle c
      cases hsupers with
      | root => exact Nat.zero_le 1
      | top => exact Nat.le_refl 1
      | erased _ hps =>
        rw [length_map]
        exact hpatterns hps
      | replaced _ hps _ _ hts =>
        rw [(mapM_eq_ok.mp hts).length_eq.symm]
        exact hpatterns hps
    match ts, hlength with
    | [_], _ => rw [mem_singleton.mp hs, mem_singleton.mp hs']
  have hpath {c : ClassId} {s : Ty} (hs : tbl.Reaches (tbl.selfType c) s) :
      Relation.ReflTransGen (fun t s => t.Formed ∧ tbl.Supertype t s) (tbl.selfType c) s := by
    have hself := tbl.selfTypeIn_denoted c (tbl.enclosers c)
    induction hs with
    | refl => exact .refl
    | tail hs hstep ih =>
      exact ih.tail ⟨h.formed_of_reaches (formed_of_denoted hself.1 hself.2) hs, hstep⟩
  have hsame {s t : Ty} {d : ClassId} (hst : Relation.ReflTransGen
      (fun t s => t.Formed ∧ tbl.Supertype t s) s t) (hs : Ty.Uses d s) (ht : Ty.Uses d t) :
      s = t := by
    rcases Relation.ReflTransGen.cases_head hst with heq | ⟨x, ⟨hformed, hx⟩, hxt⟩
    · exact heq
    · have hreaches : tbl.Reaches x t := hxt.lift id fun _ _ hstep => hstep.2
      exact absurd ht (h.not_uses_of_supertype hformed hx hreaches hs)
  intro c d s t hs ht hds hdt
  refine Ty.same_of_bare_eq (congrArg Ty.bare ?_)
  rcases (hpath hs).total_of_right_unique hunique (hpath ht) with hst | hts
  · exact hsame hst hds hdt
  · exact (hsame hts hdt hds).symm

/-- If supertype expressions mention only type parameters of their own class, then these have
arguments on the way up. -/
theorem Obeys.scoped_of_own (h : tbl.Obeys S)
    (hown : ∀ c ps, tbl.descriptors (tbl.supertypeExprs c) = .ok ps →
      ∀ p ∈ ps, p.Every (Ty.Over (· ∈ tbl.typeVars (.cls c)))) : tbl.Scoped := by
  intro c d args owner marks hreaches hraw ps hps p hp
  have hcount : args.length = (tbl.cls d).typeParameters.length := by
    rcases Relation.ReflTransGen.cases_tail hreaches with heq | ⟨t, ht, hstep⟩
    · obtain ⟨o, hself⟩ := tbl.selfType_eq c
      rw [hself] at heq
      cases heq
      rw [length_map, typeVars, length_map, length_range, typeParametersOf]
    · have hinvokes := h.invokes_of_supertype (h.every_fresh_of_reaches ht).2 hstep
      rcases hinvokes.2.1.1 with hcount | ⟨rfl, -⟩
      · exact hcount
      · rw [isRaw, isEmpty_nil, Bool.true_and, Bool.not_eq_false', List.isEmpty_iff] at hraw
        rw [hraw, length_nil, length_nil]
  refine (hown d ps hps p hp).mono fun x hx n v ms hv => ?_
  have hmem := hx n v ms hv
  have hlt : v.index < args.length := hcount ▸ (mem_typeVars.mp hmem).2
  cases owner <;> simp only [assignment, if_pos hmem, getElem?_eq_getElem hlt, Option.some_or,
    Option.isSome_some]

end Table

end NominalTypes
