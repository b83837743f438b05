import NominalTypes.Proofs.Subtyping

/-!
# Containment and supertypes

If the arguments of a type are contained in those of another use of the same class, then the same
holds of their supertypes, provided that supertype expressions hand type arguments on in simple
ways. A wildcard inside the argument of an argument is not contained in anything but itself, so a
type parameter that may stand for a wildcard must not occur there: it may be handed on as a whole
argument, or as a bound of a wildcard. The set `V` of these type parameters is a parameter of the
development (`Table.Conveys`), and wildcards are arguments for them only (`Ty.Placed`).
-/

namespace NominalTypes

open List

namespace Ty

/-- Wildcards are arguments only for type parameters in `V`. -/
def Placed (V : TypeVarId → Prop) : Ty → Prop
  | declared c args _ _ => ∀ i a, args[i]? = some a → a.isWildcard = true → V ⟨.cls c, i⟩
  | _ => True

/-- The type is a variable, or mentions no type parameter in `V`. -/
def Simple (V : TypeVarId → Prop) (t : Ty) : Prop :=
  (∃ n v marks, t = var n v marks) ∨ t.Every (Over fun v => ¬V v)

/-- As the argument for the type parameter `w`, the type hands type parameters in `V` on as a whole,
or as bounds of a wildcard. -/
def HandsOn (V : TypeVarId → Prop) (w : TypeVarId) : Ty → Prop
  | wildcard _ upper lower _ => upper.Simple V ∧ lower.Simple V
  | a => a.Simple V ∧ ∀ n v marks, a = var n v marks → V v → V w

end Ty

namespace Table

variable (tbl : Table)

/-- Supertype expressions hand type parameters in `V` on as whole arguments or as bounds of
wildcards, and have wildcards in the right places, as have the bounds of type variables. -/
structure Conveys (V : TypeVarId → Prop) : Prop where
  placed : ∀ c ps, tbl.descriptors (tbl.supertypeExprs c) = .ok ps → ∀ p ∈ ps, p.Every (Ty.Placed V)
  handsOn : ∀ c ps, tbl.descriptors (tbl.supertypeExprs c) = .ok ps →
    ∀ d args owner marks, .declared d args owner marks ∈ ps →
    ∀ i a, args[i]? = some a → Ty.HandsOn V ⟨.cls d, i⟩ a
  bounds : ∀ v ts, tbl.boundsOf v = .ok ts → ∀ t ∈ ts, t.Every (Ty.Placed V)

variable {tbl} {S : Shape} {V : TypeVarId → Prop} {s t : Ty}

/-! ### Wildcards in the right places -/

theorem placed_of_bare_eq (h : s.bare = t.bare) (hs : s.Placed V) : t.Placed V := by
  cases t with
  | declared c args owner marks =>
    obtain ⟨args', _, _, rfl, hargs, -⟩ := Ty.eq_declared_of_bare_eq h
    intro i a ha hwildcard
    have hmap : (args'.map Ty.bare)[i]? = some a.bare := by
      rw [hargs, getElem?_map, ha]
      rfl
    rw [getElem?_map, Option.map_eq_some_iff] at hmap
    obtain ⟨b, hb, hba⟩ := hmap
    refine hs i b hb ?_
    rw [← Ty.isWildcard_bare, hba, Ty.isWildcard_bare]
    exact hwildcard
  | _ => trivial

section Subst

variable {σ : TypeVarId → Option Ty} (hσ : ∀ v x, σ v = some x → x.Every (Ty.Placed V))
  (hV : ∀ v x, σ v = some x → x.isWildcard = true → V v)

include hV in
/-- Only a wildcard, or a type parameter in `V`, becomes a wildcard. -/
theorem isWildcard_subst (h : (t.subst σ).isWildcard = true) :
    t.isWildcard = true ∨ ∃ n v marks, t = .var n v marks ∧ V v := by
  cases t with
  | var n v marks =>
    rw [Ty.subst] at h
    cases hv : σ v with
    | none =>
      rw [hv] at h
      cases h
    | some x =>
      rw [hv] at h
      exact .inr ⟨n, v, marks, rfl, hV v x hv h⟩
  | wildcard => exact .inl rfl
  | _ => cases h

include hσ hV in
/-- Replacing variables, of which none in `V` occurs. -/
theorem every_placed_subst (ht : t.Every (Ty.Placed V))
    (hvars : t.Every (Ty.Over fun v => ¬V v)) : (t.subst σ).Every (Ty.Placed V) := by
  induction ht with
  | @intro t top parts ih =>
    have hlayer (hlayered : t.isLayered = true) (htop : Ty.Placed V (t.subst σ)) :
        (t.subst σ).Every (Ty.Placed V) := by
      rw [Ty.subst_of_isLayered hlayered] at htop ⊢
      exact .rebuild htop (fun x hx => ih x hx (hvars.part hx)) parts
    cases t with
    | var n v marks =>
      rw [Ty.subst]
      cases hv : σ v with
      | none => exact .leaf top rfl
      | some x => exact hσ v x hv
    | declared c args owner marks =>
      refine hlayer rfl ?_
      simp only [Ty.subst, Ty.substAll_eq_map, Ty.substOwner_eq_map]
      intro i a ha hwildcard
      rw [getElem?_map, Option.map_eq_some_iff] at ha
      obtain ⟨b, hb, rfl⟩ := ha
      rcases isWildcard_subst hV hwildcard with hwildcard | ⟨n, v, ms, rfl, hv⟩
      · exact top i b hb hwildcard
      · exact absurd hv ((hvars.arg (mem_of_getElem? hb)).top n v ms rfl)
    | array | wildcard | intersection => exact hlayer rfl trivial
    | _ => exact .intro top parts

include hσ hV in
theorem every_placed_subst_simple (ht : t.Every (Ty.Placed V)) (hsimple : t.Simple V) :
    (t.subst σ).Every (Ty.Placed V) := by
  rcases hsimple with ⟨n, v, marks, rfl⟩ | hvars
  · rw [Ty.subst]
    cases hv : σ v with
    | none => exact ht
    | some x => exact hσ v x hv
  · exact every_placed_subst hσ hV ht hvars

include hσ hV in
/-- An argument that is handed on properly has wildcards in the right places, and is a wildcard only
in one. -/
theorem every_placed_subst_handsOn {w} (ht : t.Every (Ty.Placed V)) (hhands : t.HandsOn V w) :
    (t.subst σ).Every (Ty.Placed V) := by
  cases t with
  | wildcard n upper lower marks =>
    exact .wildcard trivial (every_placed_subst_simple hσ hV ht.upper hhands.1).orUpper
      (every_placed_subst_simple hσ hV ht.lower hhands.2).orLower
  | _ => exact every_placed_subst_simple hσ hV ht hhands.1

end Subst

theorem Conveys.every_upperBound (h : tbl.Conveys V) {v u} (hu : tbl.upperBound v = .ok u) :
    u.Every (Ty.Placed V) := by
  obtain ⟨ts, hts, hu⟩ := bind_eq_ok.mp hu
  split at hu
  · cases hu
    exact h.bounds v _ hts _ mem_cons_self
  · obtain ⟨rfl, -⟩ := makeIntersection_eq_ok hu
    exact .intro trivial (h.bounds v ts hts)

section NoOwners

variable (howners : S.owners = false)

include howners in
theorem Invokes.owner_eq_none {c args owner marks}
    (h : tbl.Invokes S (.declared c args owner marks)) : owner = none := by
  cases owner with
  | none => rfl
  | some o => exact absurd (howners.symm.trans (h.2.1.2.2 o rfl).1) Bool.false_ne_true

theorem assignment_placed {c args marks} (hplaced : (Ty.declared c args none marks).Placed V) {v x}
    (hx : tbl.assignment (.declared c args none marks) v = some x)
    (hwildcard : x.isWildcard = true) : V v := by
  rw [assignment] at hx
  split_ifs at hx with hv
  have := hplaced v.index x hx hwildcard
  rwa [← (mem_typeVars.mp hv).1] at this

include howners in
/-- Supertypes have wildcards in the right places again. -/
theorem Obeys.placed_of_supers (h : tbl.Obeys S) (hconveys : tbl.Conveys V) {ts}
    (ht : tbl.Invokes S t) (hplaced : t.Every (Ty.Placed V)) (hts : tbl.DirectSupers t ts) :
    ∀ s ∈ ts, s.Every (Ty.Placed V) := by
  obtain ⟨c, args, owner, marks, rfl, -, hsupers⟩ := hts
  cases ht.owner_eq_none howners
  intro s hs
  rcases h.bare_or_replaced hsupers hs with ⟨d, ms, rfl⟩ | ⟨ps, m, hps, -, hm, hts⟩
  · exact .leaf (fun i a ha => by cases ha) rfl
  · obtain ⟨p, hp, hreplaces⟩ :=
      exists_of_forall₂_right (h.forall₂_replaces (ht.maps.remark []) hps hm hts) hs
    obtain ⟨d, ds, o, ms, rfl⟩ := Ty.exists_eq_declared (h.invokes_pattern hps p hp).1
    cases (h.invokes_pattern hps _ hp).owner_eq_none howners
    have hσ (v : TypeVarId) (x : Ty) (hx : m.lookup v = some x) : x.Every (Ty.Placed V) :=
      every_assignment hplaced v x (lookup_typeMapping hm v ▸ hx)
    have hV (v : TypeVarId) (x : Ty) (hx : m.lookup v = some x) : x.isWildcard = true → V v :=
      assignment_placed hplaced.top (lookup_typeMapping hm v ▸ hx)
    have hpattern := hconveys.placed c ps hps _ hp
    refine Ty.Every.of_bare_eq (fun _ _ => placed_of_bare_eq) hreplaces.bare_eq.symm ?_
    simp only [Ty.subst, Ty.substAll_eq_map, Ty.substOwner_eq_map]
    refine .declared (fun i a ha hwildcard => ?_) (fun a ha => ?_) fun o ho => by cases ho
    · rw [getElem?_map, Option.map_eq_some_iff] at ha
      obtain ⟨b, hb, rfl⟩ := ha
      rcases isWildcard_subst hV hwildcard with hwildcard | ⟨n, v, ms, rfl, hv⟩
      · exact hpattern.top i b hb hwildcard
      · exact (hconveys.handsOn c ps hps d ds none _ hp i _ hb).2 n v ms rfl hv
    · obtain ⟨b, hb, rfl⟩ := mem_map.mp ha
      obtain ⟨i, hi⟩ := mem_iff_getElem?.mp hb
      exact every_placed_subst_handsOn hσ hV (hpattern.arg hb)
        (hconveys.handsOn c ps hps d ds none _ hp i b hi)

end NoOwners

/-! ### Containment of arguments passes to supertypes -/

section Containment

variable {n : Nat}

theorem Contained.of_eq {a b} (h : a.bare = b.bare) : Contained (tbl.SubN n) a b := by
  by_cases hb : b.isWildcard = true
  · obtain ⟨_, upper, lower, _, rfl⟩ := Ty.exists_eq_wildcard hb
    obtain ⟨_, upper', lower', _, rfl, hupper, hlower⟩ := Ty.eq_wildcard_of_bare_eq h
    exact .between (.refl hupper) (.refl hlower.symm)
  · exact .same ((Bool.not_eq_true _).mp hb) h

/-- The bounds of the containing argument lie around those of the contained one. -/
theorem Contained.bounds {a b} (h : Contained (tbl.SubN n) a b) :
    tbl.SubN n a.orUpper b.orUpper ∧ tbl.SubN n b.orLower a.orLower := by
  cases h with
  | same _ h =>
    refine ⟨.refl ?_, .refl ?_⟩
    · rw [Ty.bare_orUpper, h, Ty.bare_orUpper]
    · rw [Ty.bare_orLower, ← h, Ty.bare_orLower]
  | between hupper hlower => exact ⟨hupper, hlower⟩

variable {σ τ : TypeVarId → Option Ty}
  (hrel : ∀ v, Option.Rel (Contained (tbl.SubN n)) (σ v) (τ v))
  (hV : ∀ v x, τ v = some x → x.isWildcard = true → V v)

include hrel hV in
theorem bare_subst_eq (hvars : t.Every (Ty.Over fun v => ¬V v)) :
    (t.subst σ).bare = (t.subst τ).bare := by
  refine Ty.bare_subst_congr (hvars.mono fun x hx m v marks heq => ?_)
  have hv := hx m v marks heq
  refine bare_image ?_
  match hσ : σ v, hτ : τ v, hrel v with
  | none, none, .none => rfl
  | some x, some y, .some hcontained =>
    cases hcontained with
    | same _ h => exact congrArg some h
    | between => exact absurd (hV v _ hτ rfl) hv

include hrel hV in
theorem contained_subst_simple (hsimple : t.Simple V) :
    Contained (tbl.SubN n) (t.subst σ) (t.subst τ) := by
  rcases hsimple with ⟨m, v, marks, rfl⟩ | hvars
  · rw [Ty.subst, Ty.subst]
    have hv := hrel v
    generalize σ v = x, τ v = y at hv ⊢
    cases hv with
    | none => exact .of_eq rfl
    | some hcontained => exact hcontained
  · exact .of_eq (bare_subst_eq hrel hV hvars)

include hrel hV in
/-- An argument that is handed on properly is contained if what is put for variables is. -/
theorem contained_subst {w} (hhands : t.HandsOn V w) :
    Contained (tbl.SubN n) (t.subst σ) (t.subst τ) := by
  cases t with
  | wildcard m upper lower marks =>
    exact .between (contained_subst_simple hrel hV hhands.1).bounds.1
      (contained_subst_simple hrel hV hhands.2).bounds.2
  | _ => exact contained_subst_simple hrel hV hhands.1

end Containment

theorem Contained.of_admits {n a b a' b'} (h : Contained (tbl.SubN n) a b) (hobeys : tbl.Obeys S)
    (ha : tbl.Admits S a) (hb : tbl.Admits S b) (haa' : a.bare = a'.bare)
    (hbb' : b.bare = b'.bare) : Contained (tbl.SubN n) a' b' := by
  refine h.of_bare_eq haa' hbb' (fun hw hupper hsub => ?_) fun hw hlower hsub => ?_
  · subst hw
    exact hsub.of_bare_eq hobeys ha.orUpper hb.orUpper
      (by rw [Ty.bare_orUpper, haa', Ty.bare_orUpper]) hupper
  · subst hw
    exact hsub.of_bare_eq hobeys hb.orLower ha.orLower hlower
      (by rw [Ty.bare_orLower, haa', Ty.bare_orLower])

private theorem forall₂_of_bare_eq {C as bs as' bs'} (h : Forall₂ C as bs)
    (ha : as.map Ty.bare = as'.map Ty.bare) (hb : bs.map Ty.bare = bs'.map Ty.bare)
    (hC : ∀ a ∈ as, ∀ b ∈ bs, ∀ {a' b'}, C a b → a.bare = a'.bare → b.bare = b'.bare → C a' b') :
    Forall₂ C as' bs' := by
  induction h generalizing as' bs' with
  | nil =>
    cases map_eq_nil_iff.mp ha.symm
    cases map_eq_nil_iff.mp hb.symm
    exact .nil
  | @cons a b as bs hab _ ih =>
    obtain ⟨a', as', rfl, haa', has'⟩ := map_eq_cons_iff.mp ha.symm
    obtain ⟨b', bs', rfl, hbb', hbs'⟩ := map_eq_cons_iff.mp hb.symm
    refine .cons (hC a mem_cons_self b mem_cons_self hab haa'.symm hbb'.symm)
      (ih has'.symm hbs'.symm fun x hx y hy => ?_)
    exact hC x (mem_cons_of_mem _ hx) y (mem_cons_of_mem _ hy)

/-- Uses of one class, of which the arguments of the second contain those of the first. -/
structure Fits (tbl : Table) (S : Shape) (V : TypeVarId → Prop) (n : Nat) (s t : Ty) : Prop where
  invokes : tbl.Invokes S s ∧ tbl.Invokes S t
  placed : s.Every (Ty.Placed V) ∧ t.Every (Ty.Placed V)
  args : ∃ c args args' marks marks', s = .declared c args none marks ∧
    t = .declared c args' none marks' ∧ Forall₂ (Contained (tbl.SubN n)) args args'

/-- Containment of arguments passes to supertypes. -/
theorem Obeys.passes_fits (h : tbl.Obeys S) (howners : S.owners = false) (hconveys : tbl.Conveys V)
    (n : Nat) : tbl.Passes (tbl.Fits S V n) := by
  refine ⟨fun hst => ⟨hst.invokes.1.formed, hst.invokes.2.formed⟩, fun hst => ?_,
    fun {s t ss ts} hst hss hts => ?_⟩
  · obtain ⟨c, _, _, _, _, rfl, rfl, -⟩ := hst.args
    exact ⟨c, ⟨_, _, _, rfl⟩, _, _, _, rfl⟩
  · have hssplaced := h.placed_of_supers howners hconveys hst.invokes.1 hst.placed.1 hss
    have htsplaced := h.placed_of_supers howners hconveys hst.invokes.2 hst.placed.2 hts
    obtain ⟨⟨hs, ht⟩, ⟨hsplaced, htplaced⟩, c, args, args', marks, marks', rfl, rfl, hargs⟩ := hst
    obtain ⟨_, _, _, _, heq, -, hss⟩ := hss
    cases heq
    obtain ⟨_, _, _, _, heq, -, hts⟩ := hts
    cases heq
    have hssinvokes := h.invokes_of_supers (hs.maps.remark []) hss
    have htsinvokes := h.invokes_of_supers (ht.maps.remark []) hts
    have hpairs : Forall₂ (fun x y => ∃ d as bs ms ms', x = .declared d as none ms ∧
        y = .declared d bs none ms' ∧ Forall₂ (Contained (tbl.SubN n)) as bs) ss ts := by
      refine h.forall₂_supers (hs.maps.remark []) (ht.maps.remark []) hss hts
        (isRaw_of_length_eq hargs.length_eq) ⟨_, [], [], _, _, rfl, rfl, .nil⟩
        (fun hps _ p hp => ?_) fun {ps} hps _ p hp x y hx hy => ?_
      · obtain ⟨d, ds, o, ms, rfl⟩ := Ty.exists_eq_declared (h.invokes_pattern hps p hp).1
        exact ⟨d, [], [], ms, ms, rfl, rfl, .nil⟩
      · have hpattern := h.invokes_pattern hps p hp
        obtain ⟨d, ds, o, ms, rfl⟩ := Ty.exists_eq_declared hpattern.1
        cases hpattern.owner_eq_none howners
        have hrel (v : TypeVarId) : Option.Rel (Contained (tbl.SubN n))
            (tbl.assignment (.declared c args none []) v)
            (tbl.assignment (.declared c args' none []) v) := by
          rw [assignment, assignment]
          split_ifs
          · exact rel_getElem? hargs v.index
          · exact .none
        have hV (v : TypeVarId) (z : Ty)
            (hz : tbl.assignment (.declared c args' none []) v = some z) :
            z.isWildcard = true → V v :=
          assignment_placed htplaced.top hz
        have hall : Forall₂ (Contained (tbl.SubN n))
            (ds.map (Ty.subst (tbl.assignment (.declared c args none []))))
            (ds.map (Ty.subst (tbl.assignment (.declared c args' none [])))) := by
          refine forall₂_map_left_iff.mpr (forall₂_map_right_iff.mpr
            (forall₂_same.mpr fun a ha => ?_))
          obtain ⟨i, hi⟩ := mem_iff_getElem?.mp ha
          exact contained_subst hrel hV (hconveys.handsOn c ps hps d ds none _ hp i a hi)
        simp only [Ty.subst, Ty.substAll_eq_map, Ty.substOwner_eq_map] at hx hy
        obtain ⟨as, oa, ma, rfl, has, hoa⟩ := Ty.eq_declared_of_bare_eq hx
        obtain ⟨bs, ob, mb, rfl, hbs, hob⟩ := Ty.eq_declared_of_bare_eq hy
        cases Option.map_eq_none_iff.mp hoa
        cases Option.map_eq_none_iff.mp hob
        refine ⟨d, as, bs, ma, mb, rfl, rfl, forall₂_of_bare_eq hall has.symm hbs.symm ?_⟩
        intro a ha b hb a' b' hab haa' hbb'
        have hadmits {args : List Ty} (hinvokes : tbl.Invokes S (.declared c args none []))
            {a : Ty} (ha : a ∈ ds.map (Ty.subst (tbl.assignment (.declared c args none [])))) :
            tbl.Admits S a := by
          obtain ⟨z, hz, rfl⟩ := mem_map.mp ha
          have hz := hpattern.admits hz
          exact ⟨isArgument_subst hinvokes.maps.2 hz.1, every_layer_subst hinvokes.maps.2 hz.2⟩
        exact hab.of_admits h (hadmits hs ha) (hadmits ht hb) haa' hbb'
    exact forall₂_imp_mem hpairs fun x hx y hy hxy =>
      ⟨⟨hssinvokes x hx, htsinvokes y hy⟩, ⟨hssplaced x hx, htsplaced y hy⟩, hxy⟩

end Table

end NominalTypes
