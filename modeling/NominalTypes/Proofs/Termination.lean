import NominalTypes.Proofs.Criteria

/-!
# Where the subtype check ends

A lower bound of a wildcard turns the question round: whether `N<X>` is below `N<? super C>` is
asked of `C` and `X`, in this order. So the two types of a question change sides, and what the first
one inherits becomes the second. If the supertypes and the bounds of type variables that a table
declares have no lower bounds of wildcards, then going up makes none, and each turn uses one up:
lower bounds are nested in each other to some depth (`Ty.Nests`), and the depths of the two types
add up to a number that gets smaller. Between two turns the second type gets smaller, or the first
one is nearer to the top.

If a supertype has a lower bound of a wildcard, then a question may come back to itself.
-/

namespace NominalTypes

open List

/-- All types without unions. -/
def Shape.full : Shape where
  raw := true
  owners := true
  supers := true
  intersections := true
  captures := true
  capturedSupers := true

namespace Ty

/-- Lower bounds of wildcards are nested in lower bounds of wildcards at most `n` deep. -/
inductive Nests : Nat → Ty → Prop
  | plain {n k upper marks} (hupper : Nests n upper) : Nests n (wildcard k upper null marks)
  | lower {n k upper lower marks} (hupper : Nests (n + 1) upper) (hlower : Nests n lower) :
    Nests (n + 1) (wildcard k upper lower marks)
  | other {n t} (ht : t.isWildcard = false) (hparts : ∀ x ∈ t.children, Nests n x) : Nests n t

namespace Nests

variable {n m : Nat} {t : Ty}

theorem leaf (ht : t.isWildcard = false) (hchildren : t.children = []) : Nests n t :=
  .other ht fun _ hx => absurd (hchildren ▸ hx) not_mem_nil

theorem part (h : Nests n t) (ht : t.isWildcard = false) {x} (hx : x ∈ t.children) :
    Nests n x := by
  cases h with
  | plain => cases ht
  | lower => cases ht
  | other _ hparts => exact hparts x hx

theorem arg {c args o marks} (h : Nests n (declared c args o marks)) {a} (ha : a ∈ args) :
    Nests n a :=
  h.part rfl (mem_append_left _ ha)

theorem owner {c args o marks} (h : Nests n (declared c args o marks)) {x} (hx : x ∈ o) :
    Nests n x :=
  h.part rfl (mem_append_right _ (Option.mem_toList.mpr hx))

theorem mono (h : Nests n t) (hnm : n ≤ m) : Nests m t := by
  induction h generalizing m with
  | plain _ ih => exact .plain (ih hnm)
  | lower _ _ ihupper ihlower =>
    obtain ⟨m, rfl⟩ := Nat.exists_eq_add_of_le' (Nat.le_trans (Nat.le_add_left 1 _) hnm)
    exact .lower (ihupper hnm) (ihlower (Nat.le_of_succ_le_succ hnm))
  | other ht _ ih => exact .other ht fun x hx => ih x hx hnm

theorem orUpper (h : Nests n t) : Nests n t.orUpper := by
  cases h with
  | plain hupper => exact hupper
  | lower hupper _ => exact hupper
  | other ht hparts =>
    rw [orUpper_eq_self ht]
    exact .other ht hparts

theorem orLower (h : Nests n t) : Nests n t.orLower := by
  cases h with
  | plain _ => exact .leaf rfl rfl
  | lower _ hlower => exact hlower.mono (Nat.le_succ _)
  | other ht hparts =>
    rw [orLower_eq_self ht]
    exact .other ht hparts

theorem of_bare_eq {s} (h : Nests n s) (hbare : s.bare = t.bare) : Nests n t := by
  induction h generalizing t with
  | plain _ ih =>
    obtain ⟨_, _, _, _, rfl, hupper, hlower⟩ := eq_wildcard_of_bare_eq hbare.symm
    cases eq_null_of_bare_eq hlower
    exact .plain (ih hupper.symm)
  | lower _ _ ihupper ihlower =>
    obtain ⟨_, _, _, _, rfl, hupper, hlower⟩ := eq_wildcard_of_bare_eq hbare.symm
    exact .lower (ihupper hupper.symm) (ihlower hlower.symm)
  | @other _ s hs _ ih =>
    refine .other ((isWildcard_of_kind_eq (kind_eq_of_bare_eq hbare)).symm.trans hs) fun y hy => ?_
    have hchildren : s.children.map bare = t.children.map bare := by
      rw [← children_bare, ← children_bare, hbare]
    obtain ⟨x, hx, hxy⟩ := exists_mem_of_map_bare_eq hchildren hy
    exact ih x hx hxy

/-- Replacing type variables makes lower bounds deeper only where the new types have them. -/
theorem subst {σ} (h : Nests 0 t) (hσ : ∀ v x, σ v = some x → Nests n x) :
    Nests n (t.subst σ) := by
  induction t using children_induction with
  | step t ih =>
    cases t with
    | wildcard k upper lower marks =>
      cases h with
      | plain hupper => exact .plain (ih upper mem_cons_self hupper).orUpper
      | other ht _ => cases ht
    | var k v marks =>
      rw [Ty.subst]
      cases hv : σ v with
      | none => exact .leaf rfl rfl
      | some x => exact hσ v x hv
    | declared c args owner marks =>
      refine .other rfl fun y hy => ?_
      simp only [Ty.subst, substAll_eq_map, substOwner_eq_map, children, mem_append,
        mem_map, Option.mem_toList, Option.map_eq_some_iff] at hy
      obtain ⟨x, hx, rfl⟩ | ⟨x, hx, rfl⟩ := hy
      · exact ih x (mem_append_left _ hx) (h.arg hx)
      · exact ih x (mem_append_right _ (Option.mem_toList.mpr hx)) (h.owner hx)
    | array component marks =>
      refine .other rfl fun y hy => ?_
      rw [mem_singleton.mp hy]
      exact (ih component mem_cons_self (h.part rfl mem_cons_self)).orUpper
    | intersection k bounds =>
      refine .other rfl fun y hy => ?_
      simp only [Ty.subst, substAll_eq_map, children, map_map, mem_map] at hy
      obtain ⟨x, hx, rfl⟩ := hy
      exact (ih x hx (h.part rfl hx)).orUpper
    | _ => exact h.mono (Nat.zero_le n)

end Nests

theorem exists_nests (t : Ty) : ∃ n, Nests n t := by
  induction t using children_induction with
  | step t ih =>
    have hall (ts : List Ty) (hts : ∀ x ∈ ts, ∃ n, Nests n x) : ∃ n, ∀ x ∈ ts, Nests n x := by
      induction ts with
      | nil => exact ⟨0, fun _ hx => absurd hx not_mem_nil⟩
      | cons t ts ih =>
        obtain ⟨n, hn⟩ := hts t mem_cons_self
        obtain ⟨m, hm⟩ := ih fun x hx => hts x (mem_cons_of_mem _ hx)
        refine ⟨max n m, forall_mem_cons.mpr ⟨hn.mono (Nat.le_max_left _ _), fun x hx => ?_⟩⟩
        exact (hm x hx).mono (Nat.le_max_right _ _)
    obtain ⟨n, hn⟩ := hall t.children ih
    cases ht : t.isWildcard with
    | true =>
      obtain ⟨k, upper, lower, marks, rfl⟩ := exists_eq_wildcard ht
      have hupper : Nests n upper := hn upper mem_cons_self
      have hlower : Nests n lower := hn lower (mem_cons_of_mem _ mem_cons_self)
      exact ⟨n + 1, .lower (hupper.mono (Nat.le_succ n)) hlower⟩
    | false => exact ⟨n, .other ht hn⟩

end Ty

namespace Table

variable {tbl : Table} {S : Shape} {s t : Ty}

/-! ### Tables without lower bounds -/

theorem Layer.of_covariant (h : tbl.Layer S.covariant t) : tbl.Layer S t := by
  cases t with
  | wildcard n upper lower marks => exact ⟨h.1, h.2.1, .inr (h.2.2.resolve_left Bool.false_ne_true)⟩
  | _ => exact h

theorem Within.of_covariant (h : tbl.Within S.covariant t) : tbl.Within S t :=
  ⟨h.1, h.2.mono fun _ => Layer.of_covariant⟩

theorem Invokes.of_covariant (h : tbl.Invokes S.covariant t) : tbl.Invokes S t :=
  ⟨h.1, Layer.of_covariant (S := { S with raw := true }) h.2.1,
    fun x hx => (h.2.2 x hx).mono fun _ => Layer.of_covariant⟩

theorem Obeys.of_covariant (h : tbl.Obeys S.covariant) : tbl.Obeys S where
  toOrderly := h.toOrderly
  supertypes c e he t ht := (h.supertypes c e he t ht).of_covariant
  bounds v := by
    obtain ⟨ts, hts, hwithin, hlength⟩ := h.bounds v
    exact ⟨ts, hts, fun t ht => (hwithin t ht).of_covariant, hlength⟩

theorem nests_of_covariant (h : t.Every (tbl.Layer S.covariant)) : t.Nests 0 := by
  induction t using Ty.children_induction with
  | step t ih =>
    cases ht : t.isWildcard with
    | true =>
      obtain ⟨n, upper, lower, marks, rfl⟩ := Ty.exists_eq_wildcard ht
      obtain rfl : lower = .null := h.top.2.2.resolve_left Bool.false_ne_true
      exact .plain (ih upper mem_cons_self h.upper)
    | false => exact .other ht fun x hx => ih x hx (h.part hx)

theorem Invokes.nests (h : tbl.Invokes S.covariant t) : t.Nests 0 := by
  obtain ⟨c, args, owner, marks, rfl⟩ := Ty.exists_eq_declared h.1
  exact .other rfl fun x hx => nests_of_covariant (h.2.2 x hx)

theorem nests_bare_class (n : Nat) (c : ClassId) (marks : List ClassId) :
    (Ty.declared c [] none marks).Nests n :=
  .leaf rfl rfl

theorem nests_assignment {n} (h : t.Nests n) :
    ∀ v x, tbl.assignment t v = some x → x.Nests n :=
  of_assignment (fun _ _ _ _ h => ⟨fun _ => h.arg, fun _ => h.owner⟩) h

/-- Where supertypes have no lower bounds of wildcards, what a use of a class inherits has only
those of its arguments. -/
theorem Obeys.nests_of_supers (h : tbl.Obeys S.covariant) {n ts} (hmaps : tbl.Maps S t)
    (ht : t.Nests n) (hts : tbl.DirectSupers t ts) :
    ∀ s ∈ ts, s.Nests n := by
  obtain ⟨c, args, owner, marks, rfl, -, hsupers⟩ := hts
  intro s hs
  rcases h.bare_or_replaced hsupers hs with ⟨d, ms, rfl⟩ | ⟨ps, m, hps, -, hm, hts⟩
  · exact nests_bare_class n d ms
  · obtain ⟨p, hp, hreplaces⟩ :=
      exists_of_forall₂_right (h.of_covariant.forall₂_replaces (hmaps.remark []) hps hm hts) hs
    refine Ty.Nests.of_bare_eq ((h.invokes_pattern hps p hp).nests.subst fun v x hx => ?_)
      hreplaces.bare_eq.symm
    rw [lookup_typeMapping hm, assignment_remark c args owner [] marks] at hx
    exact nests_assignment ht v x hx

/-! ### The check ends -/

/-- How a question about `s'` and `t'` is nearer to an answer than the one about `s` and `t`, in
which lower bounds are nested to the depths `n` and `m`. -/
inductive Nearer (tbl : Table) (n m : Nat) (s t : Ty) : Ty → Ty → Prop
  | smaller {s' t'} (hs : s'.Nests n) (ht : t'.Nests m) (hsize : sizeOf t' < sizeOf t) :
    Nearer tbl n m s t s' t'
  | higher {s'} (hs : s'.Nests n) (hclimbs : tbl.Climbs s s') : Nearer tbl n m s t s' t
  | null {t'} : Nearer tbl n m s t .null t'
  | turned {s' t' l} (hl : l < m) (hs : s'.Nests l) (ht : t'.Nests n) : Nearer tbl n m s t s' t'

/-- Each question that the check asks is nearer to an answer. Only a lower bound of a wildcard turns
the types round, and it is used up. -/
theorem Obeys.nearer_of_asked (h : tbl.Obeys S.covariant) {n m r} (hs : s.Nests n) (ht : t.Nests m)
    (hr : ∀ x ∈ r, x.Nests n) {s' t'} (hasked : tbl.Asked r s t s' t') :
    tbl.Nearer n m s t s' t' := by
  cases hasked with
  | meet hb => exact .smaller hs (ht.part rfl hb) (Ty.sizeOf_lt_of_mem_children hb)
  | member hb => exact .higher (hs.part rfl hb) (.member hb)
  | lower =>
    exact .smaller hs (ht.part rfl (by simp [Ty.children]))
      (Ty.sizeOf_lt_of_mem_children (by simp [Ty.children]))
  | bound hu =>
    obtain ⟨_, u, -, hu', hwithin, -⟩ := h.exists_upperBound _
    cases hu.symm.trans hu'
    exact .higher ((nests_of_covariant hwithin.2).mono (Nat.zero_le n)) (.bound hu)
  | upper => exact .higher (hs.part rfl mem_cons_self) .upper
  | component =>
    exact .smaller (hs.part rfl mem_cons_self) (ht.part rfl mem_cons_self)
      (Ty.sizeOf_lt_of_mem_children mem_cons_self)
  | argUpper hd ha =>
    obtain ⟨hw, ha⟩ := of_mem_zip ha
    exact .smaller ((hr _ hd).arg ha).orUpper (ht.arg hw).orUpper
      (Nat.lt_trans (Ty.sizeOf_lt_of_mem_children mem_cons_self)
        (Ty.sizeOf_lt_of_mem_children (mem_append_left _ hw)))
  | argLower hd ha =>
    obtain ⟨hw, ha⟩ := of_mem_zip ha
    cases ht.arg hw with
    | plain => exact .null
    | lower _ hlower => exact .turned (Nat.lt_succ_self _) hlower ((hr _ hd).arg ha).orLower
    | other hwildcard => cases hwildcard
  | owner hd =>
    exact .smaller ((hr _ hd).owner rfl) (ht.owner rfl)
      (Ty.sizeOf_lt_of_mem_children (by simp [Ty.children]))

/-- The check ends if the supertypes and bounds that the table declares have no lower bounds of
wildcards and bounds of type variables are not cyclic. The types that are compared may have lower
bounds of wildcards. -/
theorem Obeys.settles_check_of_covariant (h : tbl.Obeys S.covariant) (hbounds : tbl.Grounded)
    (hs : tbl.Within S s) (ht : tbl.Within S t) :
    ∃ b, Settles (fun k => tbl.check k .subtype s t) b := by
  obtain ⟨n, hn⟩ := Ty.exists_nests s
  obtain ⟨m, hm⟩ := Ty.exists_nests t
  -- Turns make the sum of the depths smaller; between turns the second shrinks or the first rises.
  induction hdepth : n + m using Nat.strong_induction_on generalizing n m s t with
  | _ depth ihdepth =>
    induction hsize : sizeOf t using Nat.strong_induction_on generalizing s t with
    | _ size ihsize =>
      subst hsize
      induction h.acc_climbs hbounds s with
      | intro s _ ihclimb =>
        have hobeys := h.of_covariant
        obtain ⟨r, hr, hrs⟩ := hobeys.exists_resolvesTo_of
          (fun hx hn hts => h.nests_of_supers hx.maps hn hts) hs hn t
        refine (hobeys.reduces hs ht hr).settles ((asks_reduce r s t).mono fun s' t' hasked => ?_)
        obtain ⟨hs', ht'⟩ := hobeys.within_of_asked hs ht (fun x hx => (hrs x hx).1) hasked
        cases h.nearer_of_asked hn hm (fun x hx => (hrs x hx).2) hasked with
        | smaller hn' hm' hsize => exact ihsize _ hsize hs' ht' hn' hm' rfl
        | higher hn' hclimbs => exact ihclimb _ hclimbs hs' hn'
        | null => exact hobeys.settles_check_null ht'
        | turned hl hn' hm' => exact ihdepth _ (by omega) hs' ht' _ hn' _ hm' rfl

/-- The subtype check answers with a truth value, whatever wildcards the two types have, if there
are no lower bounds of wildcards in the supertypes and the bounds that the table declares. -/
theorem exists_settles_isSubtype (h : tbl.Obeys Shape.full.covariant) (hbounds : tbl.Grounded)
    (hs : tbl.Within .full s) (ht : tbl.Within .full t) :
    ∃ b, Settles (fun k => tbl.isSubtype k s t) b := by
  simp only [isSubtype_eq_check hs ht]
  exact h.settles_check_of_covariant hbounds hs ht

set_option maxRecDepth 20000 in
/-- An interface that bounds its own variable, and a class that inherits it twice nested. Lower
bounds are nested in both types. -/
theorem exists_settles_isSubtype_nested :
    let tbl : Table := {
      classes := #[
        { name := "java.lang.Object", simpleName := "Object", kind := .cls },
        { name := "p.N", simpleName := "N", kind := .interface, typeParameters := [{ name := "T" },
          { name := "U", bounds := [.applied ⟨1⟩ [.var ⟨.cls ⟨1⟩, 0⟩ [], .wildcard [] [] []]
            none []] }] },
        { name := "p.C", simpleName := "C", kind := .cls, typeParameters := [{ name := "T" }],
          interfaces := [.applied ⟨1⟩
            [.applied ⟨1⟩ [.var ⟨.cls ⟨2⟩, 0⟩ [], .wildcard [] [] []] none [],
            .wildcard [.var ⟨.cls ⟨2⟩, 0⟩ []] [] []] none []] }] }
    let above (t : Ty) : Ty := .wildcard 0 tbl.objectType t []
    let N (t u : Ty) : Ty := .declared ⟨1⟩ [t, u] none []
    let C (t : Ty) : Ty := .declared ⟨2⟩ [t] none []
    let s := C (above (C (above tbl.objectType)))
    let t := N (above (N (above s) (above s))) (above s)
    (tbl.Obeys Shape.full.covariant ∧ tbl.Grounded ∧ tbl.Within .full s ∧ tbl.Within .full t) ∧
      ∃ b, Settles (fun k => tbl.isSubtype k s t) b := by
  intro tbl above N C s t
  have hobeys : tbl.Obeys Shape.full.covariant :=
    (orderly_of_isLayered (by rfl) (by rfl) (by rfl)).obeys_of_tests (by rfl) (by rfl)
  have hbounds : tbl.Grounded := grounded_of_testBounds (by rfl)
  have hs : tbl.Within .full s := by decide
  have ht : tbl.Within .full t := by decide
  exact ⟨⟨hobeys, hbounds, hs, ht⟩, exists_settles_isSubtype hobeys hbounds hs ht⟩

/-! ### A question that comes back -/

/-- An interface `N<T>` and a class `C` that implements `N<N<? super C>>`. -/
def turning : Table where
  classes := #[
    { name := "java.lang.Object", simpleName := "Object", kind := .cls },
    { name := "p.N", simpleName := "N", kind := .interface, typeParameters := [{ name := "T" }] },
    { name := "p.C", simpleName := "C", kind := .cls, interfaces :=
        [.applied ⟨1⟩ [.applied ⟨1⟩ [.wildcard [] [.named ⟨2⟩ []] []] none []] none []] }]

/-- The class `C`. -/
def turningClass : Ty :=
  .declared ⟨2⟩ [] none []

/-- The type `N<? super C>`. -/
def turningTarget : Ty :=
  .declared ⟨1⟩ [.wildcard 0 turning.objectType turningClass []] none []

/-- Whether `C` is below `N<? super C>` depends on that very question. -/
theorem check_turning (n : Nat) :
    turning.check n .subtype turningClass turningTarget = .error .exhausted := by
  have hstep (n : Nat) (f : Relation → Ty → Ty → Result Bool)
      (hroot : f .subtype turningTarget turning.objectType = .ok true)
      (hback : f .subtype turningClass turningTarget = .error .exhausted) :
      turning.checkStep (n + 4) f .subtype turningClass turningTarget = .error .exhausted := by
    have hcontains : checkContains f (.wildcard 0 turning.objectType turningClass [])
        turningTarget = .error .exhausted := by
      change (f .subtype turningTarget turning.objectType >>= _) = _
      rw [hroot]
      exact hback
    change (checkContains f (.wildcard 0 turning.objectType turningClass [])
      turningTarget >>= _) >>= _ = _
    rw [hcontains]
    rfl
  induction n with
  | zero => rfl
  | succ n ih =>
    rcases n with _ | _ | _ | _ | n
    · rfl
    · rfl
    · rfl
    · rfl
    · exact hstep n _ rfl ih

set_option maxRecDepth 20000 in
/-- A lower bound of a wildcard in a supertype may keep the check from ending: all supertypes of the
table are class types, no class is above itself, and no bound is circular. -/
theorem isSubtype_turning_exhausted :
    turning.Obeys .full ∧ turning.Grounded ∧ turning.Within .full turningClass ∧
      turning.Within .full turningTarget ∧
      ∀ n, turning.isSubtype n turningClass turningTarget = .error .exhausted := by
  refine ⟨(orderly_of_isLayered (by rfl) (by rfl) (by rfl)).obeys_of_tests (by rfl) (by rfl),
    grounded_of_testBounds (by rfl), by decide, by decide, check_turning⟩

end Table

end NominalTypes
