import NominalTypes.Ty.Bounds
import NominalTypes.Proofs.Inheritance

/-!
# Three views of the class hierarchy

The classes above the class of a type can be seen in three ways: by the depth-first search of the
raw hierarchy (`Table.isSubclassOf`), by going up to a given class (`Table.resolveSupertype`), and
by listing all supertypes in breadth-first order (`Table.allSupertypes`). In an orderly table, whose
only root is the root class, the three agree.

The breadth-first search drops a type if it has met an equal one. This is harmless, since equal
types have equal supertypes (`Table.Orderly.forall₂_same_of_directSupers`). It ends because each
expanded type gives way to types of classes above its own, a game with the hydra that ends whatever
is dropped.
-/

namespace NominalTypes

open List

variable {p : Ty → Prop} {s t : Ty} {ts : List Ty} {r : Ty → Ty → Prop}

namespace Table

variable {tbl : Table}

/-! ### Expanding a queue -/

section Expand

variable {direct : Ty → Result (List Ty)} {queue seen out : List Ty} {k : Nat}

theorem expandSupertypes_nil : expandSupertypes direct k [] seen = .ok seen.reverse := by
  rw [expandSupertypes.eq_def]
  rfl

theorem expandSupertypes_of_isIn (h : t.isIn seen = true) :
    expandSupertypes direct k (t :: queue) seen = expandSupertypes direct k queue seen := by
  rw [expandSupertypes.eq_def, expandSupertypes.eq_def direct k queue]
  dsimp only
  rw [dropWhile_cons_of_pos (by exact h)]

theorem expandSupertypes_zero (h : t.isIn seen = false) :
    expandSupertypes direct 0 (t :: queue) seen = .error .exhausted := by
  rw [expandSupertypes.eq_def]
  dsimp only
  rw [dropWhile_cons_of_neg (by rw [h]; exact Bool.false_ne_true)]
  rfl

theorem expandSupertypes_succ (h : t.isIn seen = false) :
    expandSupertypes direct (k + 1) (t :: queue) seen =
      direct t >>= fun above => expandSupertypes direct k (queue ++ above) (t :: seen) := by
  rw [expandSupertypes.eq_def]
  dsimp only
  rw [dropWhile_cons_of_neg (by rw [h]; exact Bool.false_ne_true)]

/-- Induction along a search that has come to its end: a pending type is dropped or expanded. -/
theorem expandSupertypes_induction {motive : List Ty → List Ty → Prop}
    (done : ∀ seen, seen.reverse = out → motive [] seen)
    (drop : ∀ t queue seen, t.isIn seen = true → motive queue seen → motive (t :: queue) seen)
    (expand : ∀ t queue seen above, t.isIn seen = false → direct t = .ok above →
      motive (queue ++ above) (t :: seen) → motive (t :: queue) seen)
    (h : expandSupertypes direct k queue seen = .ok out) : motive queue seen := by
  induction k generalizing queue seen with
  | zero =>
    induction queue with
    | nil => exact done seen (Except.ok.inj (expandSupertypes_nil.symm.trans h))
    | cons t queue ih =>
      cases hin : t.isIn seen with
      | true => exact drop t queue seen hin (ih (expandSupertypes_of_isIn hin ▸ h))
      | false => cases (expandSupertypes_zero hin).symm.trans h
  | succ k ihk =>
    induction queue with
    | nil => exact done seen (Except.ok.inj (expandSupertypes_nil.symm.trans h))
    | cons t queue ih =>
      cases hin : t.isIn seen with
      | true => exact drop t queue seen hin (ih (expandSupertypes_of_isIn hin ▸ h))
      | false =>
        rw [expandSupertypes_succ hin] at h
        obtain ⟨above, habove, h⟩ := bind_eq_ok.mp h
        exact expand t queue seen above hin habove (ihk h)

/-- What passes from types to the types directly above them holds of all that is listed. -/
theorem forall_of_expandSupertypes (hdirect : ∀ t ts, p t → direct t = .ok ts → ∀ s ∈ ts, p s)
    (h : expandSupertypes direct k queue seen = .ok out) (hqueue : ∀ t ∈ queue, p t)
    (hseen : ∀ t ∈ seen, p t) : ∀ t ∈ out, p t := by
  revert hqueue hseen
  refine expandSupertypes_induction
    (motive := fun queue seen => (∀ t ∈ queue, p t) → (∀ t ∈ seen, p t) → ∀ t ∈ out, p t) ?_ ?_ ?_ h
  · rintro seen rfl - hseen t ht
    exact hseen t (mem_reverse.mp ht)
  · intro t queue seen _ ih hqueue hseen
    exact ih (forall_mem_cons.mp hqueue).2 hseen
  · intro t queue seen above _ habove ih hqueue hseen
    obtain ⟨ht, hqueue⟩ := forall_mem_cons.mp hqueue
    exact ih (forall_mem_append.mpr ⟨hqueue, hdirect t above ht habove⟩)
      (forall_mem_cons.mpr ⟨ht, hseen⟩)

theorem exists_eq_append_of_expandSupertypes
    (h : expandSupertypes direct k queue seen = .ok out) : ∃ rest, out = seen.reverse ++ rest := by
  refine expandSupertypes_induction (motive := fun _ seen => ∃ rest, out = seen.reverse ++ rest)
    ?_ ?_ ?_ h
  · rintro seen rfl
    exact ⟨[], (append_nil _).symm⟩
  · exact fun _ _ _ _ ih => ih
  · rintro t queue seen above - - ⟨rest, rfl⟩
    exact ⟨t :: rest, by rw [reverse_cons, append_assoc, singleton_append]⟩

theorem isIn_cons_self (t : Ty) (ts : List Ty) : t.isIn (t :: ts) = true := by
  rw [Ty.isIn, any_cons, Ty.same_refl, Bool.true_or]

theorem isIn_cons_of_isIn (h : s.isIn ts = true) (t : Ty) :
    s.isIn (t :: ts) = true := by
  rw [Ty.isIn, any_cons, Bool.or_eq_true]
  exact .inr h

theorem isIn_of_same {t} (h : s.same t = true) (ht : t.isIn ts = true) :
    s.isIn ts = true := by
  obtain ⟨x, hx, htx⟩ := any_eq_true.mp ht
  exact any_eq_true.mpr ⟨x, hx, Ty.same_trans h htx⟩

/-- All that is pending or has been met is listed up to equality, and with each type that is listed
also those directly above it. The types above those met have to be pending or met. -/
theorem isIn_of_expandSupertypes (h : expandSupertypes direct k queue seen = .ok out)
    (hclosed : ∀ t ∈ seen, ∃ ts, direct t = .ok ts ∧ ∀ s ∈ ts, s ∈ queue ∨ s.isIn seen = true) :
    (∀ s, s ∈ queue ∨ s.isIn seen = true → s.isIn out = true) ∧
      ∀ t ∈ out, ∃ ts, direct t = .ok ts ∧ ∀ s ∈ ts, s.isIn out = true := by
  revert hclosed
  refine expandSupertypes_induction (motive := fun queue seen =>
    (∀ t ∈ seen, ∃ ts, direct t = .ok ts ∧ ∀ s ∈ ts, s ∈ queue ∨ s.isIn seen = true) →
    (∀ s, s ∈ queue ∨ s.isIn seen = true → s.isIn out = true) ∧
      ∀ t ∈ out, ∃ ts, direct t = .ok ts ∧ ∀ s ∈ ts, s.isIn out = true) ?_ ?_ ?_ h
  · rintro seen rfl hclosed
    have hreverse {s : Ty} (hs : s ∈ [] ∨ s.isIn seen = true) : s.isIn seen.reverse = true := by
      rw [Ty.isIn, any_reverse]
      exact hs.resolve_left not_mem_nil
    refine ⟨fun s => hreverse, fun t ht => ?_⟩
    obtain ⟨ts, hts, hall⟩ := hclosed t (mem_reverse.mp ht)
    exact ⟨ts, hts, fun s hs => hreverse (hall s hs)⟩
  · intro t queue seen hin ih hclosed
    have hknown {s : Ty} (hs : s ∈ t :: queue ∨ s.isIn seen = true) :
        s ∈ queue ∨ s.isIn seen = true := by
      rcases hs with hs | hs
      · rcases mem_cons.mp hs with rfl | hs
        · exact .inr hin
        · exact .inl hs
      · exact .inr hs
    obtain ⟨hall, habove⟩ := ih fun x hx =>
      (hclosed x hx).imp fun ts hts => ⟨hts.1, fun s hs => hknown (hts.2 s hs)⟩
    exact ⟨fun s hs => hall s (hknown hs), habove⟩
  · intro t queue seen above _ hdirect ih hclosed
    have hknown {s : Ty} (hs : s ∈ t :: queue ∨ s.isIn seen = true) :
        s ∈ queue ++ above ∨ s.isIn (t :: seen) = true := by
      rcases hs with hs | hs
      · rcases mem_cons.mp hs with rfl | hs
        · exact .inr (isIn_cons_self _ _)
        · exact .inl (mem_append_left _ hs)
      · exact .inr (isIn_cons_of_isIn hs t)
    have hclosed' : ∀ x ∈ t :: seen, ∃ ts, direct x = .ok ts ∧
        ∀ s ∈ ts, s ∈ queue ++ above ∨ s.isIn (t :: seen) = true := by
      refine forall_mem_cons.mpr ⟨⟨above, hdirect, fun s hs => ?_⟩, fun x hx => ?_⟩
      · exact .inl (mem_append_right _ hs)
      · exact (hclosed x hx).imp fun ts hts => ⟨hts.1, fun s hs => hknown (hts.2 s hs)⟩
    obtain ⟨hall, habove⟩ := ih hclosed'
    exact ⟨fun s hs => hall s (hknown hs), habove⟩

end Expand

/-- The search ends if each type gives way to types below it in a well-founded order. Then a large
enough budget is enough, for the search and for its steps. -/
theorem exists_expandSupertypes {direct : Nat → Ty → Result (List Ty)} (hr : WellFounded r)
    (hdirect : ∀ t, p t → ∃ ts, Settles (fun k => direct k t) ts ∧ ∀ s ∈ ts, p s ∧ r s t)
    (queue seen : List Ty) (hqueue : ∀ t ∈ queue, p t) :
    ∃ out, ∀ φ : Nat → Nat, (∀ k, k ≤ φ k) →
      Settles (fun k => expandSupertypes (direct (φ k)) k queue seen) out := by
  -- The pending types are the heads of a hydra.
  generalize hheads : (queue : Multiset Ty) = heads
  induction heads using hr.cutExpand.induction generalizing queue seen with
  | _ heads ih =>
    subst hheads
    cases queue with
    | nil =>
      refine ⟨seen.reverse, fun φ _ => ?_⟩
      simp only [expandSupertypes_nil]
      exact .ok _
    | cons t queue =>
      obtain ⟨ht, hqueue⟩ := forall_mem_cons.mp hqueue
      have hcut (ts : List Ty) (hts : ∀ s ∈ ts, r s t) :
          Relation.CutExpand r (queue ++ ts : List Ty) (t :: queue : List Ty) := by
        refine ⟨ts, t, fun s hs => hts s (Multiset.mem_coe.mp hs), ?_⟩
        rw [← Multiset.coe_add, ← Multiset.cons_coe, ← Multiset.singleton_add,
          add_comm _ ({t} : Multiset Ty), ← add_assoc]
      cases hin : t.isIn seen with
      | true =>
        have hdrop := hcut [] (forall_mem_nil _)
        rw [append_nil] at hdrop
        obtain ⟨out, hout⟩ := ih _ hdrop queue seen hqueue rfl
        refine ⟨out, fun φ hφ => ?_⟩
        simp only [expandSupertypes_of_isIn hin]
        exact hout φ hφ
      | false =>
        obtain ⟨ts, hsettles, hts⟩ := hdirect t ht
        obtain ⟨out, hout⟩ := ih _ (hcut ts fun s hs => (hts s hs).2) (queue ++ ts) (t :: seen)
          (forall_mem_append.mpr ⟨hqueue, fun s hs => (hts s hs).1⟩) rfl
        refine ⟨out, fun φ hφ => ?_⟩
        have hφ' (k : Nat) : k ≤ φ (k + 1) := Nat.le_trans (Nat.le_succ k) (hφ (k + 1))
        exact ((hsettles.comp hφ').bind (hout (fun k => φ (k + 1)) hφ')).step
          (expandSupertypes_zero hin) fun k => expandSupertypes_succ hin

/-! ### Supertypes of equal types -/

private theorem rel_or {R : Ty → Ty → Prop} {a b a' b'} (h : Option.Rel R a b)
    (h' : Option.Rel R a' b') : Option.Rel R (a.or a') (b.or b') := by
  cases h with
  | some hxy => exact .some hxy
  | none => exact h'

theorem rel_assignment (h : s.same t = true) (v : TypeVarId) :
    Option.Rel (fun x y => x.same y = true) (tbl.assignment s v) (tbl.assignment t v) := by
  induction s using Ty.children_induction generalizing t with
  | step s ih =>
    cases s with
    | declared c args owner marks =>
      obtain ⟨args', owner', marks', rfl, hargs, howner⟩ := Ty.exists_eq_declared_of_same h
      have hown : Option.Rel (fun x y => x.same y = true)
          (if v ∈ tbl.typeVars (.cls c) then args[v.index]? else none)
          (if v ∈ tbl.typeVars (.cls c) then args'[v.index]? else none) := by
        split_ifs
        · exact rel_getElem? (Ty.forall₂_of_sameAll hargs) v.index
        · exact .none
      cases owner with
      | none =>
        cases owner' with
        | none => exact hown
        | some o' => cases howner
      | some o =>
        cases owner' with
        | none => cases howner
        | some o' => exact rel_or hown (ih o (mem_append_right _ mem_cons_self) howner)
    | _ =>
      cases t with
      | declared => cases h
      | _ => exact .none

private theorem isEmpty_eq {m m' : Mapping}
    (hm : ∀ v, Option.Rel (fun x y => x.same y = true) (m.lookup v) (m'.lookup v)) :
    m.isEmpty = m'.isEmpty := by
  have hlookup (v : TypeVarId) (x : Ty) (m : Mapping) : List.lookup v ((v, x) :: m) = some x := by
    rw [lookup_cons_self]
  cases m with
  | nil =>
    cases m' with
    | nil => rfl
    | cons e m' =>
      have hv := hm e.1
      rw [hlookup] at hv
      cases hv
  | cons e m =>
    cases m' with
    | nil =>
      have hv := hm e.1
      rw [hlookup] at hv
      cases hv
    | cons e' m' => rfl

theorem same_of_substitute {m m' : Mapping} {p : Ty}
    (hm : ∀ v, Option.Rel (fun x y => x.same y = true) (m.lookup v) (m'.lookup v))
    (hp : p.Every tbl.Denoted) (hs : tbl.substitute m p = .ok s)
    (ht : tbl.substitute m' p = .ok t) : s.same t = true := by
  rw [substitute] at hs ht
  rw [← isEmpty_eq hm] at ht
  split_ifs at hs ht
  · cases hs
    cases ht
    exact Ty.same_refl _
  · exact same_of_instantiate hm hp hs ht

/-- Equal types have equal direct supertypes, one by one. -/
theorem forall₂_same_of_directSupers {ss} (hst : s.same t = true) (hss : tbl.DirectSupers s ss)
    (hts : tbl.DirectSupers t ts) :
    Forall₂ (fun x y => x.same y = true) ss ts := by
  obtain ⟨c, args, owner, marks, rfl, -, hss⟩ := hss
  obtain ⟨d, args', owner', marks', rfl, -, hts⟩ := hts
  obtain ⟨_, _, _, heq, hargs, howner⟩ := Ty.exists_eq_declared_of_same hst
  cases heq
  have hraw : tbl.isRaw c args = tbl.isRaw c args' :=
    isRaw_of_length_eq (Ty.forall₂_of_sameAll hargs).length_eq
  refine hss.forall₂ hts hraw (Ty.same_refl _) (fun _ _ _ _ => Ty.same_refl _)
    fun hps _ hm hm' hss hts => ?_
  refine forall₂_join (mapM_eq_ok.mp hss) (mapM_eq_ok.mp hts) fun p hp x y hx hy =>
    same_of_substitute (fun v => ?_) (descriptors_denoted _ hps p hp) hx hy
  rw [lookup_typeMapping hm, lookup_typeMapping hm', assignment_remark c args owner [] marks,
    assignment_remark c args' owner' [] marks']
  exact rel_assignment hst v

/-! ### All supertypes of a use of a class -/

theorem Orderly.wellFounded_supertype (h : tbl.Orderly) :
    WellFounded fun s t => t.Formed ∧ tbl.Supertype t s := by
  have hacc (c : ClassId) : ∀ t, Ty.Uses c t → Acc (fun s t => t.Formed ∧ tbl.Supertype t s) t := by
    induction c using h.wellFounded_inherits.induction with
    | _ c ih =>
      intro t ht
      refine .intro t fun s ⟨hformed, hs⟩ => ?_
      obtain ⟨d, hd⟩ := Ty.exists_uses (h.formed_of_supertype hformed hs).kind
      exact ih d (h.inherits_of_supertype hformed hs ht hd) s hd
  refine ⟨fun t => .intro t fun s ⟨hformed, hs⟩ => ?_⟩
  obtain ⟨d, hd⟩ := Ty.exists_uses (h.formed_of_supertype hformed hs).kind
  exact hacc d s hd

theorem DirectSupers.settles (hts : tbl.DirectSupers t ts) :
    Settles (fun k => (tbl.directSupertypes k t : Result (List Ty))) ts := by
  obtain ⟨c, args, owner, marks, rfl, hsettles, -⟩ := hts
  simp only [directSupertypes, directSupertypesWith_eq_typesAboveWith]
  exact hsettles

theorem Orderly.directSupers_of_eq_ok (h : tbl.Orderly) (ht : t.Formed) {k}
    (hts : (tbl.directSupertypes k t : Result (List Ty)) = .ok ts) :
    tbl.DirectSupers t ts := by
  obtain ⟨ss, hss⟩ := h.exists_directSupers ht
  cases hss.settles.eq_of_ok hts
  exact hss

/-- Whatever is reached from a type is in a list, up to equality, that holds the type and with each
type also its direct supertypes. -/
theorem Orderly.isIn_of_reaches (h : tbl.Orderly) (ht : t.Formed) {out k}
    (hout : ∀ s ∈ out, tbl.Reaches t s) (hself : t.isIn out = true)
    (hclosed : ∀ s ∈ out, ∃ ss, (tbl.directSupertypes k s : Result (List Ty)) = .ok ss ∧
      ∀ x ∈ ss, x.isIn out = true) (hs : tbl.Reaches t s) : s.isIn out = true := by
  induction hs with
  | refl => exact hself
  | @tail x s hx hstep ih =>
    obtain ⟨y, hy, hxy⟩ := any_eq_true.mp ih
    obtain ⟨ys, hys, hall⟩ := hclosed y hy
    obtain ⟨xs, hxs, hs⟩ := h.exists_of_supertype (h.formed_of_reaches ht hx) hstep
    have hpairs := forall₂_same_of_directSupers hxy hxs
      (h.directSupers_of_eq_ok (h.formed_of_reaches ht (hout y hy)) hys)
    obtain ⟨s', hs', hsame⟩ := exists_of_forall₂_left hpairs hs
    exact isIn_of_same hsame (hall s' hs')

/-- If the search from the direct supertypes of a type ends, then the type and its proper supertypes
are listed. What the list holds can be read off the search with one budget that is large enough. -/
theorem exists_ancestors_of_expand {ss out}
    (hss : Settles (fun k => (tbl.directSupertypes k t : Result (List Ty))) ss)
    (hout : Settles
      (fun k => (expandSupertypes (tbl.directSupertypes k) k ss [t] : Result (List Ty))) out) :
    ∃ ts, Settles (fun k => (tbl.ancestorsWith (tbl.leastUpperBounds k) k t : Result (List Ty)))
        (t :: ts) ∧
      ∃ k, (tbl.directSupertypes k t : Result (List Ty)) = .ok ss ∧
        (expandSupertypes (tbl.directSupertypes k) k ss [t] : Result (List Ty)) =
          .ok (t :: ts) := by
  obtain ⟨n, hn⟩ := hss.1
  obtain ⟨n', hn'⟩ := hout.1
  have hexpand := hn' (max n n') (Nat.le_max_right n n')
  obtain ⟨ts, hts⟩ := exists_eq_append_of_expandSupertypes hexpand
  subst hts
  exact ⟨ts, hss.bind hout, _, hn _ (Nat.le_max_left n n'), hexpand⟩

/-- If going up step by step ends, then the proper supertypes of a type are listed, and they are
reached by such steps. -/
theorem exists_allSupertypes_of (hr : WellFounded r)
    (hdirect : ∀ t, p t → ∃ ts,
      Settles (fun k => (tbl.directSupertypes k t : Result (List Ty))) ts ∧
      ∀ s ∈ ts, p s ∧ r s t) (ht : p t) :
    ∃ ts, Settles (fun k => (tbl.allSupertypes k t : Result (List Ty))) ts ∧
      (∀ s ∈ t :: ts, p s ∧ Relation.ReflTransGen (fun x y => r y x) t s) ∧
      ∃ k ss, (tbl.directSupertypes k t : Result (List Ty)) = .ok ss ∧
        (expandSupertypes (tbl.directSupertypes k) k ss [t] : Result (List Ty)) =
          .ok (t :: ts) := by
  obtain ⟨ss, hss, habove⟩ := hdirect t ht
  obtain ⟨out, hout⟩ := exists_expandSupertypes hr hdirect ss [t] fun s hs => (habove s hs).1
  obtain ⟨ts, hts, k, hstart, hexpand⟩ :=
    exists_ancestors_of_expand hss (hout id fun k => Nat.le_refl k)
  refine ⟨ts, hts.bind (Settles.ok ts), ?_, k, ss, hstart, hexpand⟩
  refine forall_of_expandSupertypes (fun x xs hx hxs s hs => ?_) hexpand
    (fun s hs => ⟨(habove s hs).1, .single (habove s hs).2⟩)
    (forall_mem_singleton.mpr ⟨ht, .refl⟩)
  obtain ⟨xs', hxs', habove'⟩ := hdirect x hx.1
  cases hxs'.eq_of_ok hxs
  exact ⟨(habove' s hs).1, hx.2.tail (habove' s hs).2⟩

/-- The supertypes of a use of a class are those that are reached from it, up to equality. The
search for them ends. -/
theorem Orderly.exists_allSupertypes (h : tbl.Orderly) (ht : t.Formed) :
    ∃ ts, Settles (fun k => (tbl.allSupertypes k t : Result (List Ty))) ts ∧
      (∀ s ∈ t :: ts, tbl.Reaches t s) ∧ ∀ s, tbl.Reaches t s → s.isIn (t :: ts) = true := by
  have hdirect (x : Ty) (hx : x.Formed) : ∃ xs,
      Settles (fun k => (tbl.directSupertypes k x : Result (List Ty))) xs ∧
        ∀ s ∈ xs, s.Formed ∧ x.Formed ∧ tbl.Supertype x s := by
    obtain ⟨xs, hxs⟩ := h.exists_directSupers hx
    refine ⟨xs, hxs.settles, fun s hs => ?_⟩
    exact ⟨h.formed_of_supertype hx (hxs.supertype hs), hx, hxs.supertype hs⟩
  obtain ⟨ts, hts, hlisted, k, ss, hstart, hexpand⟩ :=
    exists_allSupertypes_of h.wellFounded_supertype hdirect ht
  have hreaches : ∀ s ∈ t :: ts, tbl.Reaches t s :=
    fun s hs => Relation.ReflTransGen.mono (fun _ _ hxy => hxy.2) _ _ (hlisted s hs).2
  obtain ⟨-, hclosed⟩ := isIn_of_expandSupertypes hexpand
    (forall_mem_singleton.mpr ⟨ss, hstart, fun s hs => .inl hs⟩)
  exact ⟨ts, hts, hreaches, fun s =>
    h.isIn_of_reaches ht hreaches (isIn_cons_self t ts) hclosed⟩

/-! ### The three views -/

/-- The root class is the only class without a superclass, interfaces and stand-ins for primitive
types apart. -/
def SoleRoot (tbl : Table) : Prop :=
  ∀ c, c.index < tbl.classes.size → (tbl.cls c).superclass = none →
    (tbl.cls c).isInterface = true ∨ (tbl.cls c).isPrimitive = true ∨ c = tbl.core.object

theorem Orderly.reflTransGen_object (h : tbl.Orderly) (c : ClassId) :
    Relation.ReflTransGen tbl.Inherits c tbl.core.object := by
  induction c using h.wellFounded_inherits.induction with
  | _ c ih =>
    by_cases hc : c = tbl.core.object
    · exact hc ▸ .refl
    by_cases hexprs : tbl.supertypeExprs c = []
    · exact .single (.inr ⟨hexprs, hc, rfl⟩)
    · obtain ⟨ds, hds⟩ := h.exists_rawSupertypes c
      have hlength := (mapM_eq_ok.mp hds).length_eq
      obtain ⟨d, hd⟩ := exists_mem_of_length_pos
        (hlength ▸ length_pos_iff.mpr hexprs)
      have hinherits : tbl.Inherits c d := .inl ⟨ds, hds, hd⟩
      exact (ih d hinherits).head hinherits

/-- The search of the raw hierarchy finds exactly the classes that are inherited. -/
theorem Orderly.isSubclassOf_iff (h : tbl.Orderly) (hsole : tbl.SoleRoot) {c target}
    (htarget : target.index < tbl.classes.size) (hne : c ≠ target) :
    tbl.isSubclassOf c target = .ok true ↔
      (tbl.cls c).isPrimitive = false ∧ Relation.TransGen tbl.Inherits c target := by
  constructor
  · intro hsub
    obtain ⟨hc, hprimitive, hpath⟩ := transGen_of_isSubclassOf hsub hne
    refine ⟨hc, ?_⟩
    rcases hpath with ⟨hsuper, hinterface⟩ | hpath
    · rcases hsole target htarget hsuper with hi | hp | rfl
      · cases hinterface.symm.trans hi
      · cases hprimitive.symm.trans hp
      · exact (Relation.reflTransGen_iff_eq_or_transGen.mp (h.reflTransGen_object c)).resolve_left
          fun heq => hne heq.symm
    · have hextends : tbl.Extends ≤ tbl.Inherits := fun _ _ => Or.inl
      exact Relation.TransGen.mono hextends _ _ hpath
  · rintro ⟨hc, hpath⟩
    exact h.isSubclassOf_of_inherits hpath hc

/-- The three views of the hierarchy agree: going up from a type finds a parameterization of a class
if and only if the search of the raw hierarchy finds the class, if and only if a use of the class is
listed; and what going up finds is listed, up to equality. A stand-in for a primitive type, of which
there are no uses, is below no other class in the raw hierarchy. -/
theorem Orderly.resolveSupertype_iff_isSubclassOf_iff_listed (h : tbl.Orderly)
    (hsole : tbl.SoleRoot) {t : Ty} (ht : t.Formed) {c : ClassId} (hc : Ty.Uses c t)
    {target : ClassId} (htarget : target.index < tbl.classes.size) :
    ∃ r ts b, Settles (fun k => (tbl.resolveSupertype k t target : Result (Option Ty))) r ∧
      Settles (fun k => (tbl.allSupertypes k t : Result (List Ty))) ts ∧
      tbl.isSubclassOf c target = .ok b ∧ (r.isSome = true ↔ b = true) ∧
      ((tbl.cls c).isPrimitive = false → (b = true ↔ ∃ s ∈ t :: ts, Ty.Uses target s)) ∧
      ∀ s, r = some s → ∃ x ∈ t :: ts, s.same x = true := by
  obtain ⟨r, hr, hreaches, hsome⟩ := h.exists_resolves (p := tbl.Reaches t)
    (fun _ hx hts y hy => hx.tail (hts.supertype hy)) ht .refl target
  obtain ⟨ts, hts, hlisted, hall⟩ := h.exists_allSupertypes ht
  obtain ⟨b, hb⟩ := isSubclassOf_isOk h.exists_rawSupertypes c target
  have hfound : r.isSome = true ↔ b = true := by
    by_cases hne : c = target
    · subst hne
      obtain ⟨args, owner, marks, rfl⟩ := hc
      cases hr.eq resolves_self
      rw [isSubclassOf, if_pos rfl] at hb
      exact iff_of_true rfl (Except.ok.inj hb).symm
    · cases b with
      | false =>
        obtain ⟨args, owner, marks, rfl⟩ := hc
        cases hr.eq (resolves_none hb)
        exact iff_of_false Bool.false_ne_true Bool.false_ne_true
      | true =>
        obtain ⟨hprimitive, hpath⟩ := (h.isSubclassOf_iff hsole htarget hne).mp hb
        exact iff_of_true (Option.isSome_iff_ne_none.mpr
          (hsome c hc hprimitive hpath.to_reflTransGen))
          rfl
  have hequal (s : Ty) (hs : r = some s) : ∃ x ∈ t :: ts, s.same x = true :=
    any_eq_true.mp (hall s (hreaches s hs).2.1)
  refine ⟨r, ts, b, hr.settles, hts, hb, hfound, fun hprimitive => ⟨fun hbt => ?_, ?_⟩, hequal⟩
  · obtain ⟨s, hs⟩ := Option.isSome_iff_exists.mp (hfound.mpr hbt)
    obtain ⟨x, hx, hsx⟩ := hequal s hs
    obtain ⟨_, _, _, rfl⟩ := (hreaches s hs).2.2
    obtain ⟨_, _, _, rfl, -⟩ := Ty.exists_eq_declared_of_same hsx
    exact ⟨_, hx, _, _, _, rfl⟩
  · rintro ⟨s, hs, huses⟩
    have hpath := h.inherits_of_reaches ht (hlisted s hs) hc huses
    rcases Relation.reflTransGen_iff_eq_or_transGen.mp hpath with rfl | hpath
    · rw [isSubclassOf, if_pos rfl] at hb
      exact (Except.ok.inj hb).symm
    · exact Except.ok.inj (hb.symm.trans (h.isSubclassOf_of_inherits hpath hprimitive))

set_option maxRecDepth 20000 in
/-- A list of lists, of which a wildcard is the element type, seen as a collection. -/
theorem resolveSupertype_iff_isSubclassOf_iff_listed_lists :
    let tbl : Table := {
      classes := #[
        { name := "java.lang.Object", simpleName := "Object", kind := .cls },
        { name := "p.C", simpleName := "C", kind := .interface,
          typeParameters := [{ name := "E" }] },
        { name := "p.L", simpleName := "L", kind := .interface, typeParameters := [{ name := "E" }],
          interfaces := [.applied ⟨1⟩ [.var ⟨.cls ⟨2⟩, 0⟩ []] none []] },
        { name := "p.T", simpleName := "T", kind := .cls, typeParameters := [{ name := "E" }],
          superclass := some (.named ⟨0⟩ []),
          interfaces := [.applied ⟨2⟩ [.applied ⟨2⟩ [.var ⟨.cls ⟨3⟩, 0⟩ []] none []] none []] }] }
    let t : Ty := .declared ⟨3⟩ [.wildcard 0 tbl.objectType .null []] none []
    tbl.Orderly ∧ tbl.SoleRoot ∧ t.Formed ∧
      ∃ r ts b, Settles (fun k => (tbl.resolveSupertype k t ⟨1⟩ : Result (Option Ty))) r ∧
        Settles (fun k => (tbl.allSupertypes k t : Result (List Ty))) ts ∧
        tbl.isSubclassOf ⟨3⟩ ⟨1⟩ = .ok b ∧ (r.isSome = true ↔ b = true) ∧
        ((tbl.cls ⟨3⟩).isPrimitive = false → (b = true ↔ ∃ s ∈ t :: ts, Ty.Uses ⟨1⟩ s)) ∧
        ∀ s, r = some s → ∃ x ∈ t :: ts, s.same x = true := by
  intro tbl t
  have h : tbl.Orderly := orderly_of_isLayered (by cbv) (by cbv) (by cbv)
  have hsole : tbl.SoleRoot := by
    rintro ⟨i⟩ hi
    revert i
    decide
  have ht : t.Formed := by
    refine .intro (fun a ha => ?_) fun o ho => ?_
    · cases mem_singleton.mp ha
      exact ⟨rfl, rfl, rfl⟩
    · cases ho
  exact ⟨h, hsole, ht,
    h.resolveSupertype_iff_isSubclassOf_iff_listed hsole ht ⟨_, _, _, rfl⟩ (by decide)⟩

set_option maxRecDepth 20000 in
/-- It is not enough that supertype expressions name classes: one with a primitive type as argument
names a class but denotes no type. The search of the raw hierarchy finds the root class then, and
going up fails. -/
theorem resolveSupertype_fails_for_primitive_argument :
    let tbl : Table := {
      classes := #[
        { name := "java.lang.Object", simpleName := "Object", kind := .cls },
        { name := "p.L", simpleName := "L", kind := .interface,
          typeParameters := [{ name := "E" }] },
        { name := "int", simpleName := "int", kind := .primitive },
        { name := "p.C", simpleName := "C", kind := .cls, superclass := some (.named ⟨0⟩ []),
          interfaces := [.applied ⟨1⟩ [.named ⟨2⟩ []] none []] }] }
    (tbl.Rooted ∧ tbl.SoleRoot ∧ (WellFounded fun d c => tbl.Extends c d) ∧
      ∀ c, ∃ ds, tbl.rawSupertypes c = .ok ds) ∧
    tbl.isSubclassOf ⟨3⟩ ⟨0⟩ = .ok true ∧ ∀ k,
      (tbl.resolveSupertype (k + 1) (.declared ⟨3⟩ [] none []) ⟨0⟩ : Result (Option Ty)) =
        .error (.kind (.typeArgument (.primitive .int))) := by
  intro tbl
  have hlayered : tbl.isLayered = true := by cbv
  have hsole : tbl.SoleRoot := by
    rintro ⟨i⟩ hi
    revert i
    decide
  refine ⟨⟨rooted_of_isRooted (by cbv), hsole, acyclic_of_isLayered hlayered,
    exists_rawSupertypes_of_isLayered hlayered⟩, by cbv, fun k => ?_⟩
  rw [resolveSupertype_eq_climb]
  rfl

end Table

end NominalTypes
