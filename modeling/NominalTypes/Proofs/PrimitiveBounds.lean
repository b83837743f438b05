import NominalTypes.Proofs.Closure
import NominalTypes.Proofs.LowerBounds

/-!
# Least upper bounds of primitive types

Above a primitive type there are the primitive types that it widens to, one after the other, and
nothing else. So primitive types have a least upper bound if one of them is above all, and no type
is above both a primitive type and a reference type. The null type is below every reference type and
does not count among the types that are bounded, also where all others are primitive types.
-/

namespace NominalTypes

open List

variable {ts several : List Ty} {marks : List ClassId}

namespace Primitive

variable {p q r : Primitive}

theorem widensTo_refl (p : Primitive) : p.widensTo p = true := by
  cases p <;> rfl

theorem widensTo_of_next (h : p.next? = some q) (hr : q.widensTo r = true) :
    p.widensTo r = true := by
  cases p <;> cases h <;> cases r <;> first | rfl | cases hr

theorem eq_or_next_of_widensTo (h : p.widensTo r = true) :
    p = r ∨ ∃ q, p.next? = some q ∧ q.widensTo r = true ∧ q.wider.length < p.wider.length := by
  cases p <;> cases r <;> first
    | exact .inl rfl
    | exact .inr ⟨_, rfl, rfl, by decide⟩
    | cases h

/-- A primitive type widens to those that are reached from it by going from one to the next. -/
theorem widensTo_iff :
    p.widensTo r = true ↔ Relation.ReflTransGen (fun p q : Primitive => p.next? = some q) p r := by
  constructor
  · intro h
    induction hlength : p.wider.length using Nat.strong_induction_on generalizing p with
    | _ length ih =>
      rcases eq_or_next_of_widensTo h with rfl | ⟨q, hq, hqr, hlt⟩
      · exact .refl
      · exact .head hq (ih _ (hlength ▸ hlt) hqr rfl)
  · intro h
    induction h using Relation.ReflTransGen.head_induction_on with
    | refl => exact widensTo_refl r
    | head hnext _ ih => exact widensTo_of_next hnext ih

theorem widensTo_antisymm (h : p.widensTo q = true) (h' : q.widensTo p = true) : p = q := by
  cases p <;> cases q <;> first | rfl | (cases h; done) | cases h'

/-- Of two types that one widens to, one widens to the other. -/
theorem widensTo_or_widensTo (hq : p.widensTo q = true) (hr : p.widensTo r = true) :
    q.widensTo r = true ∨ r.widensTo q = true := by
  simp only [widensTo_iff] at hq hr ⊢
  refine Relation.ReflTransGen.total_of_right_unique (fun _ _ _ h h' => ?_) hq hr
  exact Option.some.inj (h.symm.trans h')

end Primitive

namespace Table

variable {tbl : Table} {captures : Nat → Ty} {s t u : Ty} {types : List Ty} {n k : Nat}

/-! ### Erasures -/

theorem exists_forall₂ {α β : Type} {r : α → β → Prop} {xs} (h : ∀ x ∈ xs, ∃ y, r x y) :
    ∃ ys, Forall₂ r xs ys := by
  induction xs with
  | nil => exact ⟨[], .nil⟩
  | cons x xs ih =>
    obtain ⟨y, hy⟩ := h x mem_cons_self
    obtain ⟨ys, hys⟩ := ih fun z hz => h z (mem_cons_of_mem x hz)
    exact ⟨y :: ys, .cons hy hys⟩

theorem exists_settles_eraseWith_declared (ht : t.kind = .declared) :
    ∃ e, ∀ lub : Nat → List Ty → Result (List Ty),
      Settles (fun k => tbl.eraseWith (lub k) k t) e := by
  obtain ⟨c, args, owner, marks, rfl⟩ := Ty.exists_eq_declared ht
  exact ⟨_, Erases.declared.settles_eraseWith⟩

/-- The erasure of a type variable is that of its first bound. -/
theorem settles_eraseWith_var {v b e} (hts : tbl.boundsOf v = .ok (b :: ts))
    (he : ∀ lub : Nat → List Ty → Result (List Ty), Settles (fun k => tbl.eraseWith (lub k) k b) e)
    (lub : Nat → List Ty → Result (List Ty)) :
    Settles (fun k => tbl.eraseWith (lub k) k (.var n v marks)) e := by
  cases ts with
  | nil =>
    refine (he fun k => lub (k + 1)).step rfl fun k => ?_
    rw [eraseWith, upperBound, hts]
    rfl
  | cons b' ts =>
    have hmeet : Settles
        (fun k => tbl.eraseWith (lub (k + 1)) k (.intersection 0 (b :: b' :: ts))) e :=
      (he fun k => lub (k + 2)).step rfl fun k => rfl
    refine hmeet.step rfl fun k => ?_
    rw [eraseWith, upperBound, hts]
    rfl

theorem Grounded.exists_settles_eraseWith_var (h : tbl.Grounded) (hbounds : tbl.BoundedByUses)
    (n : Nat) (v : TypeVarId) (marks : List ClassId) :
    ∃ e, ∀ lub : Nat → List Ty → Result (List Ty),
      Settles (fun k => tbl.eraseWith (lub k) k (.var n v marks)) e := by
  induction v using h.induction generalizing n marks with
  | _ v ih =>
    obtain ⟨ts, hts, huses⟩ := hbounds v
    obtain ⟨b, ts, rfl⟩ := exists_cons_of_ne_nil (ne_nil_of_boundsOf hts)
    have hb : ∃ e, ∀ lub : Nat → List Ty → Result (List Ty),
        Settles (fun k => tbl.eraseWith (lub k) k b) e := by
      rcases huses b mem_cons_self with hdeclared | ⟨n', w, ms, rfl⟩
      · exact exists_settles_eraseWith_declared hdeclared
      · exact ih w ⟨_, n', ms, hts, mem_cons_self⟩ n' ms
    exact hb.imp fun e he => settles_eraseWith_var hts he

/-- A type has an erasure, if the bounds of type variables are not circular. -/
theorem Ascending.exists_settles_eraseWith (h : tbl.Grounded) (hbounds : tbl.BoundedByUses)
    (ht : Ascending captures t) :
    ∃ e, ∀ lub : Nat → List Ty → Result (List Ty),
      Settles (fun k => tbl.eraseWith (lub k) k t) e := by
  induction ht with
  | @flat t hflat =>
    refine ⟨t, fun lub => (Settles.ok t).step rfl fun k => ?_⟩
    cases t <;> first | rfl | cases hflat
  | use hformed => exact exists_settles_eraseWith_declared hformed.kind
  | var n v marks => exact h.exists_settles_eraseWith_var hbounds n v marks
  | captured _ _ ih | wildcard _ _ ih =>
    obtain ⟨e, he⟩ := ih
    exact ⟨e, fun lub => (he fun k => lub (k + 1)).step rfl fun k => rfl⟩
  | @intersection n bounds hne _ ih =>
    obtain ⟨b, bounds, rfl⟩ := exists_cons_of_ne_nil hne
    obtain ⟨e, he⟩ := ih b mem_cons_self
    exact ⟨e, fun lub => (he fun k => lub (k + 1)).step rfl fun k => rfl⟩
  | @array component marks _ _ ih =>
    obtain ⟨e, he⟩ := ih
    refine ⟨.array e marks, fun lub => ?_⟩
    exact ((he fun k => lub (k + 1)).bind (g := fun x _ => .ok (.array x marks)) (.ok _)).step rfl
      fun k => rfl

/-! ### Erased supertypes -/

/-- The erased supertypes of a type are the erasures of the type and its proper supertypes. -/
theorem settles_erasedSupertypes {es}
    (hts : Settles
      (fun k => (tbl.ancestorsWith (tbl.leastUpperBounds k) k t : Result (List Ty))) ts)
    (hes : Forall₂ (fun x e => Settles (fun k => tbl.erase k x) e) ts es) :
    Settles (fun k => (tbl.erasedSupertypes k (tbl.lub k) t : Result (List Ty))) (Ty.distinct es) :=
  hts.bind ((Settles.mapM hes).bind (g := fun es _ => .ok (Ty.distinct es)) (.ok _))

theorem Searched.mem_property {p} (hp : tbl.Respects p) (ht : p t)
    (h : tbl.Searched t [] ts.reverse) : ∀ x ∈ ts, p x := by
  intro x hx
  obtain ⟨n, hn⟩ := h.met x (mem_reverse.mpr hx)
  exact hn.of_property ht hp.stepsUp

theorem BoundedByUses.boundedByReferences (h : tbl.BoundedByUses) :
    tbl.BoundedByReferences captures := by
  intro v ts hts b hb
  obtain ⟨us, hus, huses⟩ := h v
  cases hts.symm.trans hus
  rcases huses b hb with hdeclared | ⟨n, w, marks, rfl⟩
  · obtain ⟨c, args, owner, marks, rfl⟩ := Ty.exists_eq_declared hdeclared
    exact .use
  · exact .var

/-- A reference type has erased supertypes, none of which is primitive. -/
theorem Referential.exists_erasedSupertypes (h : tbl.Orderly) (hbounds : tbl.BoundedByUses)
    (hgrounded : tbl.Grounded) (ht : Referential captures t) (hasc : Ascending captures t) :
    ∃ es, Settles (fun k => (tbl.erasedSupertypes k (tbl.lub k) t : Result (List Ty))) es ∧
      ∀ e ∈ es, e.isPrimitive = false := by
  obtain ⟨ts, hts, hsearched⟩ := hasc.exists_searched h hbounds
  have hall := hsearched.mem_property (Ascending.respects h hbounds captures) hasc
  have herases : ∀ x ∈ t :: ts, ∃ e, Settles (fun k => tbl.erase k x) e := fun x hx =>
    ((hall x hx).exists_settles_eraseWith hgrounded hbounds).imp fun e he => he fun k =>
      tbl.leastUpperBounds k
  obtain ⟨es, hes⟩ := exists_forall₂ herases
  have hsettles := settles_erasedSupertypes hts hes
  refine ⟨_, hsettles, ?_⟩
  obtain ⟨k, hk⟩ := hsettles.1
  intro e he
  exact ((h.erased_of_erasedSupertypes hbounds.boundedByReferences ht (hk k (Nat.le_refl k))).1 e
    he).isPrimitive

/-- The erased supertypes of a primitive type are the types that it widens to. -/
theorem exists_erasedSupertypes_primitive (tbl : Table) (p : Primitive) (marks : List ClassId) :
    ∃ es, Settles (fun k => (tbl.erasedSupertypes k (tbl.lub k) (.primitive p marks) :
        Result (List Ty))) es ∧
      (∀ e ∈ es, ∃ q ms, e = .primitive q ms ∧ p.widensTo q = true) ∧
      ∀ q ms, p.widensTo q = true → (Ty.primitive q ms).isIn es = true := by
  let above (x : Ty) : Prop := ∃ q ms, x = .primitive q ms ∧ p.widensTo q = true
  have hrespects : tbl.Respects above := by
    refine ⟨?_, ?_⟩
    · rintro x y ⟨q, ms, rfl, hq⟩ hy
      obtain ⟨r, hr, rfl⟩ := mem_map.mp (stepsUp_primitive.mp hy)
      have hnext := Primitive.widensTo_of_next (Option.mem_toList.mp hr) (Primitive.widensTo_refl r)
      rw [Primitive.widensTo_iff] at hq hnext
      exact ⟨r, [], rfl, Primitive.widensTo_iff.mpr (hq.trans hnext)⟩
    · rintro _ _ s ⟨q, ms, rfl, -⟩ ⟨q', ms', rfl, -⟩ hsame hs
      obtain rfl : q = q' := by simpa [Ty.same] using hsame
      exact ⟨s, stepsUp_primitive.mpr (stepsUp_primitive.mp hs), Ty.same_refl s⟩
  have ht : above (.primitive p marks) := ⟨p, marks, rfl, Primitive.widensTo_refl p⟩
  have hdirect (x : Ty) (hx : above x) :
      ∃ xs, Settles (fun k => (tbl.directSupertypes k x : Result (List Ty))) xs := by
    obtain ⟨q, ms, rfl, -⟩ := hx
    simp only [directSupertypes_eq]
    exact ⟨_, .ok _⟩
  obtain ⟨ts, hts, hsearched⟩ := hrespects.exists_searched hdirect ht
    (finite_above_primitive p marks)
  have hall := hsearched.mem_property hrespects ht
  have herases : Forall₂ (fun x e => Settles (fun k => tbl.erase k x) e)
      (.primitive p marks :: ts) (.primitive p marks :: ts) := by
    refine forall₂_same.mpr fun x hx => ?_
    obtain ⟨q, ms, rfl, -⟩ := hall x hx
    exact (Settles.ok _).step rfl fun k => rfl
  refine ⟨_, settles_erasedSupertypes hts herases, fun e he => hall e (mem_of_mem_distinct he),
    fun q ms hq => ?_⟩
  have hreached : ∃ n ms, tbl.ReachedIn (.primitive p marks) n (.primitive q ms) := by
    rw [Primitive.widensTo_iff] at hq
    induction hq with
    | refl => exact ⟨0, marks, .start⟩
    | @tail q r _ hr ih =>
      obtain ⟨n, ms, hn⟩ := ih
      exact ⟨n + 1, [], hn.step (stepsUp_primitive.mpr
        (mem_map.mpr ⟨r, Option.mem_toList.mpr hr, rfl⟩))⟩
  obtain ⟨n, ms', hn⟩ := hreached
  have hin := hsearched.isIn_of_lt hrespects ht hn (forall_mem_nil _)
  obtain ⟨x, hx, hsame⟩ := any_eq_true.mp hin
  have hmarks : (Ty.primitive q ms).same (.primitive q ms') = true := Ty.same_of_bare_eq rfl
  exact isIn_of_same (Ty.same_trans hmarks hsame) (isIn_distinct (mem_reverse.mp hx))

/-! ### Stages of the computation -/

theorem settles_commonErasedSupertypes {es ess}
    (ht : Settles (fun k => (tbl.erasedSupertypes k (tbl.lub k) t : Result (List Ty))) es)
    (htypes : Forall₂ (fun s os =>
      Settles (fun k => (tbl.erasedSupertypes k (tbl.lub k) s : Result (List Ty))) os) types ess) :
    Settles (fun k => (tbl.commonErasedSupertypes k (tbl.lub k) (t :: types) : Result (List Ty)))
      (es.filter fun c => ess.all (c.isIn ·)) := by
  have hfold (kept : List Ty) : Settles (fun k => (types.foldlM (fun kept s => do
      let others ← tbl.erasedSupertypes k (tbl.lub k) s
      return kept.filter (·.isIn others)) kept : Result (List Ty)))
      (kept.filter fun c => ess.all (c.isIn ·)) := by
    induction htypes generalizing kept with
    | nil =>
      have hkept : kept.filter (fun c => ([] : List (List Ty)).all (c.isIn ·)) = kept :=
        filter_eq_self.mpr fun _ _ => rfl
      exact hkept.symm ▸ .ok kept
    | @cons s os types ess hs _ ih =>
      have hstep := (hs.bind (g := fun others _ => .ok (kept.filter (·.isIn others))) (.ok _)).bind
        (g := fun kept k => (types.foldlM (fun kept s => do
          let others ← tbl.erasedSupertypes k (tbl.lub k) s
          return kept.filter (·.isIn others)) kept : Result (List Ty))) (ih _)
      have hkept : kept.filter (fun c => (os :: ess).all (c.isIn ·)) =
          (kept.filter (·.isIn os)).filter fun c => ess.all (c.isIn ·) := by
        rw [filter_filter]
        exact filter_congr fun c _ => Bool.and_comm _ _
      exact hkept.symm ▸ hstep
  exact ht.bind (hfold es)

/-- What types have in common, if it is known what is above each of them. -/
theorem exists_settles_commonErasedSupertypes {p : Ty → Ty → Prop} (hne : types ≠ [])
    (h : ∀ t ∈ types, ∃ es, Settles (fun k => (tbl.erasedSupertypes k (tbl.lub k) t :
      Result (List Ty))) es ∧ ∀ b : Ty, b.isIn es = true ↔ p t b) :
    ∃ cs, Settles (fun k => (tbl.commonErasedSupertypes k (tbl.lub k) types : Result (List Ty)))
      cs ∧ ∀ b : Ty, b.isIn cs = true ↔ ∀ t ∈ types, p t b := by
  obtain ⟨ess, hess⟩ := exists_forall₂ h
  have hall (b : Ty) : (∀ es ∈ ess, b.isIn es = true) ↔ ∀ t ∈ types, p t b := by
    refine ⟨fun hb t ht => ?_, fun hb es hes => ?_⟩
    · obtain ⟨es, hes, -, hin⟩ := exists_of_forall₂_left hess ht
      exact (hin b).mp (hb es hes)
    · obtain ⟨t, ht, -, hin⟩ := exists_of_forall₂_right hess hes
      exact (hin b).mpr (hb t ht)
  cases hess with
  | nil => exact absurd rfl hne
  | @cons t es types ess ht htypes =>
    refine ⟨_, settles_commonErasedSupertypes ht.1 (htypes.imp fun _ _ h => h.1), fun b => ?_⟩
    rw [← hall b, forall_mem_cons]
    refine ⟨fun hb => ?_, fun ⟨hb, hbs⟩ => ?_⟩
    · obtain ⟨c, hc, hsame⟩ := any_eq_true.mp hb
      obtain ⟨hc, hcs⟩ := mem_filter.mp hc
      refine ⟨any_eq_true.mpr ⟨c, hc, hsame⟩, fun os hos => ?_⟩
      exact isIn_of_same hsame (all_eq_true.mp hcs os hos)
    · obtain ⟨c, hc, hsame⟩ := any_eq_true.mp hb
      refine any_eq_true.mpr ⟨c, mem_filter.mpr ⟨hc, all_eq_true.mpr fun os hos => ?_⟩,
        hsame⟩
      exact isIn_of_same (Ty.same_symm hsame) (hbs os hos)

theorem leastUpperBounds_eq_lub (hpseudo : ∀ x ∈ types, x.isPseudo = false)
    (h : Ty.distinct types = s :: t :: several) (k : Nat) :
    (tbl.leastUpperBounds k types : Result (List Ty)) =
      (tbl.lub k [] (s :: t :: several)).run' [] := by
  have hfind : types.find? Ty.isPseudo = none :=
    List.find?_eq_none.mpr fun x hx => by simp [hpseudo x hx]
  cases types with
  | nil => cases h
  | cons x types =>
    unfold leastUpperBounds leastUpperBoundsWith
    simp only [hfind, h]

theorem mapM_parameterize {lub active ms} (h : ∀ m ∈ ms, m.kind ≠ .declared) :
    ms.mapM (tbl.parameterize n lub active types) = (pure ms : BoundsM Result (List Ty)) := by
  induction ms with
  | nil => rfl
  | cons m ms ih =>
    obtain ⟨hm, hms⟩ := forall_mem_cons.mp h
    have hhead : tbl.parameterize n lub active types m = (pure m : BoundsM Result Ty) := by
      cases m <;> first | rfl | exact absurd rfl hm
    rw [mapM_cons, hhead, pure_bind, ih hms, pure_bind]

/-- The bounds of two types or more whose minimal common erased supertypes are no uses of classes.
The null type does not count. -/
theorem settles_leastUpperBounds {cs ms} (hpseudo : ∀ x ∈ types, x.isPseudo = false)
    (hfilter : (Ty.distinct types).filter (fun x => !x.isNull) = s :: t :: several)
    (hcs : Settles (fun k => (tbl.commonErasedSupertypes k (tbl.lub k) (s :: t :: several) :
      Result (List Ty))) cs) (hms : Settles (fun k => tbl.minimalTypes k cs) ms)
    (hplain : ∀ m ∈ ms, m.kind ≠ .declared) :
    Settles (fun k => (tbl.leastUpperBounds k types : Result (List Ty))) (tbl.classFirst ms) := by
  obtain ⟨x, y, rest, hdistinct⟩ : ∃ x y rest, Ty.distinct types = x :: y :: rest := by
    match hdistinct : Ty.distinct types with
    | [] | [_] =>
      have hlength := congrArg List.length hfilter
      have hle := length_filter_le (fun x : Ty => !x.isNull) (Ty.distinct types)
      rw [hlength, hdistinct] at hle
      simp at hle
    | x :: y :: rest => exact ⟨x, y, rest, rfl⟩
  simp only [leastUpperBounds_eq_lub hpseudo hdistinct]
  rw [hdistinct] at hfilter
  have hbounds := hcs.bind (g := fun cs k => tbl.minimalTypes k cs >>= fun ms =>
    (fun r => tbl.classFirst r.1) <$>
      (ms.mapM (tbl.parameterize k (tbl.lub k) [s :: t :: several] (s :: t :: several))).run [])
    (hms.bind (by simp only [mapM_parameterize hplain]; exact .ok _))
  refine hbounds.step rfl fun k => ?_
  change Prod.fst <$> StateT.run (tbl.lubStep k (tbl.lub k) [] (x :: y :: rest)) [] = _
  rw [run_lubStep_nil hfilter]
  simp [computeBounds]

/-- If only one type is left without repetitions and null types, then it is the bound. -/
theorem exists_settles_leastUpperBounds_of_single (tbl : Table)
    (hpseudo : ∀ x ∈ types, x.isPseudo = false)
    (hfilter : (Ty.distinct types).filter (fun x => !x.isNull) = [u]) :
    ∃ b, b.same u = true ∧
      Settles (fun k => (tbl.leastUpperBounds k types : Result (List Ty))) [b] := by
  match hdistinct : Ty.distinct types with
  | [] => rw [hdistinct] at hfilter; cases hfilter
  | [x] =>
    obtain rfl : x = u := by
      have hu := mem_of_mem_filter (hfilter ▸ mem_singleton_self u)
      exact (mem_singleton.mp (hdistinct ▸ hu)).symm
    cases types with
    | nil => cases hdistinct
    | cons b types =>
      have hfind : (b :: types).find? Ty.isPseudo = none :=
        List.find?_eq_none.mpr fun x hx => by simp [hpseudo x hx]
      refine ⟨b, ?_, ?_⟩
      · have hin := isIn_distinct (mem_cons_self (a := b) (l := types))
        rw [hdistinct] at hin
        simpa [Ty.isIn] using hin
      · simp only [leastUpperBounds, leastUpperBoundsWith, hfind, hdistinct]
        exact .ok [b]
  | x :: y :: rest =>
    refine ⟨u, Ty.same_refl u, ?_⟩
    simp only [leastUpperBounds_eq_lub hpseudo hdistinct]
    refine (Settles.ok [u]).step rfl fun k => ?_
    change Prod.fst <$> StateT.run (tbl.lubStep k (tbl.lub k) [] (x :: y :: rest)) [] = _
    unfold lubStep
    rw [← hdistinct, hfilter]
    rfl

/-! ### Primitive types -/

theorem exists_eq_primitive (h : t.isPrimitive = true) : ∃ p marks, t = .primitive p marks := by
  cases t with
  | primitive p marks => exact ⟨p, marks, rfl⟩
  | _ => cases h

theorem isPrimitive_of_same (h : s.same t = true) : s.isPrimitive = t.isPrimitive :=
  Ty.isPrimitive_of_kind_eq (Ty.kind_eq_of_same h)

theorem settles_isSubtype_primitive (tbl : Table) (p q : Primitive) (marks marks' : List ClassId) :
    Settles (fun k => tbl.isSubtype k (.primitive p marks) (.primitive q marks'))
      (p.widensTo q) := by
  refine (Settles.ok _).step rfl fun k => ?_
  cases p <;> cases q <;> rfl

theorem confirmed_primitive_iff {p q marks'} :
    tbl.Confirmed (.primitive p marks) (.primitive q marks') ↔ p.widensTo q = true := by
  have hsettles := settles_isSubtype_primitive tbl p q marks marks'
  exact ⟨fun h => h.eq hsettles, fun h => by rwa [h] at hsettles⟩

/-- The type is primitive, and all primitive types of the list are below it. -/
def BoundsPrimitives (tbl : Table) (types : List Ty) (b : Ty) : Prop :=
  b.isPrimitive = true ∧ ∀ t ∈ types, t.isPrimitive = true → tbl.Confirmed t b

theorem BoundsPrimitives.of_cover {types' b} (h : tbl.BoundsPrimitives types b)
    (hcover : ∀ t ∈ types', t.isPrimitive = true → ∃ s ∈ types, t.same s = true) :
    tbl.BoundsPrimitives types' b := by
  refine ⟨h.1, fun t ht hprimitive => ?_⟩
  obtain ⟨s, hs, hsame⟩ := hcover t ht hprimitive
  have hbelow := h.2 s hs (isPrimitive_of_same hsame ▸ hprimitive)
  obtain ⟨p, marks, rfl⟩ := exists_eq_primitive hprimitive
  obtain ⟨q, marks', rfl⟩ := exists_eq_primitive h.1
  obtain ⟨p', marks'', rfl⟩ := exists_eq_primitive (isPrimitive_of_same hsame ▸ hprimitive)
  obtain rfl : p = p' := by simpa [Ty.same] using hsame
  exact confirmed_primitive_iff.mpr (confirmed_primitive_iff.mp hbelow)

/-- The common erased supertypes of primitive types are the primitive types above all of them. -/
theorem exists_commonErasedSupertypes_primitive (tbl : Table) (hne : types ≠ [])
    (hall : ∀ t ∈ types, t.isPrimitive = true) :
    ∃ cs, Settles (fun k => (tbl.commonErasedSupertypes k (tbl.lub k) types : Result (List Ty)))
      cs ∧ ∀ b : Ty, b.isIn cs = true ↔ tbl.BoundsPrimitives types b := by
  have hexists (t : Ty) (ht : t ∈ types) : ∃ es,
      Settles (fun k => (tbl.erasedSupertypes k (tbl.lub k) t : Result (List Ty))) es ∧
        ∀ b : Ty, b.isIn es = true ↔ b.isPrimitive = true ∧ tbl.Confirmed t b := by
    obtain ⟨p, marks, rfl⟩ := exists_eq_primitive (hall t ht)
    obtain ⟨es, hes, hmem, hin⟩ := exists_erasedSupertypes_primitive tbl p marks
    refine ⟨es, hes, fun b => ⟨fun hb => ?_, fun ⟨hb, hbelow⟩ => ?_⟩⟩
    · obtain ⟨e, he, hsame⟩ := any_eq_true.mp hb
      obtain ⟨q, ms, rfl, hq⟩ := hmem e he
      obtain ⟨q', ms', rfl⟩ := exists_eq_primitive ((isPrimitive_of_same hsame).trans rfl)
      obtain rfl : q' = q := by simpa [Ty.same] using hsame
      exact ⟨rfl, confirmed_primitive_iff.mpr hq⟩
    · obtain ⟨q, ms, rfl⟩ := exists_eq_primitive hb
      exact hin q ms (confirmed_primitive_iff.mp hbelow)
  obtain ⟨cs, hcs, hin⟩ := exists_settles_commonErasedSupertypes hne hexists
  refine ⟨cs, hcs, fun b => (hin b).trans ⟨fun hb => ?_,
    fun hb t ht => ⟨hb.1, hb.2 t ht (hall t ht)⟩⟩⟩
  obtain ⟨t, ht⟩ := exists_mem_of_ne_nil types hne
  exact ⟨(hb t ht).1, fun t ht _ => (hb t ht).2⟩

theorem confirmed_of_same_primitive (hs : s.isPrimitive = true) (h : s.same t = true) :
    tbl.Confirmed s t := by
  obtain ⟨p, marks, rfl⟩ := exists_eq_primitive hs
  obtain ⟨q, marks', rfl⟩ := exists_eq_primitive (isPrimitive_of_same h ▸ hs)
  obtain rfl : p = q := by simpa [Ty.same] using h
  exact confirmed_primitive_iff.mpr (Primitive.widensTo_refl p)

section Order

variable (hs : s.isPrimitive = true) (ht : t.isPrimitive = true) (hu : u.isPrimitive = true)

include hs ht

theorem same_of_confirmed_primitive (hst : tbl.Confirmed s t) (hts : tbl.Confirmed t s) :
    s.same t = true := by
  obtain ⟨p, marks, rfl⟩ := exists_eq_primitive hs
  obtain ⟨q, marks', rfl⟩ := exists_eq_primitive ht
  rw [confirmed_primitive_iff] at hst hts
  rw [Primitive.widensTo_antisymm hst hts]
  exact Ty.same_of_bare_eq rfl

include hu

theorem confirmed_trans_primitive (hst : tbl.Confirmed s t) (htu : tbl.Confirmed t u) :
    tbl.Confirmed s u := by
  obtain ⟨p, marks, rfl⟩ := exists_eq_primitive hs
  obtain ⟨q, marks', rfl⟩ := exists_eq_primitive ht
  obtain ⟨r, marks'', rfl⟩ := exists_eq_primitive hu
  rw [confirmed_primitive_iff, Primitive.widensTo_iff] at hst htu ⊢
  exact hst.trans htu

/-- Of two types above a primitive type, one is below the other. -/
theorem confirmed_or_confirmed_primitive (hst : tbl.Confirmed s t) (hsu : tbl.Confirmed s u) :
    tbl.Confirmed t u ∨ tbl.Confirmed u t := by
  obtain ⟨p, marks, rfl⟩ := exists_eq_primitive hs
  obtain ⟨q, marks', rfl⟩ := exists_eq_primitive ht
  obtain ⟨r, marks'', rfl⟩ := exists_eq_primitive hu
  rw [confirmed_primitive_iff] at hst hsu ⊢
  rw [confirmed_primitive_iff]
  exact Primitive.widensTo_or_widensTo hst hsu

end Order

/-- Of the primitive types above a primitive type, one is minimal. -/
theorem exists_minimalTypes_primitive {cs} (hseparate : Ty.Separate cs) (hs : s.isPrimitive = true)
    (hcs : ∀ c ∈ cs, c.isPrimitive = true ∧ tbl.Confirmed s c) :
    ∃ ms, Settles (fun k => tbl.minimalTypes k cs) ms ∧ (∀ m ∈ ms, m ∈ cs) ∧ ms.length ≤ 1 ∧
      (ms = [] → cs = []) := by
  have hdecided : tbl.Decided cs := by
    intro x hx y hy
    obtain ⟨p, marks, rfl⟩ := exists_eq_primitive (hcs x hx).1
    obtain ⟨q, marks', rfl⟩ := exists_eq_primitive (hcs y hy).1
    exact ⟨_, settles_isSubtype_primitive tbl p q marks marks'⟩
  obtain ⟨ms, hms, hsublist, hminimal⟩ := hdecided.exists_minimalTypes
  refine ⟨ms, hms, fun m hm => hsublist.subset hm, ?_, fun hnil => ?_⟩
  · have hseparate := List.Pairwise.sublist hsublist hseparate
    match ms with
    | [] | [_] => simp
    | m :: m' :: rest =>
      have hne := (pairwise_cons.mp hseparate).1 m' mem_cons_self
      obtain ⟨hm, hmin⟩ := (hminimal m).mp mem_cons_self
      obtain ⟨hm', hmin'⟩ := (hminimal m').mp (mem_cons_of_mem m mem_cons_self)
      rcases confirmed_or_confirmed_primitive hs (hcs m hm).1 (hcs m' hm').1 (hcs m hm).2
        (hcs m' hm').2 with h | h
      · cases hne.symm.trans (hmin' m hm h)
      · cases hne.symm.trans (Ty.same_symm (hmin m' hm' h))
  · refine eq_nil_iff_forall_not_mem.mpr fun c hc => ?_
    have htrans (x : Ty) (hx : x ∈ cs) (y : Ty) (hy : y ∈ cs) (z : Ty) (hz : z ∈ cs)
        (hxy : tbl.Confirmed x y) (hyz : tbl.Confirmed y z) : tbl.Confirmed x z :=
      confirmed_trans_primitive (hcs x hx).1 (hcs y hy).1 (hcs z hz).1 hxy hyz
    obtain ⟨x, hx, -, hmin⟩ := Ty.exists_minimal htrans (fun x hx y hy z hz hxy hyz hxz =>
      have hzx := confirmed_of_same_primitive (hcs z hz).1 (Ty.same_symm hxz)
      same_of_confirmed_primitive (hcs x hx).1 (hcs y hy).1 hxy (htrans y hy z hz x hx hyz hzx)) hc
      (confirmed_of_same_primitive (hcs c hc).1 (Ty.same_refl c))
    exact not_mem_nil (hnil ▸ (hminimal x).mpr ⟨hx, hmin⟩)

/-! ### Lists with primitive types -/

/-- The types that are bounded: each once, and no null types. -/
def bounded (types : List Ty) : List Ty :=
  (Ty.distinct types).filter fun t => !t.isNull

theorem mem_of_mem_bounded (h : t ∈ bounded types) : t ∈ types ∧ t.isNull = false := by
  obtain ⟨ht, hnull⟩ := mem_filter.mp h
  exact ⟨mem_of_mem_distinct ht, (Bool.not_eq_true' _).mp hnull⟩

theorem exists_mem_bounded (ht : t ∈ types) (hnull : t.isNull = false) :
    ∃ s ∈ bounded types, t.same s = true := by
  obtain ⟨s, hs, hsame⟩ := any_eq_true.mp (isIn_distinct ht)
  refine ⟨s, mem_filter.mpr ⟨hs, ?_⟩, hsame⟩
  have hkind (x : Ty) : x.isNull = (x.kind == .null) := by cases x <;> rfl
  rw [hkind, ← Ty.kind_eq_of_same hsame, ← hkind, hnull]
  rfl

theorem isNull_of_isPrimitive (h : t.isPrimitive = true) : t.isNull = false := by
  cases t <;> first | rfl | cases h

theorem boundsPrimitives_bounded_iff {b} :
    tbl.BoundsPrimitives (bounded types) b ↔ tbl.BoundsPrimitives types b :=
  ⟨fun h => h.of_cover fun _ ht hprimitive => exists_mem_bounded ht
    (isNull_of_isPrimitive hprimitive),
    fun h => h.of_cover fun t ht _ => ⟨t, (mem_of_mem_bounded ht).1, Ty.same_refl t⟩⟩

/-- The least upper bound of primitive types is found among the primitive types. -/
theorem exists_leastUpperBounds_of_primitives (hprimitive : ∃ t ∈ types, t.isPrimitive = true)
    (hall : ∀ t ∈ types, t.isPrimitive = true ∨ t.isNull = true) :
    ∃ bs, Settles (fun k => (tbl.leastUpperBounds k types : Result (List Ty))) bs ∧
      bs.length ≤ 1 ∧ (∀ b ∈ bs, tbl.BoundsPrimitives types b) ∧
      (bs = [] ↔ ¬∃ b, tbl.BoundsPrimitives types b) := by
  have hpseudo (t : Ty) (ht : t ∈ types) : t.isPseudo = false := by
    rcases hall t ht with h | h <;> cases t <;> first | rfl | cases h
  have hkept (t : Ty) (ht : t ∈ bounded types) : t.isPrimitive = true := by
    obtain ⟨ht, hnull⟩ := mem_of_mem_bounded ht
    exact (hall t ht).resolve_right fun h => by cases hnull.symm.trans h
  have hiff (b : Ty) : tbl.BoundsPrimitives types b ↔ tbl.BoundsPrimitives (bounded types) b :=
    boundsPrimitives_bounded_iff.symm
  simp only [hiff]
  match hbounded : bounded types with
  | [] =>
    obtain ⟨t, ht, hprimitive⟩ := hprimitive
    obtain ⟨s, hs, -⟩ := exists_mem_bounded ht (isNull_of_isPrimitive hprimitive)
    rw [hbounded] at hs
    cases hs
  | [u] =>
    have hu : u.isPrimitive = true := hkept u (hbounded ▸ mem_singleton_self u)
    obtain ⟨b, hsame, hb⟩ := exists_settles_leastUpperBounds_of_single tbl hpseudo hbounded
    have hbounds : tbl.BoundsPrimitives [u] b :=
      ⟨isPrimitive_of_same hsame ▸ hu, forall_mem_singleton.mpr fun _ =>
        confirmed_of_same_primitive hu (Ty.same_symm hsame)⟩
    exact ⟨[b], hb, Nat.le_refl 1, forall_mem_singleton.mpr hbounds,
      fun h => (cons_ne_nil b [] h).elim, fun h => absurd ⟨b, hbounds⟩ h⟩
  | s :: t :: rest =>
    rw [hbounded] at hkept
    obtain ⟨cs, hcs, hin⟩ := exists_commonErasedSupertypes_primitive tbl
      (cons_ne_nil s (t :: rest)) hkept
    have hmem (c : Ty) (hc : c ∈ cs) : tbl.BoundsPrimitives (s :: t :: rest) c :=
      (hin c).mp (any_eq_true.mpr ⟨c, hc, Ty.same_refl c⟩)
    have hs := hkept s mem_cons_self
    obtain ⟨k, hk⟩ := hcs.1
    have habove (c : Ty) (hc : c ∈ cs) : c.isPrimitive = true ∧ tbl.Confirmed s c :=
      ⟨(hmem c hc).1, (hmem c hc).2 s mem_cons_self hs⟩
    obtain ⟨ms, hms, hsub, hlength, hnil⟩ := exists_minimalTypes_primitive
      (separate_of_commonErasedSupertypes (hk k (Nat.le_refl k))) hs habove
    have hplain (m : Ty) (hm : m ∈ ms) : m.kind ≠ .declared := by
      obtain ⟨p, marks, rfl⟩ := exists_eq_primitive (hmem m (hsub m hm)).1
      nofun
    have hperm : (tbl.classFirst ms).Perm ms := perm_classFirst ms
    refine ⟨_, settles_leastUpperBounds hpseudo hbounded hcs hms hplain, hperm.length_eq ▸ hlength,
      fun b hb => hmem b (hsub b (hperm.mem_iff.mp hb)), fun hbs => ?_, fun hnone => ?_⟩
    · rintro ⟨b, hb⟩
      have hempty : cs = [] := hnil (List.Perm.eq_nil (hbs ▸ hperm.symm))
      have hb := (hin b).mpr hb
      rw [hempty] at hb
      cases hb
    · refine eq_nil_iff_forall_not_mem.mpr fun b hb => hnone ⟨b, ?_⟩
      exact hmem b (hsub b (hperm.mem_iff.mp hb))

/-- A primitive type and a reference type have nothing in common above them. -/
theorem settles_leastUpperBounds_of_references (h : tbl.Orderly) (hbounds : tbl.BoundedByUses)
    (hgrounded : tbl.Grounded) (hall : ∀ t ∈ types, t.isPrimitive = true ∨ t.isNull = true ∨
      Referential captures t ∧ t.Every (Admissible captures))
    (hprimitive : ∃ t ∈ types, t.isPrimitive = true)
    (hreference : ∃ t ∈ types, t.isPrimitive = false ∧ t.isNull = false) :
    Settles (fun k => (tbl.leastUpperBounds k types : Result (List Ty))) [] := by
  have hpseudo (t : Ty) (ht : t ∈ types) : t.isPseudo = false := by
    rcases hall t ht with h | h | ⟨h, -⟩
    · cases t <;> first | rfl | cases h
    · cases t <;> first | rfl | cases h
    · exact h.isPseudo
  have herased (t : Ty) (ht : t ∈ bounded types) : ∃ es,
      Settles (fun k => (tbl.erasedSupertypes k (tbl.lub k) t : Result (List Ty))) es ∧
        ∀ e ∈ es, e.isPrimitive = t.isPrimitive := by
    obtain ⟨ht, hnull⟩ := mem_of_mem_bounded ht
    rcases hall t ht with hprimitive | hnull' | ⟨href, hevery⟩
    · obtain ⟨p, marks, rfl⟩ := exists_eq_primitive hprimitive
      obtain ⟨es, hes, hmem, -⟩ := exists_erasedSupertypes_primitive tbl p marks
      refine ⟨es, hes, fun e he => ?_⟩
      obtain ⟨q, ms, rfl, -⟩ := hmem e he
      rfl
    · cases hnull.symm.trans hnull'
    · obtain ⟨es, hes, hmem⟩ :=
        href.exists_erasedSupertypes h hbounds hgrounded (ascending_of_every hevery)
      exact ⟨es, hes, fun e he => (hmem e he).trans href.isPrimitive.symm⟩
  obtain ⟨x, hx, hxp⟩ : ∃ x ∈ bounded types, x.isPrimitive = true := by
    obtain ⟨t, ht, hprimitive⟩ := hprimitive
    obtain ⟨x, hx, hsame⟩ := exists_mem_bounded ht (isNull_of_isPrimitive hprimitive)
    exact ⟨x, hx, isPrimitive_of_same hsame ▸ hprimitive⟩
  obtain ⟨y, hy, hyp⟩ : ∃ y ∈ bounded types, y.isPrimitive = false := by
    obtain ⟨t, ht, hprimitive, hnull⟩ := hreference
    obtain ⟨y, hy, hsame⟩ := exists_mem_bounded ht hnull
    exact ⟨y, hy, isPrimitive_of_same hsame ▸ hprimitive⟩
  match hbounded : bounded types with
  | [] => rw [hbounded] at hx; cases hx
  | [u] =>
    rw [hbounded, mem_singleton] at hx hy
    rw [← hx] at hy
    cases hxp.symm.trans (hy ▸ hyp)
  | s :: t :: rest =>
    rw [hbounded] at herased hx hy
    obtain ⟨cs, hcs, hin⟩ := exists_settles_commonErasedSupertypes
      (p := fun z b => ∃ es, Settles (fun k => (tbl.erasedSupertypes k (tbl.lub k) z :
        Result (List Ty))) es ∧ b.isIn es = true) (cons_ne_nil s (t :: rest)) fun z hz =>
        (herased z hz).imp fun es ⟨hes, _⟩ =>
          ⟨hes, fun b => ⟨fun hb => ⟨es, hes, hb⟩, fun ⟨_, hos, hb⟩ => hes.eq hos ▸ hb⟩⟩
    have hkind (c z : Ty) (hc : c ∈ cs) (hz : z ∈ s :: t :: rest) :
        c.isPrimitive = z.isPrimitive := by
      obtain ⟨es, hes, hmem⟩ := herased z hz
      obtain ⟨os, hos, hc⟩ := (hin c).mp (any_eq_true.mpr ⟨c, hc, Ty.same_refl c⟩) z hz
      obtain ⟨e, he, hsame⟩ := any_eq_true.mp (hes.eq hos ▸ hc)
      exact (isPrimitive_of_same hsame).trans (hmem e he)
    have hempty : cs = [] := by
      refine eq_nil_iff_forall_not_mem.mpr fun c hc => ?_
      have hcx := (hkind c x hc hx).trans hxp
      cases hcx.symm.trans ((hkind c y hc hy).trans hyp)
    subst hempty
    have hms : Settles (fun k => tbl.minimalTypes k []) [] := .ok []
    exact settles_leastUpperBounds hpseudo hbounded hcs hms nofun

/-- Types among which there are primitive ones have at most one least upper bound. If the others are
null types, then the bound is a primitive type above all primitive ones, and there is one as soon as
such a type exists. If there are reference types, then there is no bound. -/
theorem leastUpperBounds_of_primitive (hprimitive : ∃ t ∈ types, t.isPrimitive = true) :
    ((∀ t ∈ types, t.isPrimitive = true ∨ t.isNull = true) →
      ∃ bs, Settles (fun k => (tbl.leastUpperBounds k types : Result (List Ty))) bs ∧
        bs.length ≤ 1 ∧ (∀ b ∈ bs, tbl.BoundsPrimitives types b) ∧
        (bs = [] ↔ ¬∃ b, tbl.BoundsPrimitives types b)) ∧
      (tbl.Orderly → tbl.BoundedByUses → tbl.Grounded →
        (∀ t ∈ types, t.isPrimitive = true ∨ t.isNull = true ∨
          Referential captures t ∧ t.Every (Admissible captures)) →
        (∃ t ∈ types, t.isPrimitive = false ∧ t.isNull = false) →
        Settles (fun k => (tbl.leastUpperBounds k types : Result (List Ty))) []) :=
  ⟨exists_leastUpperBounds_of_primitives hprimitive, fun h hbounds hgrounded hall =>
    settles_leastUpperBounds_of_references h hbounds hgrounded hall hprimitive⟩

set_option maxRecDepth 20000 in
/-- Two unrelated primitive types with a null type, and a primitive type with reference types. -/
theorem leastUpperBounds_of_primitive_mixed :
    let narrow : List Ty := [.primitive .byte [], .null, .primitive .char []]
    let mixed : List Ty := [.array (.var 0 ⟨.cls ⟨5⟩, 0⟩ []) [], .primitive .int [], .null,
      .intersection 0 [bareClass 1, .declared ⟨4⟩ [.wildcard 0 (bareClass 2) .null []] none []]]
    ((∃ t ∈ narrow, t.isPrimitive = true) ∧
        ∃ bs, Settles (fun k => (nestedUses.leastUpperBounds k narrow : Result (List Ty))) bs ∧
          bs.length ≤ 1 ∧ (∀ b ∈ bs, nestedUses.BoundsPrimitives narrow b) ∧
          (bs = [] ↔ ¬∃ b, nestedUses.BoundsPrimitives narrow b)) ∧
      (nestedUses.Orderly ∧ nestedUses.BoundedByUses ∧ nestedUses.Grounded ∧
        ∀ t ∈ mixed, t.isPrimitive = true ∨ t.isNull = true ∨
          Referential (fun _ => .null) t ∧ t.Every (Admissible fun _ => .null)) ∧
      Settles (fun k => (nestedUses.leastUpperBounds k mixed : Result (List Ty))) [] := by
  intro narrow mixed
  have hnarrow : ∃ t ∈ narrow, t.isPrimitive = true := ⟨_, mem_cons_self, rfl⟩
  have hnulls : ∀ t ∈ narrow, t.isPrimitive = true ∨ t.isNull = true := by decide
  have horderly : nestedUses.Orderly := orderly_of_isLayered (by rfl) (by rfl) (by rfl)
  have hbounds : nestedUses.BoundedByUses := boundedByUses_of_testBounds (by rfl)
  have hgrounded : nestedUses.Grounded := grounded_of_testBounds (by rfl)
  have hmixed : ∀ t ∈ mixed, t.isPrimitive = true ∨ t.isNull = true ∨
      Referential (fun _ => .null) t ∧ t.Every (Admissible fun _ => .null) := by
    have hclass (i : Nat) : (bareClass i).Every (Admissible fun _ => .null) :=
      .declared ⟨nofun, nofun⟩ nofun nofun
    have huse : (Ty.declared ⟨4⟩ [.wildcard 0 (bareClass 2) .null []] none []).Every
        (Admissible fun _ => .null) :=
      .declared ⟨forall_mem_singleton.mpr rfl, nofun⟩ (forall_mem_singleton.mpr
        (.wildcard ⟨rfl, rfl⟩ (hclass 2) (.leaf trivial rfl))) nofun
    refine forall_mem_cons.mpr ⟨.inr (.inr ⟨.array .var, .array rfl (.leaf trivial rfl)⟩),
      forall_mem_cons.mpr ⟨.inl rfl, forall_mem_cons.mpr ⟨.inr (.inl rfl),
        forall_mem_singleton.mpr (.inr (.inr ⟨.intersection ?_, .intro nofun ?_⟩))⟩⟩⟩
    · exact forall_mem_cons.mpr ⟨.use, forall_mem_singleton.mpr .use⟩
    · exact forall_mem_cons.mpr ⟨hclass 1, forall_mem_singleton.mpr huse⟩
  have hprimitive : ∃ t ∈ mixed, t.isPrimitive = true :=
    ⟨_, mem_cons_of_mem _ mem_cons_self, rfl⟩
  exact ⟨⟨hnarrow, (@leastUpperBounds_of_primitive _ (fun _ => .null) _ hnarrow).1 hnulls⟩,
    ⟨horderly, hbounds, hgrounded, hmixed⟩, (leastUpperBounds_of_primitive hprimitive).2
      horderly hbounds hgrounded hmixed ⟨_, mem_cons_self, rfl, rfl⟩⟩

set_option maxRecDepth 20000 in
/-- The null type is a reference type, and it is below no primitive type. Still a primitive type is
the least upper bound of itself and the null type. -/
theorem leastUpperBounds_of_primitive_and_null :
    (∀ k, (nestedUses.leastUpperBounds (k + 1) [.primitive .int [], .null] : Result (List Ty)) =
      .ok [.primitive .int []]) ∧
    Settles (fun k => nestedUses.isSubtype k .null (.primitive .int [])) false :=
  ⟨fun _ => rfl, settles_check_of_ok (n := 1) rfl⟩

end Table

end NominalTypes
