import NominalTypes.Ty.Bounds
import NominalTypes.Proofs.Persistence

/-!
# Answers do not depend on the budget

A search that is cut off with one budget may answer with a larger one; once it answers, or fails for
another reason, all larger budgets agree. `Cut r r'` says this of two results. It passes through
sequencing, through case distinctions and through the usual searches of a list, so a search whose
steps are related step by step is related as a whole.

Erasure, going up and least upper bounds run in any computation that can fail and that may number
occurrences. So what becomes of them with a larger budget is stated for every notion of it that
passes through sequencing (`Promise`); results are one instance, and computations with a state
another. The same induction over the program says what the answers are like: they are put together
from parts of the given types, the types that expressions denote, and the root class, so they have
every property of layers that these have (`Ty.Lenient`).
-/

namespace NominalTypes

open List

variable {α β σ : Type} {b : Bool} {r r' : Result α} {f f' : α → Result Bool} {xs : List α}
  {p : α → Prop} {I : σ → Prop} {t t' : Ty} {ts : List Ty} {c : ClassId} {marks : List ClassId}

/-- The second result is the first, unless the first was cut off. -/
def Cut (r r' : Result α) : Prop :=
  r = .error .exhausted ∨ r = r'

namespace Cut

theorem refl (r : Result α) : Cut r r :=
  .inr rfl

theorem exhausted (r : Result α) : Cut (.error .exhausted) r :=
  .inl rfl

theorem eq_ok {a} (h : Cut r r') (ha : r = .ok a) : r' = .ok a := by
  rcases h with h | h
  · cases ha.symm.trans h
  · exact h.symm.trans ha

/-- A search that answers with some budget settles. -/
theorem settles {f : Nat → Result α} {n a} (h : ∀ {k k'}, k ≤ k' → Cut (f k) (f k'))
    (hn : f n = .ok a) : Settles f a := by
  refine ⟨⟨n, fun k hk => (h hk).eq_ok hn⟩, fun k => ?_⟩
  exact (h (Nat.le_max_left k n)).imp_right fun hk => hk.trans ((h (Nat.le_max_right k n)).eq_ok hn)

theorem bind {f f' : α → Result β} (hr : Cut r r') (hf : ∀ a, r = .ok a → Cut (f a) (f' a)) :
    Cut (r >>= f) (r' >>= f') := by
  rcases hr with rfl | rfl
  · exact exhausted _
  · cases r with
    | error e => exact refl _
    | ok a => exact hf a rfl

theorem mapM {f f' : α → Result β} (h : ∀ x ∈ xs, Cut (f x) (f' x)) :
    Cut (xs.mapM f) (xs.mapM f') := by
  induction xs with
  | nil => exact refl _
  | cons x xs ih =>
    rw [forall_mem_cons] at h
    rw [mapM_cons, mapM_cons]
    exact h.1.bind fun _ _ => (ih h.2).bind fun _ _ => refl _

private theorem filterAuxM (h : ∀ x ∈ xs, Cut (f x) (f' x)) (kept : List α) :
    Cut (xs.filterAuxM f kept) (xs.filterAuxM f' kept) := by
  induction xs generalizing kept with
  | nil => exact refl _
  | cons x xs ih =>
    rw [forall_mem_cons] at h
    exact h.1.bind fun _ _ => ih h.2 _

theorem filterM (h : ∀ x ∈ xs, Cut (f x) (f' x)) : Cut (xs.filterM f) (xs.filterM f') :=
  (filterAuxM h []).bind fun _ _ => refl _

end Cut

/-- Ways to compare two tests that pass through the steps of a check. What is asked before may have
been cut off. -/
structure Comparison (R : Result Bool → Result Bool → Prop) : Prop where
  refl (r : Result Bool) : R r r
  bind {α : Type} {r r' : Result α} {f f' : α → Result Bool} (hr : Cut r r')
    (hf : ∀ a, R (f a) (f' a)) : R (r >>= f) (r' >>= f')
  /-- The second test is asked only if the first fails. -/
  or {r r' : Result Bool} {f f' : Bool → Result Bool} (hr : R r r') (htrue : f true = .ok true)
    (htrue' : f' true = .ok true) (hfalse : R (f false) (f' false)) : R (r >>= f) (r' >>= f')
  /-- The second test is asked only if the first holds. -/
  and {r r' : Result Bool} {f f' : Bool → Result Bool} (hr : R r r') (htrue : R (f true) (f' true))
    (hfalse : f false = .ok false) (hfalse' : f' false = .ok false) : R (r >>= f) (r' >>= f')

namespace Comparison

variable {R : Result Bool → Result Bool → Prop} (hR : Comparison R)
include hR

theorem allM (h : ∀ x ∈ xs, R (f x) (f' x)) : R (xs.allM f) (xs.allM f') := by
  induction xs with
  | nil => exact hR.refl _
  | cons x xs ih =>
    rw [forall_mem_cons] at h
    exact hR.and h.1 (ih h.2) rfl rfl

theorem anyM (h : ∀ x ∈ xs, R (f x) (f' x)) : R (xs.anyM f) (xs.anyM f') := by
  induction xs with
  | nil => exact hR.refl _
  | cons x xs ih =>
    rw [forall_mem_cons] at h
    exact hR.or h.1 rfl rfl (ih h.2)

end Comparison

theorem comparison_cut : Comparison Cut where
  refl := .refl
  bind hr hf := hr.bind fun a _ => hf a
  or hr htrue htrue' hfalse := hr.bind fun b _ => by
    cases b with
    | true => exact .inr (htrue.trans htrue'.symm)
    | false => exact hfalse
  and hr htrue hfalse hfalse' := hr.bind fun b _ => by
    cases b with
    | true => exact htrue
    | false => exact .inr (hfalse.trans hfalse'.symm)

theorem anyM_eq_false {α : Type} {f : α → Result Bool} {xs : List α} :
    xs.anyM f = .ok false ↔ ∀ x ∈ xs, f x = .ok false := by
  induction xs with
  | nil => simp [pure, Except.pure]
  | cons x xs ih =>
    rw [anyM_cons, bind_eq_ok, forall_mem_cons, ← ih]
    constructor
    · rintro ⟨b, hb, h⟩
      cases b with
      | true => cases h
      | false => exact ⟨hb, h⟩
    · exact fun h => ⟨false, h⟩

/-- Filtering keeps what passes the test, and all tests have answered. -/
theorem filterM_eq_ok {α : Type} {f : α → Result Bool} {xs ys : List α}
    (h : xs.filterM f = .ok ys) :
    ∃ g : α → Bool, (∀ x ∈ xs, f x = .ok (g x)) ∧ ys = xs.filter g := by
  let g (x : α) : Bool := (f x).toOption.getD false
  have haux (xs kept ys : List α) (h : xs.filterAuxM f kept = .ok ys) :
      (∀ x ∈ xs, f x = .ok (g x)) ∧ ys = (xs.filter g).reverse ++ kept := by
    induction xs generalizing kept with
    | nil =>
      cases h
      exact ⟨forall_mem_nil _, rfl⟩
    | cons x xs ih =>
      obtain ⟨b, hb, h⟩ := bind_eq_ok.mp h
      obtain ⟨hall, rfl⟩ := ih _ h
      have hg : g x = b := by simp [g, hb, Except.toOption]
      refine ⟨forall_mem_cons.mpr ⟨hg ▸ hb, hall⟩, ?_⟩
      cases b <;> simp [hg]
  obtain ⟨zs, hzs, h⟩ := bind_eq_ok.mp h
  cases h
  obtain ⟨hall, rfl⟩ := haux xs [] zs hzs
  exact ⟨g, hall, by simp⟩

theorem mem_filterM {α : Type} {f : α → Result Bool} {xs ys : List α} (h : xs.filterM f = .ok ys)
    {x} : x ∈ ys ↔ x ∈ xs ∧ f x = .ok true := by
  obtain ⟨g, hg, rfl⟩ := filterM_eq_ok h
  rw [mem_filter]
  exact and_congr_right fun hx => by rw [hg x hx, Except.ok.injEq]

namespace Table

variable {tbl : Table}

theorem distinct_concat (ts : List Ty) (t : Ty) : Ty.distinct (ts ++ [t]) =
    if t.isIn (Ty.distinct ts) then Ty.distinct ts else Ty.distinct ts ++ [t] := by
  rw [Ty.distinct, foldl_append]
  rfl

theorem mem_of_mem_distinct {x} (h : x ∈ Ty.distinct ts) : x ∈ ts := by
  induction ts using reverseRecOn with
  | nil => cases h
  | append_singleton ts t ih =>
    rw [distinct_concat] at h
    split_ifs at h
    · exact mem_append_left _ (ih h)
    · rcases mem_append.mp h with h | h
      · exact mem_append_left _ (ih h)
      · exact mem_append_right _ h

theorem mem_classFirst {x} : x ∈ tbl.classFirst ts ↔ x ∈ ts := by
  have hsplit (cs : List Ty) : x ∈ cs.take 1 ∨ x ∈ cs.drop 1 ↔ x ∈ cs := by
    rw [← mem_append, take_append_drop]
  rw [classFirst, mem_append, mem_append, or_right_comm, hsplit, mem_filter,
    mem_filter, ← and_or_left, Bool.not_eq_true']
  cases tbl.isInterfaceType x <;> simp

end Table

namespace Ty

variable {e : ExecutableId} {args : List Ty} {owner : Option Ty} {m : Mapping}

theorem every_executable {q vars parameters thrown result receiver}
    (h : q (executable e vars result parameters receiver thrown))
    (hvars : ∀ v ∈ vars, v.Every q) (hresult : result.Every q)
    (hparameters : ∀ p ∈ parameters, p.Every q) (hreceiver : receiver.Every q)
    (hthrown : ∀ x ∈ thrown, x.Every q) :
    (executable e vars result parameters receiver thrown).Every q := by
  refine .intro h fun x hx => ?_
  simp only [children, mem_append, mem_cons] at hx
  rcases hx with hx | rfl | rfl | hx | hx
  · exact hvars x hx
  · exact hresult
  · exact hreceiver
  · exact hparameters x hx
  · exact hthrown x hx

/-! ### Lenient properties -/

/-- Whether the type is neither a captured variable nor the type of a package or an executable. -/
def isPlain : Ty → Bool
  | captured _ _ _ _ _ | executable _ _ _ _ _ _ | package _ => false
  | _ => true

/-- All layers have the property but captured variables, packages and executables, and whether an
executable has it does not depend on the parts. -/
structure Lenient (q : Ty → Prop) : Prop where
  plain {t : Ty} (h : t.isPlain = true) : q t
  executable {e : ExecutableId} {vars vars' parameters parameters' thrown thrown' : List Ty}
    {result result' receiver receiver' : Ty}
    (h : q (executable e vars result parameters receiver thrown)) :
    q (executable e vars' result' parameters' receiver' thrown')

theorem lenient_true : Lenient fun _ => True where
  plain _ := trivial
  executable _ := trivial

theorem every_true (t : Ty) : t.Every fun _ => True :=
  .of_forall (fun _ => trivial) t

namespace Lenient

variable {tbl : Table} {q : Ty → Prop} (hq : Lenient q)
include hq

theorem denoted (h : t.Every tbl.Denoted) : t.Every q := by
  refine h.mono fun x hx => hq.plain ?_
  cases x with
  | captured | executable | package => cases hx
  | _ => rfl

theorem objectType : tbl.objectType.Every q :=
  hq.denoted Table.every_denoted_objectType

theorem normal (h : t.Normal) : t.Every q := by
  refine h.every (fun x hx => hq.plain ?_) (fun _ _ => hq.plain rfl) fun _ _ => hq.plain rfl
  cases x with
  | captured | executable | package => cases hx
  | _ => rfl

theorem makeArray {component} (h : Table.makeArray component marks = .ok t)
    (hcomponent : component.Every q) : t.Every q := by
  rw [(Table.makeArray_eq_ok h).1]
  exact .array (hq.plain rfl) hcomponent

theorem makeDeclared (h : tbl.makeDeclared c args owner marks = .ok t)
    (hargs : ∀ a ∈ args, a.Every q) (howner : ∀ o ∈ owner, o.Every q) : t.Every q := by
  rw [(Table.makeDeclared_eq_ok h).1]
  exact .declared (hq.plain rfl) hargs howner

theorem makeWildcard {upper lower} (h : tbl.makeWildcard upper lower marks = .ok t)
    (hupper : ∀ u ∈ upper, u.Every q) (hlower : ∀ l ∈ lower, l.Every q) :
    t.Every q := by
  obtain ⟨u, l, rfl, -, -, -, hu, hl⟩ := Table.makeWildcard_eq_ok h
  refine .wildcard (hq.plain rfl) ?_ ?_
  · rcases hu with rfl | hu
    · exact hq.objectType
    · exact hupper u hu
  · rcases hl with rfl | hl
    · exact .leaf (hq.plain rfl) rfl
    · exact hlower l hl

theorem makeIntersection {bounds} (h : Table.makeIntersection bounds = .ok t)
    (hbounds : ∀ b ∈ bounds, b.Every q) : t.Every q := by
  rw [(Table.makeIntersection_eq_ok h).1]
  exact .intro (hq.plain rfl) hbounds

theorem makeUnion {alternatives} (h : Table.makeUnion alternatives = .ok t)
    (halternatives : ∀ a ∈ alternatives, a.Every q) : t.Every q := by
  rw [(Table.makeUnion_eq_ok h).1]
  exact .intro (hq.plain rfl) halternatives

theorem joinBounds {bound} (h : Table.joinBounds ts = .ok bound) (hts : ∀ t ∈ ts, t.Every q) :
    ∀ t ∈ bound, t.Every q := by
  rw [Table.joinBounds.eq_def] at h
  split at h
  · cases h
    exact fun _ h => by cases h
  · cases h
    rintro t ⟨⟩
    exact hts _ mem_cons_self
  · obtain ⟨s, hs, h⟩ := bind_eq_ok.mp h
    cases h
    rintro t ⟨⟩
    exact hq.makeIntersection hs hts

theorem boundsOf {v} (h : tbl.boundsOf v = .ok ts) : ∀ t ∈ ts, t.Every q :=
  fun t ht => hq.denoted (Table.boundsOf_denoted h t ht)

/-- Substitution makes no other layers. -/
theorem instantiate (hm : ∀ v x, m.lookup v = some x → x.Every q) (ht : t.Every q)
    (h : tbl.instantiate m t = .ok t') : t'.Every q := by
  refine Table.every_of_instantiate hm hq.objectType ht (ht.visited.mono fun x hx x' h => ?_) h
  rcases Table.remakes_of_instantiate h with ⟨-, rfl⟩ | ⟨_, v, _, -, hx⟩ | ⟨haffected, -, -, rfl, -⟩
  · exact hx
  · exact (hm v x' hx).top
  · cases x with
    | executable => exact hq.executable hx
    | captured | package => cases haffected
    | _ => exact hq.plain rfl

theorem persists : tbl.Persists q where
  unmarked _ := hq.plain rfl
  normal := hq.normal
  supertypes _ _ h t ht := hq.denoted (Table.descriptors_denoted _ h t ht)
  upperBound h := hq.denoted (Table.every_denoted_upperBound h)
  instantiate hm _ := hq.instantiate hm

end Lenient

end Ty

/-! ### What computations give -/

/-- A notion of what the answers of computations are like, if there are any, and of what becomes of
computations with a larger budget. It passes through sequencing, and numbering keeps the property of
layers. -/
structure Promise (m : Type → Type) [Monad m] [MonadLiftT Result m] [Numbering m]
    (q : Ty → Prop) where
  lenient : Ty.Lenient q
  /-- All answers of the first computation have the property, and the second computation is the
  first with a larger budget. -/
  Gives {α : Type} : m α → m α → (α → Prop) → Prop
  pure {α : Type} {p : α → Prop} {a : α} : p a → Gives (Pure.pure a) (Pure.pure a) p
  bind {α β : Type} {p : α → Prop} {q : β → Prop} {x x' : m α} {f f' : α → m β} :
    Gives x x' p → (∀ a, p a → Gives (f a) (f' a) q) → Gives (x >>= f) (x' >>= f') q
  cut {α : Type} {p : α → Prop} {r r' : Result α} :
    (∀ a, r = .ok a → p a) → Cut r r' → Gives (liftM r) (liftM r') p
  exhausted {α β : Type} {p : β → Prop} {f : α → m β} {x : m β} :
    Gives (failWith .exhausted >>= f) x p
  number {t : Ty} : t.Every q → Gives (Numbering.number t) (Numbering.number t) (Ty.Every q)

namespace Promise

variable {q : Ty → Prop}

/-- Results. -/
def result (hq : Ty.Lenient q) : Promise Result q where
  lenient := hq
  Gives r r' p := (∀ a, r = .ok a → p a) ∧ Cut r r'
  pure ha := ⟨fun _ h => by cases h; exact ha, .refl _⟩
  bind hx hf := by
    refine ⟨fun b h => ?_, hx.2.bind fun a ha => (hf a (hx.1 a ha)).2⟩
    obtain ⟨a, ha, h⟩ := bind_eq_ok.mp h
    exact (hf a (hx.1 a ha)).1 b h
  cut h hr := ⟨h, hr⟩
  exhausted := ⟨fun _ h => (by cases h), .exhausted _⟩
  number ht := ⟨fun _ h => by cases h; exact ht, .refl _⟩

variable {m : Type → Type} [Monad m] [LawfulMonad m] [MonadLiftT Result m] [Numbering m]
  (A : Promise m q)

section Rules

omit [LawfulMonad m] in
theorem lift (h : ∀ a, r = .ok a → p a) : A.Gives (liftM r) (liftM r) p :=
  A.cut h (.refl r)

omit [LawfulMonad m] in
theorem fail {e} : A.Gives (failWith e) (failWith e) p :=
  A.lift fun _ h => by cases h

theorem cutOff {x} : A.Gives (failWith .exhausted) x p := by
  rw [← bind_pure (failWith _)]
  exact A.exhausted

omit [LawfulMonad m] in
/-- Two ways to go on with the same computation. -/
theorem ite_bind {c : Prop} [Decidable c] {x x' y y'} {f f' : α → m β} {q : β → Prop}
    (hx : A.Gives x x' p) (hy : A.Gives y y' p) (hf : ∀ a, p a → A.Gives (f a) (f' a) q) :
    A.Gives (if c then x >>= f else y >>= f) (if c then x' >>= f' else y' >>= f') q := by
  split_ifs
  · exact A.bind hx hf
  · exact A.bind hy hf

omit [LawfulMonad m] in
theorem foldlM {f f' : β → α → m β} {q : β → Prop} {xs : List α}
    (h : ∀ b, q b → ∀ x ∈ xs, A.Gives (f b x) (f' b x) q) {b : β} (hb : q b) :
    A.Gives (xs.foldlM f b) (xs.foldlM f' b) q := by
  induction xs generalizing b with
  | nil => exact A.pure hb
  | cons x xs ih =>
    refine A.bind (h b hb x mem_cons_self) fun b' hb' => ih (fun b hb x hx => ?_) hb'
    exact h b hb x (mem_cons_of_mem _ hx)

theorem map {x x'} {f : α → β} {q : β → Prop} (h : A.Gives x x' p) (hpq : ∀ a, p a → q (f a)) :
    A.Gives (f <$> x) (f <$> x') q := by
  rw [← bind_pure_comp, ← bind_pure_comp]
  exact A.bind h fun a ha => A.pure (hpq a ha)

theorem mapM {f f' : α → m β} {q : β → Prop} {xs : List α}
    (h : ∀ x ∈ xs, A.Gives (f x) (f' x) q) :
    A.Gives (xs.mapM f) (xs.mapM f') fun ys => ∀ y ∈ ys, q y := by
  induction xs with
  | nil =>
    exact A.pure (forall_mem_nil _)
  | cons x xs ih =>
    rw [forall_mem_cons] at h
    rw [mapM_cons, mapM_cons]
    refine A.bind h.1 fun y hy => A.bind (ih h.2) fun ys hys => A.pure ?_
    exact forall_mem_cons.mpr ⟨hy, hys⟩

/-- Computations with a state that keep an invariant. -/
def state {σ : Type} (I : σ → Prop) : Promise (StateT σ m) q where
  lenient := A.lenient
  Gives x x' p := ∀ s, I s → A.Gives (x.run s) (x'.run s) fun r => p r.1 ∧ I r.2
  pure ha _ hs := A.pure ⟨ha, hs⟩
  bind hx hf s hs := A.bind (hx s hs) fun r hr => hf r.1 hr.1 r.2 hr.2
  cut h hr _ hs := A.bind (A.cut h hr) fun _ ha => A.pure ⟨ha, hs⟩
  exhausted {_ _ _ f x} s hs := by
    have hrun : (failWith .exhausted >>= f : StateT σ m _).run s =
        failWith .exhausted >>= fun a => (f a).run s := by
      rw [StateT.run_bind]
      exact (bind_assoc ..).trans (bind_congr fun a => pure_bind ..)
    rw [hrun]
    exact A.exhausted
  number ht _ hs := A.bind (A.number ht) fun _ ht => A.pure ⟨ht, hs⟩

theorem state_lift {x x'} (h : A.Gives x x' p) :
    (A.state I).Gives (liftM x : StateT σ m α) (liftM x') p :=
  fun _ hs => A.bind h fun _ ha => A.pure ⟨ha, hs⟩

theorem state_get : (A.state I).Gives (get : StateT σ m σ) get I :=
  fun _ hs => A.pure ⟨hs, hs⟩

theorem state_modify {f} (hf : ∀ s, I s → I (f s)) :
    (A.state I).Gives (modify f : StateT σ m PUnit) (modify f) fun _ => True :=
  fun s hs => A.pure ⟨trivial, hf s hs⟩

end Rules

/-! ### Erasure -/

section Erasure

variable {tbl : Table} {lub lub' : List Ty → m (List Ty)} {n n' : Nat}

/-- Types are given that are made of layers with the property. -/
def GivesTypes (x x' : m (List Ty)) : Prop :=
  A.Gives x x' fun ts => ∀ t ∈ ts, t.Every q

/-- The type that is given, if one is. -/
def GivesType? (x x' : m (Option Ty)) : Prop :=
  A.Gives x x' fun r => ∀ t ∈ r, t.Every q

/-- Upper bounds are made of the types that they bound. -/
def KeepsBounds (lub lub' : List Ty → m (List Ty)) : Prop :=
  ∀ ts, (∀ t ∈ ts, t.Every q) → A.GivesTypes (lub ts) (lub' ts)

theorem gives_eraseWith (hlub : A.KeepsBounds lub lub') (hle : n ≤ n') (ht : t.Every q) :
    A.Gives (tbl.eraseWith lub n t) (tbl.eraseWith lub' n' t) (Ty.Every q) := by
  induction n generalizing n' t with
  | zero => exact A.cutOff
  | succ n ih =>
    obtain ⟨n', rfl⟩ := Nat.exists_eq_succ_of_ne_zero (show n' ≠ 0 by omega)
    replace ih {t : Ty} (ht : t.Every q) := ih (Nat.le_of_succ_le_succ hle) ht
    have hall {ts : List Ty} (hts : ∀ t ∈ ts, t.Every q) :
        A.GivesTypes (ts.mapM (tbl.eraseWith lub n)) (ts.mapM (tbl.eraseWith lub' n')) :=
      A.mapM fun t h => ih (hts t h)
    cases t with
    | primitive | none | void | null => exact A.pure ht
    | package => exact A.fail
    | declared c args owner marks =>
      simp only [Table.eraseWith]
      split
      · exact A.pure ht
      · exact A.pure (A.lenient.normal .declared)
    | array component marks =>
      exact A.bind (ih ht.component) fun s hs => A.pure (Ty.Every.array (A.lenient.plain rfl) hs)
    | var k v marks =>
      exact A.bind (A.lift fun s h => h) fun s hs => ih (A.lenient.persists.upperBound hs)
    | captured token site upper lower marks => exact ih ht.capturedUpper
    | wildcard k upper lower marks => exact ih ht.upper
    | intersection k bounds =>
      cases bounds with
      | nil => exact A.fail
      | cons b bounds => exact ih (ht.part mem_cons_self)
    | union k alternatives =>
      refine A.bind (hlub alternatives fun a ha => ht.part ha) fun bounds hbounds => ?_
      cases bounds with
      | nil => exact A.bind (A.lift fun s h => h) fun s _ => A.fail
      | cons b bounds => exact ih (hbounds b mem_cons_self)
    | executable e vars result parameters receiver thrown =>
      simp only [Table.eraseWith]
      split
      · refine A.bind (ih (ht.part (by simp [Ty.children]))) fun result hresult => ?_
        refine A.bind (hall fun p hp => ht.part (by simp [Ty.children, hp])) fun ps hps => ?_
        refine A.bind (ih (ht.part (by simp [Ty.children]))) fun receiver hreceiver => ?_
        refine A.bind (hall fun x hx => ht.part (by simp [Ty.children, hx])) fun xs hxs => ?_
        exact A.pure (Ty.every_executable (A.lenient.executable ht.top)
          (forall_mem_nil _) hresult hps hreceiver hxs)
      · exact A.pure ht

end Erasure

end Promise

namespace Table

variable {tbl : Table} {n n' : Nat}

theorem cut_eraseWith {lub lub' : List Ty → Result (List Ty)} (hlub : ∀ ts, Cut (lub ts) (lub' ts))
    (h : n ≤ n') (t : Ty) : Cut (tbl.eraseWith lub n t) (tbl.eraseWith lub' n' t) := by
  refine ((Promise.result Ty.lenient_true).gives_eraseWith (fun ts _ => ⟨?_, hlub ts⟩) h
    t.every_true).2
  exact fun _ _ t _ => t.every_true

theorem cut_declaredSupertypes (h : n ≤ n') (c : ClassId) (args : List Ty) (owner : Option Ty) :
    Cut (tbl.declaredSupertypes n c args owner) (tbl.declaredSupertypes n' c args owner) := by
  unfold declaredSupertypes
  split
  · exact .refl _
  · refine (Cut.refl _).bind fun supertypes _ => ?_
    split
    · exact Cut.mapM fun t _ => cut_eraseWith (fun _ => .refl _) h t
    · exact .refl _

theorem cut_ascend (h : n ≤ n') (target : ClassId) (t : Ty) :
    Cut (tbl.ascend n target t) (tbl.ascend n' target t) := by
  cases t with
  | declared c args owner marks =>
    simp only [ascend]
    split
    · exact .refl _
    · refine (Cut.refl _).bind fun b _ => ?_
      cases b with
      | false => exact .refl _
      | true => exact (cut_declaredSupertypes h c args owner).bind fun _ _ => .refl _
  | _ => exact .refl _

end Table

/-! ### Supertypes -/

namespace Promise

variable {q : Ty → Prop} {tbl : Table} {m : Type → Type} [Monad m] [LawfulMonad m]
  [MonadLiftT Result m] [Numbering m] (A : Promise m q) {n n' : Nat}

omit [LawfulMonad m] in
theorem gives_firstFound {find find'} (hts : ∀ t ∈ ts, t.Every q)
    (hfind : ∀ t, t.Every q → A.GivesType? (find t) (find' t)) :
    A.GivesType? (Table.firstFound find ts) (Table.firstFound find' ts) := by
  induction ts with
  | nil => exact A.pure fun _ h => by cases h
  | cons t ts ih =>
    rw [forall_mem_cons] at hts
    refine A.bind (hfind t hts.1) fun r hr => ?_
    cases r with
    | none => exact ih hts.2
    | some s => exact A.pure hr

theorem gives_climb {step step'}
    (hstep : ∀ t, t.Every q → A.Gives (step t) (step' t) (Ascent.Every q)) (hle : n ≤ n')
    (ht : t.Every q) : A.GivesType? (Table.climb step n t) (Table.climb step' n' t) := by
  induction n generalizing n' t with
  | zero => exact A.cutOff
  | succ n ih =>
    obtain ⟨n', rfl⟩ := Nat.exists_eq_succ_of_ne_zero (show n' ≠ 0 by omega)
    refine A.bind (hstep t ht) fun a ha => ?_
    cases a with
    | arrived s => exact A.pure fun t h => by cases h; exact ha
    | above ts => exact A.gives_firstFound ha fun t ht => ih (Nat.le_of_succ_le_succ hle) ht

theorem gives_resolveSupertype (hle : n ≤ n') (ht : t.Every q) (target : ClassId) :
    A.GivesType? (tbl.resolveSupertype n t target) (tbl.resolveSupertype n' t target) := by
  refine A.gives_climb (fun t ht => ?_) hle ht
  refine A.bind (A.cut (fun a h => A.lenient.persists.ascend ht h)
    (Table.cut_ascend hle target t)) fun a ha => ?_
  cases a with
  | arrived s => exact A.pure ha
  | above ts => exact A.bind (A.mapM fun s hs => A.number (ha s hs)) fun ts hts => A.pure hts

variable {lub lub' : List Ty → m (List Ty)}

theorem gives_typesAboveWith (hlub : A.KeepsBounds lub lub') (hle : n ≤ n') (ht : t.Every q) :
    A.GivesTypes (tbl.typesAboveWith lub n t) (tbl.typesAboveWith lub' n' t) := by
  have hprimitive (p : Primitive) (marks : List ClassId) : (Ty.primitive p marks).Every q :=
    .leaf (A.lenient.plain rfl) rfl
  have hroot (c : ClassId) : (Ty.declared c [] none []).Every q := .leaf (A.lenient.plain rfl) rfl
  induction t using Ty.children_induction with
  | step t ih =>
    cases t with
    | none | void | null => exact A.pure (forall_mem_nil _)
    | package | executable => exact A.fail
    | primitive p marks =>
      refine A.pure fun x hx => ?_
      obtain ⟨q, -, rfl⟩ := mem_map.mp hx
      exact hprimitive q []
    | declared c args owner marks =>
      exact A.cut (fun ts h => A.lenient.persists.declaredSupertypes ht h)
        (Table.cut_declaredSupertypes hle c args owner)
    | array component marks =>
      simp only [Table.typesAboveWith]
      split
      · refine A.pure fun x hx => ?_
        obtain ⟨c, -, rfl⟩ := mem_map.mp hx
        exact hroot c
      · refine A.bind (ih component (by simp [Ty.children]) ht.component) fun ts hts => ?_
        refine A.mapM fun s hs => A.lift fun x h => ?_
        exact A.lenient.makeArray h (hts s hs).orUpper
    | var k v marks => exact A.lift fun ts h => A.lenient.boundsOf h
    | captured token site upper lower marks =>
      exact A.pure (forall_mem_singleton.mpr ht.capturedUpper)
    | wildcard k upper lower marks => exact A.pure (forall_mem_singleton.mpr ht.upper)
    | intersection k bounds => exact A.pure fun b hb => ht.part hb
    | union k alternatives =>
      refine A.bind (hlub alternatives fun a ha => ht.part ha) fun bounds hbounds => ?_
      split
      · exact A.pure (forall_mem_nil _)
      · exact A.pure hbounds
      · refine A.bind (A.lift fun s h => A.lenient.makeIntersection h hbounds) fun s hs => ?_
        exact A.pure (by simpa using hs)

theorem gives_directSupertypesWith (hlub : A.KeepsBounds lub lub') (hle : n ≤ n') (ht : t.Every q) :
    A.GivesTypes (tbl.directSupertypesWith lub n t) (tbl.directSupertypesWith lub' n' t) :=
  A.bind (A.gives_typesAboveWith hlub hle ht) fun _ hts => A.mapM fun s hs => A.number (hts s hs)

theorem gives_expandSupertypes {direct direct'}
    (hdirect : ∀ t, t.Every q → A.GivesTypes (direct t) (direct' t)) (hle : n ≤ n') {queue seen}
    (hqueue : ∀ t ∈ queue, t.Every q) (hseen : ∀ t ∈ seen, t.Every q) :
    A.GivesTypes (Table.expandSupertypes direct n queue seen)
      (Table.expandSupertypes direct' n' queue seen) := by
  induction n generalizing n' queue seen with
  | zero =>
    rw [Table.expandSupertypes.eq_def, Table.expandSupertypes.eq_def]
    dsimp only
    cases queue.dropWhile fun t => t.isIn seen with
    | nil => cases n' <;> exact A.pure fun t h => hseen t (mem_reverse.mp h)
    | cons t rest => exact A.cutOff
  | succ n ih =>
    obtain ⟨n', rfl⟩ := Nat.exists_eq_succ_of_ne_zero (show n' ≠ 0 by omega)
    have hrest : ∀ t ∈ queue.dropWhile fun t => t.isIn seen, t.Every q :=
      fun t h => hqueue t (dropWhile_subset _ h)
    rw [Table.expandSupertypes.eq_def, Table.expandSupertypes.eq_def]
    dsimp only
    cases hdrop : queue.dropWhile fun t => t.isIn seen with
    | nil => exact A.pure fun t h => hseen t (mem_reverse.mp h)
    | cons t rest =>
      rw [hdrop, forall_mem_cons] at hrest
      refine A.bind (hdirect t hrest.1) fun above habove => ?_
      exact ih (Nat.le_of_succ_le_succ hle) (forall_mem_append.mpr ⟨hrest.2, habove⟩)
        (forall_mem_cons.mpr ⟨hrest.1, hseen⟩)

theorem gives_ancestorsWith (hlub : A.KeepsBounds lub lub') (hle : n ≤ n') (ht : t.Every q) :
    A.GivesTypes (tbl.ancestorsWith lub n t) (tbl.ancestorsWith lub' n' t) := by
  refine A.bind (A.gives_directSupertypesWith hlub hle ht) fun ts hts => ?_
  exact A.gives_expandSupertypes (fun t ht => A.gives_directSupertypesWith hlub hle ht) hle hts
    (by simpa using ht)

end Promise

namespace Table

variable {tbl : Table} {n n' : Nat}

theorem cut_resolveSupertype (h : n ≤ n') (t : Ty) (target : ClassId) :
    Cut (tbl.resolveSupertype n t target : Result (Option Ty))
      (tbl.resolveSupertype n' t target) :=
  ((Promise.result Ty.lenient_true).gives_resolveSupertype h t.every_true target).2

/-! ### The check of a relation -/

section Step

variable {check check' : Relation → Ty → Ty → Result Bool}

theorem cut_checkStrict (hcheck : ∀ s t, Cut (check .subtype s t) (check' .subtype s t))
    (s t : Ty) : Cut (checkStrict check s t) (checkStrict check' s t) :=
  (Cut.refl _).bind fun _ _ => (Cut.refl _).bind fun _ _ => hcheck s t

theorem cut_checkContains (hcheck : ∀ s t, Cut (check .subtype s t) (check' .subtype s t))
    (s t : Ty) : Cut (checkContains check s t) (checkContains check' s t) := by
  have hboth (a b c d : Ty) : Cut
      (do if ← checkStrict check a b then checkStrict check c d else return false)
      (do if ← checkStrict check' a b then checkStrict check' c d else return false) :=
    comparison_cut.and (cut_checkStrict hcheck a b) (cut_checkStrict hcheck c d) rfl rfl
  refine (Cut.refl _).bind fun _ _ => (Cut.refl _).bind fun _ _ => ?_
  cases s with
  | wildcard m upper lower marks =>
    cases t with
    | wildcard m' upper' lower' marks' => exact hboth _ _ _ _
    | _ => exact hboth _ _ _ _
  | _ => exact .refl _

variable {R : Result Bool → Result Bool → Prop} {rel rel' : Relation} (hR : Comparison R)
  (hcheck : ∀ s t, R (check rel s t) (check' rel' s t))

include hR hcheck

theorem compare_checkParameterization
    (hcontains : ∀ s t, Cut (checkContains check s t) (checkContains check' s t))
    (hraw : R (.ok (rel = .assignable)) (.ok (rel' = .assignable))) (args : List Ty)
    (owner : Option Ty) (args' : List Ty) (owner' : Option Ty) :
    R (checkParameterization check rel args owner args' owner')
      (checkParameterization check' rel' args owner args' owner') := by
  unfold checkParameterization
  split
  · exact hraw
  · refine hR.bind (comparison_cut.allM fun p _ => hcontains p.1 p.2) fun holds => ?_
    cases holds with
    | false => exact hR.refl _
    | true =>
      cases owner with
      | none => exact hR.refl _
      | some s =>
        cases owner' with
        | none => exact hR.refl _
        | some t => exact hcheck s t

theorem compare_checkArray (component t : Ty) :
    R (tbl.checkArray check rel component t) (tbl.checkArray check' rel' component t) := by
  unfold checkArray
  split
  · split
    · exact hR.refl _
    · exact hcheck _ _
  · exact hR.refl _
  · exact hR.refl _

theorem compare_checkLower (s t : Ty) :
    R (checkLower check rel s t) (checkLower check' rel' s t) := by
  cases t with
  | captured token site upper lower marks => exact hcheck s lower
  | wildcard m upper lower marks => exact hcheck s lower
  | _ => exact hR.refl _

variable (hcontains : ∀ s t, Cut (checkContains check s t) (checkContains check' s t))
  (hraw : R (.ok (rel = .assignable)) (.ok (rel' = .assignable))) (h : n ≤ n')

include hcontains hraw h

theorem compare_checkUpper (s t : Ty) :
    R (tbl.checkUpper n check rel s t) (tbl.checkUpper n' check' rel' s t) := by
  unfold checkUpper
  split
  · exact hR.bind (.refl _) fun upper => hcheck upper t
  · exact hcheck _ t
  · exact hcheck _ t
  · exact compare_checkArray hR hcheck _ t
  · refine hR.bind (.refl _) fun holds => ?_
    cases holds with
    | false => exact hR.refl _
    | true =>
      refine hR.bind (cut_resolveSupertype h _ _) fun found => ?_
      split
      · exact compare_checkParameterization hR hcheck hcontains hraw _ _ _ _
      · exact hR.refl _
  · exact hR.refl _

theorem compare_checkStep (hprimitive : ∀ s t,
      R (tbl.checkPrimitive check rel s t) (tbl.checkPrimitive check' rel' s t)) (s t : Ty) :
    R (tbl.checkStep n check rel s t) (tbl.checkStep n' check' rel' s t) := by
  unfold checkStep
  split
  · exact hR.refl _
  split
  · exact hR.allM fun b _ => hcheck s b
  · exact hR.allM fun a _ => hcheck a t
  · exact hR.anyM fun b _ => hcheck b t
  · exact hR.anyM fun a _ => hcheck s a
  · unfold checkSimple
    split
    · exact hR.refl _
    split
    · exact hprimitive s t
    split
    · exact hR.refl _
    split
    · exact hR.refl _
    exact hR.or (compare_checkLower hR hcheck s t) rfl rfl
      (compare_checkUpper hR hcheck hcontains hraw h s t)

end Step

/-- The check of a relation with a larger budget. -/
theorem cut_check (h : n ≤ n') (rel : Relation) (s t : Ty) :
    Cut (tbl.check n rel s t) (tbl.check n' rel s t) := by
  induction n generalizing n' rel s t with
  | zero => exact .exhausted _
  | succ n ih =>
    obtain ⟨n', rfl⟩ := Nat.exists_eq_succ_of_ne_zero (show n' ≠ 0 by omega)
    have hle := Nat.le_of_succ_le_succ h
    refine compare_checkStep comparison_cut (ih hle rel) (cut_checkContains (ih hle _))
      (.refl _) hle (fun s t => ?_) s t
    unfold checkPrimitive
    split
    · exact .refl _
    · split
      · exact ih hle rel _ _
      · exact .refl _
    · exact .refl _
    · exact .refl _

theorem cut_isSubtype (h : n ≤ n') (s t : Ty) : Cut (tbl.isSubtype n s t) (tbl.isSubtype n' s t) :=
  (Cut.refl _).bind fun _ _ => (Cut.refl _).bind fun _ _ => cut_check h .subtype s t

theorem isSubtype_eq_ok {s t} (h : tbl.isSubtype n s t = .ok b) :
    tbl.check n .subtype s t = .ok b := by
  obtain ⟨-, -, h⟩ := bind_eq_ok.mp h
  obtain ⟨-, -, h⟩ := bind_eq_ok.mp h
  exact h

theorem isAssignable_eq_ok {s t} (h : tbl.isAssignable n s t = .ok b) :
    tbl.check n .assignable s t = .ok b := by
  obtain ⟨-, -, h⟩ := bind_eq_ok.mp h
  obtain ⟨-, -, h⟩ := bind_eq_ok.mp h
  exact h

/-- Any two budgets that give an answer give the same. -/
theorem check_eq_of_ok {rel s t b'} (h : tbl.check n rel s t = .ok b)
    (h' : tbl.check n' rel s t = .ok b') : b = b' := by
  have hmax := (cut_check (Nat.le_max_left n n') rel s t).eq_ok h
  have hmax' := (cut_check (Nat.le_max_right n n') rel s t).eq_ok h'
  exact Except.ok.inj (hmax.symm.trans hmax')

theorem cut_minimalTypes (h : n ≤ n') (types : List Ty) :
    Cut (tbl.minimalTypes n types) (tbl.minimalTypes n' types) := by
  refine Cut.filterM fun t _ => Cut.bind (comparison_cut.anyM fun o _ => ?_) fun _ _ => .refl _
  split
  · exact .refl _
  · exact cut_isSubtype h o t

section Lift

theorem firstFound_lift (find : Ty → Result (Option Ty)) (ts : List Ty) :
    firstFound (fun t => (liftM (find t) : StateT σ Result (Option Ty))) ts =
      liftM (firstFound find ts) := by
  induction ts with
  | nil => exact (liftM_pure none).symm
  | cons t ts ih =>
    rw [firstFound, firstFound, liftM_bind]
    refine bind_congr fun found => ?_
    cases found with
    | some s => exact (liftM_pure (some s)).symm
    | none => exact ih

theorem climb_lift (step : Ty → Result Ascent) (n : Nat) (t : Ty) :
    climb (fun t => (liftM (step t) : StateT σ Result Ascent)) n t = liftM (climb step n t) := by
  induction n generalizing t with
  | zero => rfl
  | succ n ih =>
    rw [climb, climb, liftM_bind]
    refine bind_congr fun a => ?_
    cases a with
    | arrived s => exact (liftM_pure (some s)).symm
    | above ts =>
      rw [← firstFound_lift, funext ih]

theorem mapM_number_stateT (ts : List Ty) :
    (ts.mapM Numbering.number : StateT σ Result (List Ty)) = pure ts := by
  induction ts with
  | nil => rfl
  | cons t ts ih =>
    rw [mapM_cons, ih]
    rfl

/-- Where results are only looked up and recorded, going up is a matter of results. -/
theorem resolveSupertype_stateT (n : Nat) (t : Ty) (target : ClassId) :
    (tbl.resolveSupertype n t target : StateT σ Result (Option Ty)) =
      liftM (tbl.resolveSupertype n t target : Result (Option Ty)) := by
  have hstep (t : Ty) : (do (← tbl.ascend n target t).number : StateT σ Result Ascent) =
      liftM (tbl.ascend n target t) := by
    conv_rhs => rw [← bind_pure (liftM (tbl.ascend n target t) : StateT σ Result Ascent)]
    refine bind_congr fun a => ?_
    cases a with
    | arrived s => rfl
    | above ts =>
      rw [Ascent.number, mapM_number_stateT]
      rfl
  rw [resolveSupertype_eq_climb, ← climb_lift, resolveSupertype]
  exact congrArg (fun step => climb step n t) (funext hstep)

end Lift

end Table

/-! ### Least upper bounds -/

/-- All known bounds are made of layers with the property. -/
def KnownBounds.Every (q : Ty → Prop) (known : KnownBounds) : Prop :=
  ∀ e ∈ known, ∀ b ∈ e.2, b.Every q

namespace Promise

variable {q : Ty → Prop} {tbl : Table} {m : Type → Type} [Monad m] [LawfulMonad m]
  [MonadLiftT Result m] [Numbering m] (A : Promise m q) {n n' : Nat}
  {lub lub' : List (List Ty) → List Ty → BoundsM m (List Ty)} {active : List (List Ty)} {s : Ty}
  {types : List Ty}

/-- Computations that look up and record bounds. -/
def bounds : Promise (BoundsM m) q :=
  A.state (KnownBounds.Every q)

/-- The bounds that the recursive calls give are made of the types that they bound. -/
def KeepsAll (lub lub' : List (List Ty) → List Ty → BoundsM m (List Ty)) : Prop :=
  ∀ active, A.bounds.KeepsBounds (lub active) (lub' active)

omit [LawfulMonad m] in
theorem gives_minimalTypes (hle : n ≤ n') (htypes : ∀ t ∈ types, t.Every q) :
    A.GivesTypes (liftM (tbl.minimalTypes n types)) (liftM (tbl.minimalTypes n' types)) :=
  A.cut (fun _ h x hx => htypes x ((mem_filterM h).mp hx).1) (Table.cut_minimalTypes hle types)

theorem gives_sameOrUnbounded (hs : s.Every q) :
    A.bounds.Gives (tbl.sameOrUnbounded s t : BoundsM m Ty) (tbl.sameOrUnbounded s t)
      (Ty.Every q) := by
  rw [Table.sameOrUnbounded]
  split
  · exact A.bounds.pure hs
  · refine A.bounds.bind (A.bounds.lift fun x h => ?_) fun x hx => A.bounds.number hx
    exact A.lenient.makeWildcard h (fun _ h => by cases h) fun _ h => by cases h

theorem gives_pairArguments {combine combine'} (hcombine : ∀ s t, s.Every q → t.Every q →
      A.bounds.Gives (combine s t) (combine' s t) (Ty.Every q)) {ss}
    (hss : ∀ s ∈ ss, s.Every q) (hts : ∀ t ∈ ts, t.Every q) :
    A.bounds.GivesTypes (Table.pairArguments combine ss ts)
      (Table.pairArguments combine' ss ts) := by
  induction ss generalizing ts with
  | nil =>
    cases ts with
    | nil => exact A.bounds.pure (forall_mem_nil _)
    | cons => exact A.bounds.fail
  | cons s ss ih =>
    cases ts with
    | nil => exact A.bounds.fail
    | cons t ts =>
      rw [forall_mem_cons] at hss hts
      refine A.bounds.bind (hcombine s t hss.1 hts.1) fun x hx => ?_
      refine A.bounds.bind (ih hss.2 hts.2) fun xs hxs => A.bounds.pure ?_
      exact forall_mem_cons.mpr ⟨hx, hxs⟩

section Bounds

variable (hlub : A.KeepsAll lub lub')

include hlub

theorem gives_leastUpperBoundsWith :
    A.KeepsBounds (Table.leastUpperBoundsWith lub) (Table.leastUpperBoundsWith lub') := by
  intro types htypes
  cases types with
  | nil => exact A.fail
  | cons t types =>
    simp only [Table.leastUpperBoundsWith]
    split
    · exact A.fail
    · split
      · exact A.pure (forall_mem_singleton.mpr (htypes t mem_cons_self))
      · refine A.map (hlub [] _ (fun x hx => htypes x (Table.mem_of_mem_distinct hx)) [] ?_)
          fun r hr => hr.1
        exact forall_mem_nil _

theorem gives_extendsBound (hs : s.Every q) (ht : t.Every q) :
    A.bounds.Gives (tbl.extendsBound lub active s t) (tbl.extendsBound lub' active s t)
      (Ty.Every q) := by
  refine A.bounds.bind (hlub active [s, t] (by simpa using ⟨hs, ht⟩)) fun bs hbs => ?_
  refine A.bounds.bind (A.bounds.lift fun b h => A.lenient.joinBounds h hbs) fun b hb => ?_
  refine A.bounds.bind (A.bounds.lift fun x h => ?_) fun x hx => A.bounds.number hx
  exact A.lenient.makeWildcard h hb fun _ h => by cases h

variable (hle : n ≤ n')

include hle

theorem gives_greatestLowerBoundWith (hs : s.Every q)
    (ht : t.Every q) :
    A.Gives (tbl.greatestLowerBoundWith n lub s t) (tbl.greatestLowerBoundWith n' lub' s t)
      (Ty.Every q) := by
  refine A.bind (A.cut (fun b h => h) (Table.cut_isSubtype hle s t)) fun below _ => ?_
  split
  · exact A.pure hs
  refine A.bind (A.cut (fun b h => h) (Table.cut_isSubtype hle t s)) fun above _ => ?_
  split
  · exact A.pure ht
  have hsub {keep : Ty → Bool} {ts : List Ty} (hts : ∀ t ∈ ts, t.Every q) :
      ∀ t ∈ ts.filter keep, t.Every q := fun t h => hts t (mem_filter.mp h).1
  have hdistinct {ts : List Ty} (hts : ∀ t ∈ ts, t.Every q) : ∀ t ∈ Ty.distinct ts, t.Every q :=
    fun t h => hts t (Table.mem_of_mem_distinct h)
  dsimp only
  generalize hbounds : Ty.distinct _ = bounds
  have hevery : ∀ b ∈ bounds, b.Every q := by
    rw [← hbounds]
    refine hdistinct (forall_mem_append.mpr ⟨?_, ?_⟩)
    · split
      · exact fun b hb => hs.part hb
      · exact forall_mem_singleton.mpr hs
    · split
      · exact fun b hb => ht.part hb
      · exact forall_mem_singleton.mpr ht
  -- The classes are merged if there are several, and kept otherwise; the rest is the same.
  refine A.ite_bind (A.gives_leastUpperBoundsWith hlub _ (hsub hevery)) (A.pure (hsub hevery))
    fun merged hmerged => ?_
  refine A.bind (A.gives_minimalTypes hle (hdistinct ?_)) fun reduced hreduced => ?_
  · exact forall_mem_append.mpr
      ⟨forall_mem_append.mpr ⟨hsub hmerged, hsub hevery⟩, hsub hmerged⟩
  split
  · exact A.pure (hreduced _ mem_cons_self)
  · exact A.bind (A.lift fun x h => A.lenient.makeIntersection h hreduced) fun x hx =>
      A.number hx

theorem gives_superBound (hs : s.Every q)
    (ht : t.Every q) :
    A.bounds.Gives (tbl.superBound n lub s t) (tbl.superBound n' lub' s t) (Ty.Every q) := by
  refine A.bounds.bind (A.state_lift (A.gives_greatestLowerBoundWith hlub hle hs ht)) fun b hb => ?_
  refine A.bounds.bind (A.bounds.lift fun x h => ?_) fun x hx => A.bounds.number hx
  exact A.lenient.makeWildcard h (fun _ h => by cases h) fun l hl => by cases hl; exact hb

theorem gives_containingArgument (hs : s.Every q)
    (ht : t.Every q) :
    A.bounds.Gives (tbl.containingArgument n lub active s t)
      (tbl.containingArgument n' lub' active s t) (Ty.Every q) := by
  unfold Table.containingArgument
  split
  · split
    · exact A.gives_extendsBound hlub hs.upper ht.upper
    · exact A.gives_sameOrUnbounded hs.lower
    · exact A.gives_sameOrUnbounded ht.lower
    · exact A.gives_superBound hlub hle hs.lower ht.lower
  · split
    · exact A.gives_extendsBound hlub hs.upper ht
    · exact A.gives_superBound hlub hle hs.lower ht
  · split
    · exact A.gives_extendsBound hlub ht.upper hs
    · exact A.gives_superBound hlub hle ht.lower hs
  · split
    · exact A.bounds.pure hs
    · exact A.gives_extendsBound hlub hs ht

theorem gives_containingInvocation (hs : s.Every q)
    (ht : t.Every q) :
    A.bounds.Gives (tbl.containingInvocation n lub active s t)
      (tbl.containingInvocation n' lub' active s t) (Ty.Every q) := by
  induction s using Ty.children_induction generalizing t with
  | step s ih =>
    cases s with
    | declared c args owner marks =>
      cases t with
      | declared d args' owner' marks' =>
        have hargs (o : Option Ty) (ho : ∀ x ∈ o, x.Every q) : A.bounds.Gives
            (Table.pairArguments (tbl.containingArgument n lub active) args args' >>= fun xs =>
              liftM (tbl.makeDeclared c xs o []))
            (Table.pairArguments (tbl.containingArgument n' lub' active) args args' >>= fun xs =>
              liftM (tbl.makeDeclared c xs o [])) (Ty.Every q) := by
          refine A.bounds.bind (A.gives_pairArguments
            (fun s t hs ht => A.gives_containingArgument hlub hle hs ht) (fun a ha => hs.arg ha)
            fun a ha => ht.arg ha) fun xs hxs => ?_
          exact A.bounds.lift fun x h => A.lenient.makeDeclared h hxs ho
        have hsome (x : Ty) (hx : x.Every q) : ∀ y ∈ some x, y.Every q := by
          rintro y ⟨⟩
          exact hx
        cases owner with
        | none => exact A.bounds.bind (A.bounds.pure (fun _ h => by cases h)) hargs
        | some s =>
          have hs' : s.Every q := hs.owner rfl
          cases owner' with
          | none => exact A.bounds.bind (A.bounds.pure (hsome s hs')) hargs
          | some t =>
            have ht' : t.Every q := ht.owner rfl
            refine A.bounds.bind (A.bounds.lift fun b h => h) fun b _ => ?_
            split
            · exact A.bounds.bind (A.bounds.pure (hsome s hs')) hargs
            refine A.bounds.bind (A.bounds.lift fun b h => h) fun b _ => ?_
            split
            · exact A.bounds.bind (A.bounds.pure (hsome t ht')) hargs
            · exact A.bounds.bind (A.bounds.map (ih s (by simp [Ty.children]) hs' ht') hsome) hargs
      | _ => exact A.bounds.pure hs
    | _ => exact A.bounds.pure hs

theorem gives_commonInvocation (c : ClassId) {found}
    (hfound : ∀ x ∈ found, x.Every q) (htypes : ∀ t ∈ types, t.Every q) :
    A.bounds.GivesType? (tbl.commonInvocation n lub active c found types)
      (tbl.commonInvocation n' lub' active c found types) := by
  induction types generalizing found with
  | nil => exact A.bounds.pure hfound
  | cons t types ih =>
    rw [forall_mem_cons] at htypes
    refine A.bounds.bind (A.bounds.gives_resolveSupertype hle htypes.1 c) fun r hr => ?_
    split
    · rename_i d args owner marks
      have hnext : (Ty.declared d args owner marks).Every q := hr _ rfl
      split
      · exact A.bounds.pure fun _ h => by cases h
      · cases found with
        | none => exact ih (fun x hx => by cases hx; exact hnext) htypes.2
        | some s =>
          refine A.bounds.bind (A.gives_containingInvocation hlub hle (hfound s rfl) hnext)
            fun x hx => ?_
          exact ih (fun y hy => by cases hy; exact hx) htypes.2
    · exact A.bounds.pure fun _ h => by cases h

theorem gives_parameterize (htypes : ∀ t ∈ types, t.Every q) (ht : t.Every q) :
    A.bounds.Gives (tbl.parameterize n lub active types t)
      (tbl.parameterize n' lub' active types t) (Ty.Every q) := by
  unfold Table.parameterize
  split
  · split
    · exact A.bounds.pure ht
    · refine A.bounds.bind (A.gives_commonInvocation hlub hle _ (fun _ h => by cases h) htypes)
        fun r hr => A.bounds.pure ?_
      cases r with
      | none => exact ht
      | some x => exact hr x rfl
  · exact A.bounds.pure ht

theorem gives_erasedSupertypes (ht : t.Every q) :
    A.GivesTypes (tbl.erasedSupertypes n lub t) (tbl.erasedSupertypes n' lub' t) := by
  have hbounds := A.gives_leastUpperBoundsWith hlub
  refine A.bind (A.gives_ancestorsWith hbounds hle ht) fun ts hts => ?_
  refine A.bind (A.mapM fun s hs => A.gives_eraseWith hbounds hle (hts s hs))
    fun xs hxs => A.pure ?_
  exact fun x hx => hxs x (Table.mem_of_mem_distinct hx)

theorem gives_commonErasedSupertypes (htypes : ∀ t ∈ types, t.Every q) :
    A.GivesTypes (tbl.commonErasedSupertypes n lub types)
      (tbl.commonErasedSupertypes n' lub' types) := by
  cases types with
  | nil => exact A.pure (forall_mem_nil _)
  | cons t types =>
    rw [forall_mem_cons] at htypes
    refine A.bind (A.gives_erasedSupertypes hlub hle htypes.1) fun first hfirst => ?_
    refine A.foldlM (fun kept hkept s hs => ?_) hfirst
    refine A.bind (A.gives_erasedSupertypes hlub hle (htypes.2 s hs)) fun others _ => A.pure ?_
    exact fun x hx => hkept x (mem_filter.mp hx).1

theorem gives_computeBounds (htypes : ∀ t ∈ types, t.Every q) :
    A.bounds.GivesTypes (tbl.computeBounds n lub active types)
      (tbl.computeBounds n' lub' active types) := by
  refine A.bounds.bind (A.state_lift (A.gives_commonErasedSupertypes hlub hle htypes))
    fun cs hcs => ?_
  refine A.bounds.bind (A.bounds.gives_minimalTypes hle hcs) fun ms hms => ?_
  refine A.bounds.bind (A.bounds.mapM fun c hc => A.gives_parameterize hlub hle htypes (hms c hc))
    fun bs hbs => A.bounds.pure fun b hb => ?_
  exact hbs b (Table.mem_classFirst.mp hb)

theorem gives_lubStep (htypes : ∀ t ∈ types, t.Every q) :
    A.bounds.GivesTypes (tbl.lubStep n lub active types) (tbl.lubStep n' lub' active types) := by
  have hreferences : ∀ t ∈ types.filter fun t => !t.isNull, t.Every q :=
    fun t h => htypes t (mem_filter.mp h).1
  unfold Table.lubStep
  split
  · exact A.bounds.pure (forall_mem_singleton.mpr (.leaf (A.lenient.plain rfl) rfl))
  · rename_i h
    rw [h] at hreferences
    exact A.bounds.pure hreferences
  · refine A.bounds.bind A.state_get fun known hknown => ?_
    cases hfind : known.find? fun e => Ty.sameMembers e.1 (types.filter fun t => !t.isNull) with
    | some e => exact A.bounds.pure (hknown e (mem_of_find?_eq_some hfind))
    | none =>
      dsimp only
      split
      · exact A.bounds.pure (forall_mem_singleton.mpr A.lenient.objectType)
      · refine A.bounds.bind (A.gives_computeBounds hlub hle hreferences) fun bs hbs => ?_
        refine A.bounds.bind (A.state_modify fun known hknown => ?_) fun _ _ => A.bounds.pure hbs
        exact forall_mem_cons.mpr ⟨hbs, hknown⟩

end Bounds

/-- The computation of least upper bounds with a larger budget. -/
theorem gives_lub (hle : n ≤ n') : A.KeepsAll (tbl.lub n) (tbl.lub n') := by
  induction n generalizing n' with
  | zero => exact fun _ _ _ => A.bounds.cutOff
  | succ n ih =>
    obtain ⟨n', rfl⟩ := Nat.exists_eq_succ_of_ne_zero (show n' ≠ 0 by omega)
    have hle := Nat.le_of_succ_le_succ hle
    exact fun active types htypes => A.gives_lubStep (ih hle) hle htypes

theorem gives_leastUpperBounds (hle : n ≤ n') :
    A.KeepsBounds (tbl.leastUpperBounds n) (tbl.leastUpperBounds n') :=
  A.gives_leastUpperBoundsWith (A.gives_lub hle)

end Promise

namespace Table

variable {tbl : Table} {n n' : Nat}

theorem cut_leastUpperBounds (h : n ≤ n') (types : List Ty) :
    Cut (tbl.leastUpperBounds n types : Result (List Ty)) (tbl.leastUpperBounds n' types) :=
  ((Promise.result Ty.lenient_true).gives_leastUpperBounds h types fun t _ => t.every_true).2

theorem cut_erase (h : n ≤ n') (t : Ty) : Cut (tbl.erase n t) (tbl.erase n' t) :=
  cut_eraseWith (fun types => cut_leastUpperBounds h types) h t

theorem cut_allSupertypes (h : n ≤ n') (t : Ty) :
    Cut (tbl.allSupertypes n t : Result (List Ty)) (tbl.allSupertypes n' t) := by
  let A := Promise.result Ty.lenient_true
  refine (A.gives_ancestorsWith (A.gives_leastUpperBounds h) h t.every_true).2.bind fun _ _ => ?_
  exact .refl _

end Table

end NominalTypes
