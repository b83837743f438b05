import NominalTypes.Error
import Mathlib

/-!
# Answers within a budget

A search with a budget of steps either gives its answer or stops with `Error.exhausted`, which says
nothing about the input. Two notions describe what such a search computes. `Yields r p` is partial:
`r` is an answer with the property `p`, or the budget ran out, but nothing else went wrong.
`Settles f a` is total: the search `f`, as a function of its budget, gives the answer `a` from some
budget on, and before that is only cut off.

Both pass through sequencing and through the usual searches of a list, so the proofs about one step
of a search need not look at budgets.
-/

namespace NominalTypes

open List

variable {α β : Type} {r : Result α} {f : α → Result β} {xs : List α} {ys : List β}
  {R : α → β → Prop}

/-! ### Answers of sequences -/

theorem bind_eq_ok {b} :
    (r >>= f) = .ok b ↔ ∃ a, r = .ok a ∧ f a = .ok b := by
  cases r with
  | error e => exact ⟨fun h => (nomatch h), fun ⟨_, h, _⟩ => (nomatch h)⟩
  | ok a => exact ⟨fun h => ⟨a, rfl, h⟩, fun ⟨_, h, hb⟩ => by cases h; exact hb⟩

theorem mapM_eq_ok :
    xs.mapM f = .ok ys ↔ Forall₂ (fun x y => f x = .ok y) xs ys := by
  induction xs generalizing ys with
  | nil =>
    rw [mapM_nil, forall₂_nil_left_iff]
    exact ⟨fun h => (Except.ok.inj h).symm, fun h => by rw [h]; rfl⟩
  | cons x xs ih =>
    rw [mapM_cons, bind_eq_ok, forall₂_cons_left_iff]
    constructor
    · rintro ⟨y, hy, h⟩
      obtain ⟨ys', hys', h⟩ := bind_eq_ok.mp h
      exact ⟨y, ys', hy, ih.mp hys', (Except.ok.inj h).symm⟩
    · rintro ⟨y, ys', hy, hys', rfl⟩
      exact ⟨y, hy, bind_eq_ok.mpr ⟨ys', ih.mpr hys', rfl⟩⟩

theorem exists_mapM_eq_ok (h : ∀ x ∈ xs, ∃ y, f x = .ok y) :
    ∃ ys, xs.mapM f = .ok ys := by
  induction xs with
  | nil => exact ⟨[], rfl⟩
  | cons x xs ih =>
    obtain ⟨y, hy⟩ := h x mem_cons_self
    obtain ⟨ys, hys⟩ := ih fun x' hx' => h x' (mem_cons_of_mem _ hx')
    exact ⟨y :: ys, mapM_eq_ok.mpr (.cons hy (mapM_eq_ok.mp hys))⟩

theorem allM_congr {f g : α → Result Bool} (h : ∀ x ∈ xs, f x = g x) :
    xs.allM f = xs.allM g := by
  induction xs with
  | nil => rfl
  | cons x xs ih =>
    rw [forall_mem_cons] at h
    rw [allM_cons, allM_cons, h.1, ih h.2]

theorem exists_of_forall₂_left (h : Forall₂ R xs ys) {x} (hx : x ∈ xs) :
    ∃ y ∈ ys, R x y := by
  induction h with
  | nil => cases hx
  | cons hxy _ ih =>
    rcases mem_cons.mp hx with rfl | hx
    · exact ⟨_, mem_cons_self, hxy⟩
    · obtain ⟨y, hy, hxy⟩ := ih hx
      exact ⟨y, mem_cons_of_mem _ hy, hxy⟩

theorem exists_of_forall₂_right (h : Forall₂ R xs ys) {y} (hy : y ∈ ys) :
    ∃ x ∈ xs, R x y :=
  exists_of_forall₂_left h.flip hy

theorem forall₂_imp_mem {R'} (h : Forall₂ R xs ys) (hR : ∀ x ∈ xs, ∀ y ∈ ys, R x y → R' x y) :
    Forall₂ R' xs ys := by
  induction h with
  | nil => exact .nil
  | cons hxy _ ih =>
    refine .cons (hR _ mem_cons_self _ mem_cons_self hxy) (ih fun x hx y hy => ?_)
    exact hR x (mem_cons_of_mem _ hx) y (mem_cons_of_mem _ hy)

theorem forall₂_join {γ : Type} {R' : α → γ → Prop} {Q : β → γ → Prop} {zs} (h : Forall₂ R xs ys)
    (h' : Forall₂ R' xs zs) (hQ : ∀ x ∈ xs, ∀ y z, R x y → R' x z → Q y z) :
    Forall₂ Q ys zs := by
  induction h generalizing zs with
  | nil =>
    cases h'
    exact .nil
  | cons hxy _ ih =>
    cases h' with
    | cons hxz h' =>
      exact .cons (hQ _ mem_cons_self _ _ hxy hxz)
        (ih h' fun x hx => hQ x (mem_cons_of_mem _ hx))

theorem rel_getElem? (h : Forall₂ R xs ys) (i : Nat) : Option.Rel R xs[i]? ys[i]? := by
  induction h generalizing i with
  | nil => exact .none
  | cons hxy _ ih =>
    cases i with
    | zero => exact .some hxy
    | succ i => exact ih i

/-! ### Cut off or as expected -/

/-- The result is an answer with the property `p`, or the budget ran out. -/
def Yields (r : Result α) (p : α → Prop) : Prop :=
  r = .error .exhausted ∨ ∃ a, r = .ok a ∧ p a

namespace Yields

variable {p : α → Prop} {q : β → Prop}

theorem exhausted : Yields (.error .exhausted : Result α) p :=
  .inl rfl

theorem ok {a} (h : p a) : Yields (.ok a) p :=
  .inr ⟨a, rfl, h⟩

theorem bind (hr : Yields r p) (hf : ∀ a, p a → Yields (f a) q) : Yields (r >>= f) q := by
  rcases hr with rfl | ⟨a, rfl, ha⟩
  · exact exhausted
  · exact hf a ha

theorem of_ok {a} (h : Yields r p) (ha : r = .ok a) : p a := by
  rcases h with h | ⟨b, h, hb⟩
  · cases ha.symm.trans h
  · cases ha.symm.trans h
    exact hb

/-- A test of all members succeeds if each of the tests does. -/
theorem allM_true {f} (xs : List α) (h : ∀ x ∈ xs, Yields (f x) (· = true)) :
    Yields (xs.allM f) (· = true) := by
  induction xs with
  | nil => exact ok rfl
  | cons x xs ih =>
    refine bind (h x mem_cons_self) fun b hb => ?_
    subst hb
    exact ih fun y hy => h y (mem_cons_of_mem _ hy)

/-- A test for some member succeeds if one of the tests does and the others do not fail. -/
theorem anyM_true {f x} (hx : x ∈ xs) (hxt : Yields (f x) (· = true))
    (h : ∀ x ∈ xs, Yields (f x) fun _ => True) :
    Yields (xs.anyM f) (· = true) := by
  induction xs with
  | nil => cases hx
  | cons y xs ih =>
    rcases mem_cons.mp hx with rfl | hx
    · refine bind hxt fun b hb => ?_
      subst hb
      exact ok rfl
    · refine bind (h y mem_cons_self) fun b _ => ?_
      cases b with
      | true => exact ok rfl
      | false => exact ih hx fun z hz => h z (mem_cons_of_mem _ hz)

end Yields

/-! ### Answers that large budgets find -/

/-- The search gives the answer `a` from some budget on, and with less it is cut off. -/
def Settles (f : Nat → Result α) (a : α) : Prop :=
  (∃ n, ∀ k ≥ n, f k = .ok a) ∧ ∀ k, f k = .error .exhausted ∨ f k = .ok a

namespace Settles

variable {f : Nat → Result α} {a : α}

theorem ok (a : α) : Settles (fun _ => .ok a) a :=
  ⟨⟨0, fun _ _ => rfl⟩, fun _ => .inr rfl⟩

theorem yields {p} (h : Settles f a) (ha : p a) (k : Nat) : Yields (f k) p :=
  (h.2 k).imp_right fun hk => ⟨a, hk, ha⟩

theorem eq_of_ok (h : Settles f a) {k b} (hb : f k = .ok b) : b = a := by
  rcases h.2 k with hk | hk
  · cases hb.symm.trans hk
  · cases hb.symm.trans hk
    rfl

theorem eq (h : Settles f a) {b} (hb : Settles f b) : b = a := by
  obtain ⟨n, hn⟩ := hb.1
  exact h.eq_of_ok (hn n (Nat.le_refl n))

theorem of_yields {p} (h : Settles f a) (hp : ∀ k, Yields (f k) p) : p a := by
  obtain ⟨n, hn⟩ := h.1
  exact (hp n).of_ok (hn n (Nat.le_refl n))

/-- A search that spends one step and goes on. -/
theorem step {g} (h : Settles f a) (hzero : g 0 = .error .exhausted)
    (hsucc : ∀ k, g (k + 1) = f k) : Settles g a := by
  obtain ⟨n, hn⟩ := h.1
  refine ⟨⟨n + 1, fun k hk => ?_⟩, fun k => ?_⟩
  · obtain ⟨k, rfl⟩ := Nat.exists_eq_add_of_le' hk
    rw [← Nat.add_assoc, hsucc]
    exact hn _ (by omega)
  · cases k with
    | zero => exact .inl hzero
    | succ k =>
      rw [hsucc]
      exact h.2 k

/-- A search with a larger budget at each step. -/
theorem comp {φ : Nat → Nat} (h : Settles f a) (hφ : ∀ k, k ≤ φ k) :
    Settles (fun k => f (φ k)) a := by
  obtain ⟨n, hn⟩ := h.1
  exact ⟨⟨n, fun k hk => hn _ (Nat.le_trans hk (hφ k))⟩, fun k => h.2 (φ k)⟩

theorem bind {g : α → Nat → Result β} {b} (hf : Settles f a) (hg : Settles (g a) b) :
    Settles (fun k => f k >>= fun x => g x k) b := by
  obtain ⟨n, hn⟩ := hf.1
  obtain ⟨n', hn'⟩ := hg.1
  refine ⟨⟨max n n', fun k hk => ?_⟩, fun k => ?_⟩
  · dsimp only
    rw [hn k (Nat.le_trans (Nat.le_max_left n n') hk)]
    exact hn' k (Nat.le_trans (Nat.le_max_right n n') hk)
  · dsimp only
    rcases hf.2 k with h | h
    · rw [h]
      exact .inl rfl
    · rw [h]
      exact hg.2 k

/-- A test of all members has an answer if each of the tests has. -/
theorem allM {f : Nat → α → Result Bool} (xs : List α)
    (h : ∀ x ∈ xs, ∃ b, Settles (fun k => f k x) b) :
    ∃ b, Settles (fun k => xs.allM (f k)) b := by
  induction xs with
  | nil => exact ⟨true, ok true⟩
  | cons x xs ih =>
    obtain ⟨b, hb⟩ := h x mem_cons_self
    obtain ⟨c, hc⟩ := ih fun y hy => h y (mem_cons_of_mem _ hy)
    cases b with
    | false => exact ⟨false, hb.bind (ok false)⟩
    | true => exact ⟨c, hb.bind hc⟩

/-- A test for some member has an answer if each of the tests has. -/
theorem anyM {f : Nat → α → Result Bool} (xs : List α)
    (h : ∀ x ∈ xs, ∃ b, Settles (fun k => f k x) b) :
    ∃ b, Settles (fun k => xs.anyM (f k)) b := by
  induction xs with
  | nil => exact ⟨false, ok false⟩
  | cons x xs ih =>
    obtain ⟨b, hb⟩ := h x mem_cons_self
    obtain ⟨c, hc⟩ := ih fun y hy => h y (mem_cons_of_mem _ hy)
    cases b with
    | true => exact ⟨true, hb.bind (ok true)⟩
    | false => exact ⟨c, hb.bind hc⟩

/-- A test of all members succeeds if each of the tests does. -/
theorem allM_true {f : Nat → α → Result Bool} (xs : List α)
    (h : ∀ x ∈ xs, Settles (fun k => f k x) true) : Settles (fun k => xs.allM (f k)) true := by
  obtain ⟨b, hb⟩ := allM xs fun x hx => ⟨true, h x hx⟩
  have hbt := hb.of_yields fun k => Yields.allM_true xs fun x hx =>
    (h x hx).yields (p := (· = true)) rfl k
  subst hbt
  exact hb

theorem mapM {f : Nat → α → Result β}
    (h : Forall₂ (fun x y => Settles (fun k => f k x) y) xs ys) :
    Settles (fun k => xs.mapM (f k)) ys := by
  induction h with
  | nil => exact ok []
  | cons hx _ ih =>
    simp only [mapM_cons]
    exact hx.bind (ih.bind (ok _))

end Settles

end NominalTypes
