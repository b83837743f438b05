import NominalTypes.Proofs.Cutoff

/-!
# Equal types are subtypes of each other

The check of a type against an equal copy of it compares the two as wholes only if they are neither
intersections nor unions. Otherwise it takes them apart, in a fixed order: the intersection on the
right, the union on the left, the intersection on the left, the union on the right. A part that
comes off the left type must then find its copy in the whole of the right type, or the other way
round.

For an alternative of a union this works as long as it is not itself an intersection: it finds its
copy as an alternative on the right. Likewise a bound of an intersection on the right finds its copy
among the bounds on the left. But an intersection that is an alternative on the left is taken apart
before the union on the right is, and none of its bounds alone need be below any alternative. So
unions of intersections are not below their copies (`isSubtype_union_of_intersection`). All types
without an intersection inside a union are (`isSameType_mutual`).

The check of a composite type may compare parts that have nothing to do with each other on its way,
and such a comparison need not end. So it is shown apart that the check never answers that it fails,
and that it has an answer if those comparisons have.
-/

namespace NominalTypes

open List

variable {x : Ty} {n : Nat} {bounds alternatives : List Ty}

namespace Ty

variable {s t : Ty}

/-- The type is no intersection, union or wildcard. -/
def Atomic (t : Ty) : Prop :=
  t.kind ≠ .intersection ∧ t.kind ≠ .union ∧ t.kind ≠ .wildcard

/-- Atomic types, and unions of such types, nested in any way. -/
inductive Flat : Ty → Prop
  | atomic {t : Ty} (h : t.Atomic) : Flat t
  | union {n : Nat} {alternatives : List Ty} (h : ∀ a ∈ alternatives, Flat a) :
    Flat (union n alternatives)

/-- Intersections may have unions as bounds, but no intersection is inside a union. -/
inductive Tidy : Ty → Prop
  | flat {t : Ty} (h : Flat t) : Tidy t
  | intersection {n : Nat} {bounds : List Ty} (h : ∀ b ∈ bounds, Tidy b) :
    Tidy (intersection n bounds)

/-- What is left of the second type if intersections and unions are taken apart. -/
inductive Constituent (x : Ty) : Ty → Prop
  | self (h : x.kind ≠ .intersection ∧ x.kind ≠ .union) : Constituent x x
  | bound {n bounds b} (hb : b ∈ bounds) (h : Constituent x b) :
    Constituent x (intersection n bounds)
  | alternative {n alternatives a} (ha : a ∈ alternatives) (h : Constituent x a) :
    Constituent x (union n alternatives)

theorem constituent_intersection :
    x.Constituent (intersection n bounds) ↔ ∃ b ∈ bounds, x.Constituent b := by
  refine ⟨fun h => ?_, fun ⟨b, hb, h⟩ => .bound hb h⟩
  cases h with
  | self h => exact absurd rfl h.1
  | bound hb h => exact ⟨_, hb, h⟩

theorem constituent_union :
    x.Constituent (union n alternatives) ↔ ∃ a ∈ alternatives, x.Constituent a := by
  refine ⟨fun h => ?_, fun ⟨a, ha, h⟩ => .alternative ha h⟩
  cases h with
  | self h => exact absurd rfl h.2
  | alternative ha h => exact ⟨_, ha, h⟩

theorem Atomic.constituent (h : t.Atomic) (hx : x.Constituent t) : x = t := by
  cases hx with
  | self _ => rfl
  | bound _ _ => exact absurd rfl h.1
  | alternative _ _ => exact absurd rfl h.2.1

theorem Flat.kind_ne (h : Flat t) : t.kind ≠ .intersection ∧ t.kind ≠ .wildcard := by
  cases h with
  | atomic h => exact ⟨h.1, h.2.2⟩
  | union _ => simp [kind]

theorem Tidy.kind_ne (h : Tidy t) : t.kind ≠ .wildcard := by
  cases h with
  | flat h => exact h.kind_ne.2
  | intersection _ => simp [kind]

theorem Flat.constituent (h : Flat t) (hx : x.Constituent t) : x.Atomic := by
  induction h with
  | atomic h => exact h.constituent hx ▸ h
  | union _ ih =>
    obtain ⟨a, ha, hx⟩ := constituent_union.mp hx
    exact ih a ha hx

theorem Tidy.constituent (h : Tidy t) (hx : x.Constituent t) : x.Atomic := by
  induction h with
  | flat h => exact h.constituent hx
  | intersection _ ih =>
    obtain ⟨b, hb, hx⟩ := constituent_intersection.mp hx
    exact ih b hb hx

/-! ### The members of equal types -/

/-- Each member of one list has its equal in the other. -/
def Paired (ss ts : List Ty) : Prop :=
  (∀ s ∈ ss, ∃ t ∈ ts, s.same t = true) ∧ ∀ t ∈ ts, ∃ s ∈ ss, t.same s = true

theorem paired_of_sameMembers {ss ts} (h : sameMembers ss ts = true) : Paired ss ts := by
  simpa [sameMembers, isIn, Paired] using h

theorem paired_of_sameAll {ss ts} (h : sameAll ss ts = true) : Paired ss ts := by
  refine ⟨fun s hs => exists_of_forall₂_left (forall₂_of_sameAll h) hs, fun t ht => ?_⟩
  obtain ⟨s, hs, hst⟩ := exists_of_forall₂_right (forall₂_of_sameAll h) ht
  exact ⟨s, hs, same_symm hst⟩

/-- Equal up to the order and repetition of the members of an outermost intersection or union. -/
inductive Alike : Ty → Ty → Prop
  | atomic {s t : Ty} (hs : s.Atomic) (h : s.same t = true) : Alike s t
  | intersection {n m ss ts} (h : Paired ss ts) : Alike (intersection n ss) (intersection m ts)
  | union {n m ss ts} (h : Paired ss ts) : Alike (union n ss) (union m ts)

theorem Atomic.of_same (hs : s.Atomic) (h : s.same t = true) : t.Atomic := by
  rwa [Atomic, ← kind_eq_of_same h]

theorem Alike.symm (h : Alike s t) : Alike t s := by
  cases h with
  | atomic hs h => exact .atomic (hs.of_same h) (same_symm h)
  | intersection h => exact .intersection h.symm
  | union h => exact .union h.symm

theorem alike_of_same (h : s.same t = true) (hs : s.kind ≠ .wildcard) : Alike s t := by
  have hkind := kind_eq_of_same h
  cases s with
  | intersection n ss =>
    cases t with
    | intersection m ts => exact .intersection (paired_of_sameAll h)
    | _ => cases hkind
  | union n ss =>
    cases t with
    | union m ts => exact .union (paired_of_sameAll h)
    | _ => cases hkind
  | wildcard n upper lower marks => exact absurd rfl hs
  | _ => exact .atomic (by simp [Atomic, kind]) h

theorem alike_of_isSameType (h : s.isSameType t = true) : Alike s t := by
  unfold isSameType at h
  rw [Bool.and_eq_true, Bool.and_eq_true] at h
  obtain ⟨⟨hs, -⟩, h⟩ := h
  split at h
  · exact .intersection (paired_of_sameMembers h)
  · exact .union (paired_of_sameMembers h)
  · refine alike_of_same h fun hkind => ?_
    cases s with
    | wildcard n upper lower marks => cases hs
    | _ => cases hkind

theorem Flat.of_alike (h : Flat s) (hst : Alike s t) : Flat t := by
  induction h generalizing t with
  | atomic h =>
    cases hst with
    | atomic hs hsame => exact .atomic (hs.of_same hsame)
    | intersection _ => exact absurd rfl h.1
    | union _ => exact absurd rfl h.2.1
  | union h ih =>
    cases hst with
    | atomic hs _ => exact absurd rfl hs.2.1
    | union hpaired =>
      refine .union fun a ha => ?_
      obtain ⟨b, hb, hab⟩ := hpaired.2 a ha
      exact ih b hb (alike_of_same (same_symm hab) (h b hb).kind_ne.2)

theorem Tidy.of_alike (h : Tidy s) (hst : Alike s t) : Tidy t := by
  induction h generalizing t with
  | flat h => exact .flat (h.of_alike hst)
  | intersection h ih =>
    cases hst with
    | atomic hs _ => exact absurd rfl hs.1
    | intersection hpaired =>
      refine .intersection fun a ha => ?_
      obtain ⟨b, hb, hab⟩ := hpaired.2 a ha
      exact ih b hb (alike_of_same (same_symm hab) (h b hb).kind_ne)

end Ty

namespace Table

variable {tbl : Table} {rel : Relation} {k : Nat} {s t : Ty}

/-! ### Taking composite types apart -/

theorem check_intersection (n : Nat) (bounds : List Ty) :
    tbl.check (k + 1) rel s (.intersection n bounds) =
      if s.isSameOccurrence (.intersection n bounds) then .ok true
      else bounds.allM (tbl.check k rel s) := by
  cases s <;> rfl

theorem check_union_left (n : Nat) (alternatives : List Ty) (ht : t.kind ≠ .intersection) :
    tbl.check (k + 1) rel (.union n alternatives) t =
      if (Ty.union n alternatives).isSameOccurrence t then .ok true
      else alternatives.allM fun a => tbl.check k rel a t := by
  cases t <;> first | rfl | exact absurd rfl ht

theorem check_intersection_left (n : Nat) (bounds : List Ty) (ht : t.kind ≠ .intersection) :
    tbl.check (k + 1) rel (.intersection n bounds) t =
      if (Ty.intersection n bounds).isSameOccurrence t then .ok true
      else bounds.anyM fun b => tbl.check k rel b t := by
  cases t <;> first | rfl | exact absurd rfl ht

theorem check_union (n : Nat) (alternatives : List Ty)
    (hs : s.kind ≠ .intersection ∧ s.kind ≠ .union) :
    tbl.check (k + 1) rel s (.union n alternatives) =
      if s.isSameOccurrence (.union n alternatives) then .ok true
      else alternatives.anyM (tbl.check k rel s) := by
  cases s <;> first | rfl | exact absurd rfl hs.1 | exact absurd rfl hs.2

theorem check_simple (hs : s.kind ≠ .intersection ∧ s.kind ≠ .union)
    (ht : t.kind ≠ .intersection ∧ t.kind ≠ .union) (hne : s.isSameOccurrence t = false) :
    tbl.check (k + 1) rel s t = tbl.checkSimple k (tbl.check k) rel s t := by
  unfold check checkStep
  rw [if_neg (by simp [hne])]
  split
  · exact absurd rfl ht.1
  · exact absurd rfl hs.2
  · exact absurd rfl hs.1
  · exact absurd rfl ht.2
  · rfl

theorem check_atomic (hs : s.Atomic) (h : s.same t = true) :
    tbl.check (k + 1) rel s t = .ok true := by
  have ht := hs.of_same h
  have hsimple : tbl.checkSimple k (tbl.check k) rel s t = .ok true := by
    unfold checkSimple
    rw [if_pos]
    · rfl
    · rw [h, Bool.and_true, Bool.not_eq_true']
      cases s with
      | wildcard n upper lower marks => exact absurd rfl hs.2.2
      | _ => rfl
  unfold check checkStep
  split
  · rfl
  split
  · exact absurd rfl ht.1
  · exact absurd rfl hs.2.1
  · exact absurd rfl hs.1
  · exact absurd rfl ht.2.1
  · exact hsimple

/-! ### The check does not fail -/

theorem allM_ne_false {α : Type} {f : α → Result Bool} {xs : List α}
    (h : ∀ x ∈ xs, f x ≠ .ok false) : xs.allM f ≠ .ok false := by
  induction xs with
  | nil => simp [pure, Except.pure]
  | cons x xs ih =>
    rw [forall_mem_cons] at h
    intro heq
    obtain ⟨b, hb, heq⟩ := bind_eq_ok.mp heq
    cases b with
    | false => exact h.1 hb
    | true => exact ih h.2 heq

theorem anyM_ne_false {α : Type} {f : α → Result Bool} {xs : List α} {x : α} (hx : x ∈ xs)
    (h : f x ≠ .ok false) : xs.anyM f ≠ .ok false := by
  induction xs with
  | nil => cases hx
  | cons y xs ih =>
    intro heq
    obtain ⟨b, hb, heq⟩ := bind_eq_ok.mp heq
    cases b with
    | true => cases heq
    | false =>
      rcases mem_cons.mp hx with rfl | hx
      · exact h hb
      · exact ih hx heq

/-- The first type, up to equality, is the second one or an alternative inside it. -/
inductive AmongAlternatives (s : Ty) : Ty → Prop
  | alike {t : Ty} (h : s.Alike t) : AmongAlternatives s t
  | alternative {n : Nat} {alternatives : List Ty} {a : Ty} (ha : a ∈ alternatives)
    (h : AmongAlternatives s a) : AmongAlternatives s (.union n alternatives)

/-- The second type, up to equality, is the first one or a bound inside it. -/
inductive AmongBounds (t : Ty) : Ty → Prop
  | alike {s : Ty} (h : s.Alike t) : AmongBounds t s
  | bound {n bounds b} (hb : b ∈ bounds) (h : AmongBounds t b) :
    AmongBounds t (.intersection n bounds)

theorem AmongAlternatives.of_mem (h : AmongAlternatives (.union n alternatives) t) {a : Ty}
    (ha : a ∈ alternatives) (hkind : a.kind ≠ .wildcard) : AmongAlternatives a t := by
  induction h with
  | alike h =>
    cases h with
    | atomic hs _ => exact absurd rfl hs.2.1
    | union hpaired =>
      obtain ⟨b, hb, hab⟩ := hpaired.1 a ha
      exact .alternative hb (.alike (Ty.alike_of_same hab hkind))
  | alternative hb _ ih => exact .alternative hb ih

theorem AmongBounds.of_mem (h : AmongBounds (.intersection n bounds) s) {b} (hb : b ∈ bounds)
    (hkind : b.kind ≠ .wildcard) : AmongBounds b s := by
  induction h with
  | alike h =>
    cases h with
    | atomic hs hsame => exact absurd rfl (hs.of_same hsame).1
    | intersection hpaired =>
      obtain ⟨a, ha, hba⟩ := hpaired.2 b hb
      exact .bound ha (.alike (Ty.alike_of_same hba hkind).symm)
  | bound ha _ ih => exact .bound ha ih

theorem AmongAlternatives.kind_ne (hs : s.Flat) (h : AmongAlternatives s t) :
    t.kind ≠ .intersection := by
  cases h with
  | alike h => exact (hs.of_alike h).kind_ne.1
  | alternative _ _ => simp [Ty.kind]

theorem check_ne_false_of_flat (hs : s.Flat) (h : AmongAlternatives s t) :
    tbl.check k rel s t ≠ .ok false := by
  induction k generalizing s t with
  | zero => simp [check, throw, throwThe, MonadExceptOf.throw]
  | succ k ih =>
    cases hs with
    | @union n alternatives hall =>
      rw [check_union_left _ _ (h.kind_ne (.union hall))]
      split
      · simp
      · exact allM_ne_false fun a ha => ih (hall a ha) (h.of_mem ha (hall a ha).kind_ne.2)
    | atomic hs =>
      cases h with
      | alike h =>
        cases h with
        | atomic _ hsame => simp [check_atomic hs hsame]
        | intersection _ => exact absurd rfl hs.1
        | union _ => exact absurd rfl hs.2.1
      | alternative ha h =>
        rw [check_union _ _ ⟨hs.1, hs.2.1⟩]
        split
        · simp
        · exact anyM_ne_false ha (ih (.atomic hs) h)

theorem check_ne_false_of_tidy (ht : t.Tidy) (h : AmongBounds t s) :
    tbl.check k rel s t ≠ .ok false := by
  induction k generalizing s t with
  | zero => simp [check, throw, throwThe, MonadExceptOf.throw]
  | succ k ih =>
    cases ht with
    | @intersection n bounds hall =>
      rw [check_intersection]
      split
      · simp
      · exact allM_ne_false fun b hb => ih (hall b hb) (h.of_mem hb (hall b hb).kind_ne)
    | flat ht =>
      cases h with
      | alike h => exact check_ne_false_of_flat (ht.of_alike h.symm) (.alike h)
      | bound hb h =>
        rw [check_intersection_left _ _ ht.kind_ne.1]
        split
        · simp
        · exact anyM_ne_false hb (ih (.flat ht) h)

/-! ### The check ends -/

theorem settles_check_of_ok {v} (h : tbl.check n rel s t = .ok v) :
    Settles (fun k => tbl.check k rel s t) v := by
  refine ⟨⟨n, fun k hk => (cut_check hk rel s t).eq_ok h⟩, fun k => ?_⟩
  rcases Nat.le_total k n with hk | hk
  · exact (cut_check hk rel s t).imp_right (·.trans h)
  · exact .inr ((cut_check hk rel s t).eq_ok h)

theorem exists_settles_of_step {f c} [Decidable c] (hf : ∃ v, Settles f v)
    (hstep : ∀ k, tbl.check (k + 1) rel s t = if c then .ok true else f k) :
    ∃ v, Settles (fun k => tbl.check k rel s t) v := by
  by_cases hc : c
  · exact ⟨true, (Settles.ok true).step rfl fun k => by rw [hstep, if_pos hc]⟩
  · obtain ⟨v, hv⟩ := hf
    exact ⟨v, hv.step rfl fun k => by rw [hstep, if_neg hc]⟩

/-- The check of composite types has an answer if all comparisons of their constituents have. By
induction on the two types, since each step takes one of them apart. -/
theorem exists_settles_check (h : ∀ a b, a.Constituent s → b.Constituent t →
      ∃ v, Settles (fun k => tbl.check k rel a b) v) :
    ∃ v, Settles (fun k => tbl.check k rel s t) v := by
  induction s using Ty.children_induction generalizing t with
  | step s ihs =>
    induction t using Ty.children_induction with
    | step t iht =>
      by_cases ht : t.kind = .intersection
      · cases t with
        | intersection n bounds =>
          refine exists_settles_of_step (Settles.allM bounds fun b hb => ?_)
            fun k => check_intersection n bounds
          exact iht b hb fun a c ha hc => h a c ha (.bound hb hc)
        | _ => cases ht
      by_cases hs : s.kind = .union
      · cases s with
        | union n alternatives =>
          refine exists_settles_of_step (Settles.allM alternatives fun a ha => ?_)
            fun k => check_union_left n alternatives ht
          exact ihs a ha fun c b hc hb => h c b (.alternative ha hc) hb
        | _ => cases hs
      by_cases hs' : s.kind = .intersection
      · cases s with
        | intersection n bounds =>
          refine exists_settles_of_step (Settles.anyM bounds fun b hb => ?_)
            fun k => check_intersection_left n bounds ht
          exact ihs b hb fun a c ha hc => h a c (.bound hb ha) hc
        | _ => cases hs'
      by_cases ht' : t.kind = .union
      · cases t with
        | union n alternatives =>
          refine exists_settles_of_step (Settles.anyM alternatives fun a ha => ?_)
            fun k => check_union n alternatives ⟨hs', hs⟩
          exact iht a ha fun c b hc hb => h c b hc (.alternative ha hb)
        | _ => cases ht'
      · exact h s t (.self ⟨hs', hs⟩) (.self ⟨ht, ht'⟩)

theorem settles_check_of_alike (h : s.Alike t) (hs : s.Tidy)
    (hanswers : ∀ a b, a.Constituent s → b.Constituent t → a.same b = false →
      ∃ n v, tbl.check n rel a b = .ok v) : Settles (fun k => tbl.check k rel s t) true := by
  have hconstituents (a b : Ty) (ha : a.Constituent s) (hb : b.Constituent t) :
      ∃ v, Settles (fun k => tbl.check k rel a b) v := by
    cases hsame : a.same b with
    | true => exact ⟨true, settles_check_of_ok (check_atomic (k := 0) (hs.constituent ha) hsame)⟩
    | false =>
      obtain ⟨n, v, hv⟩ := hanswers a b ha hb hsame
      exact ⟨v, settles_check_of_ok hv⟩
  obtain ⟨v, hv⟩ := exists_settles_check hconstituents
  cases v with
  | true => exact hv
  | false =>
    obtain ⟨n, hn⟩ := hv.1
    exact absurd (hn n (Nat.le_refl n)) (check_ne_false_of_tidy (hs.of_alike h) (.alike h))

theorem isSubtype_eq_of_isPseudo (hs : s.isPseudo = false) (ht : t.isPseudo = false) :
    tbl.isSubtype k s t = tbl.check k .subtype s t := by
  simp only [isSubtype, Ty.requireType, hs, ht]
  rfl

theorem isAssignable_eq_of_isPseudo (hs : s.isPseudo = false) (ht : t.isPseudo = false) :
    tbl.isAssignable k s t = tbl.check k .assignable s t := by
  simp only [isAssignable, Ty.requireType, hs, ht]
  rfl

/-- A type without intersections inside unions and an equal copy of it are subtypes of each other,
and assignable to each other. No budget gives another answer, and there is an answer if there is one
for any two different constituents. -/
theorem isSameType_mutual (tbl : Table) {s t : Ty} (hsame : s.isSameType t = true) (htidy : s.Tidy)
    (hs : s.isPseudo = false) (ht : t.isPseudo = false) :
    (∀ n, tbl.isSubtype n s t ≠ .ok false ∧ tbl.isSubtype n t s ≠ .ok false ∧
      tbl.isAssignable n s t ≠ .ok false ∧ tbl.isAssignable n t s ≠ .ok false) ∧
    ((∀ rel a b, a.Constituent s → b.Constituent t → a.same b = false →
        (∃ n v, tbl.check n rel a b = .ok v) ∧ ∃ n v, tbl.check n rel b a = .ok v) →
      ∃ n, ∀ k ≥ n, tbl.isSubtype k s t = .ok true ∧ tbl.isSubtype k t s = .ok true ∧
        tbl.isAssignable k s t = .ok true ∧ tbl.isAssignable k t s = .ok true) := by
  have h := Ty.alike_of_isSameType hsame
  have htidy' := htidy.of_alike h
  simp only [isSubtype_eq_of_isPseudo hs ht, isSubtype_eq_of_isPseudo ht hs,
    isAssignable_eq_of_isPseudo hs ht, isAssignable_eq_of_isPseudo ht hs]
  constructor
  · intro n
    have hst (rel : Relation) : tbl.check n rel s t ≠ .ok false :=
      check_ne_false_of_tidy htidy' (.alike h)
    have hts (rel : Relation) : tbl.check n rel t s ≠ .ok false :=
      check_ne_false_of_tidy htidy (.alike h.symm)
    exact ⟨hst .subtype, hts .subtype, hst .assignable, hts .assignable⟩
  · intro hanswers
    have hst (rel : Relation) : Settles (fun k => tbl.check k rel s t) true :=
      settles_check_of_alike h htidy fun a b ha hb hne => (hanswers rel a b ha hb hne).1
    have hts (rel : Relation) : Settles (fun k => tbl.check k rel t s) true := by
      refine settles_check_of_alike h.symm htidy' fun b a hb ha hne => ?_
      refine (hanswers rel a b ha hb ?_).2
      exact Bool.eq_false_iff.mpr fun hab => Bool.eq_false_iff.mp hne (Ty.same_symm hab)
    obtain ⟨n₁, h₁⟩ := (hst .subtype).1
    obtain ⟨n₂, h₂⟩ := (hts .subtype).1
    obtain ⟨n₃, h₃⟩ := (hst .assignable).1
    obtain ⟨n₄, h₄⟩ := (hts .assignable).1
    refine ⟨n₁ + n₂ + n₃ + n₄, fun k hk => ⟨h₁ k ?_, h₂ k ?_, h₃ k ?_, h₄ k ?_⟩⟩ <;> omega

set_option maxRecDepth 20000 in
/-- An intersection with a union as bound, and a copy with the bounds in another order. -/
theorem isSameType_mutual_reordered :
    let tbl : Table := {
      classes := #[
        { name := "java.lang.Object", simpleName := "Object", kind := .cls },
        { name := "p.A", simpleName := "A", kind := .interface },
        { name := "p.B", simpleName := "B", kind := .interface },
        { name := "p.C", simpleName := "C", kind := .interface }] }
    let a : Ty := .declared ⟨1⟩ [] none []
    let b : Ty := .declared ⟨2⟩ [] none []
    let c : Ty := .declared ⟨3⟩ [] none []
    let s : Ty := .intersection 0 [.union 0 [a, b], c]
    let t : Ty := .intersection 0 [c, .union 0 [a, b]]
    s.isSameType t = true ∧ s.Tidy ∧
      ∃ n, ∀ k ≥ n, tbl.isSubtype k s t = .ok true ∧ tbl.isSubtype k t s = .ok true ∧
        tbl.isAssignable k s t = .ok true ∧ tbl.isAssignable k t s = .ok true := by
  intro tbl a b c s t
  have hatomic (i : Nat) : (Ty.declared ⟨i⟩ [] none []).Atomic := by simp [Ty.Atomic, Ty.kind]
  have hflat : (Ty.union 0 [a, b]).Flat :=
    .union (by simpa using ⟨.atomic (hatomic 1), .atomic (hatomic 2)⟩)
  have htidy : s.Tidy := .intersection (by simpa using ⟨.flat hflat, .flat (.atomic (hatomic 3))⟩)
  have hsame : s.isSameType t = true := by rfl
  have hconstituent (x : Ty) (hx : x.Constituent s ∨ x.Constituent t) : x = a ∨ x = b ∨ x = c := by
    simp only [s, t, Ty.constituent_intersection, Ty.constituent_union, mem_cons,
      not_mem_nil, or_false, exists_eq_or_imp, exists_eq_left] at hx
    have h₁ : x.Constituent a → x = a := (hatomic 1).constituent
    have h₂ : x.Constituent b → x = b := (hatomic 2).constituent
    have h₃ : x.Constituent c → x = c := (hatomic 3).constituent
    tauto
  refine ⟨hsame, htidy, (isSameType_mutual tbl hsame htidy rfl rfl).2 fun rel x y hx hy _ => ?_⟩
  rcases hconstituent x (.inl hx) with rfl | rfl | rfl <;>
    rcases hconstituent y (.inr hy) with rfl | rfl | rfl <;>
      exact ⟨⟨2, _, rfl⟩, 2, _, rfl⟩

set_option maxRecDepth 20000 in
/-- A union of an intersection and another type is the same type as its copy, but not a subtype of
it: the bounds of the intersection are compared with the union one by one. -/
theorem isSubtype_union_of_intersection :
    let tbl : Table := {
      classes := #[
        { name := "java.lang.Object", simpleName := "Object", kind := .cls },
        { name := "p.A", simpleName := "A", kind := .interface },
        { name := "p.B", simpleName := "B", kind := .interface },
        { name := "p.C", simpleName := "C", kind := .interface }] }
    let a : Ty := .declared ⟨1⟩ [] none []
    let b : Ty := .declared ⟨2⟩ [] none []
    let c : Ty := .declared ⟨3⟩ [] none []
    let u : Ty := .union 0 [.intersection 0 [a, b], c]
    u.isSameType u = true ∧
      ∀ k ≥ 5, tbl.isSubtype k u u = .ok false ∧ tbl.isAssignable k u u = .ok false := by
  intro tbl a b c u
  refine ⟨by rfl, fun k hk => ?_⟩
  rw [isSubtype_eq_of_isPseudo rfl rfl, isAssignable_eq_of_isPseudo rfl rfl]
  exact ⟨(cut_check hk .subtype u u).eq_ok rfl, (cut_check hk .assignable u u).eq_ok rfl⟩

end Table

end NominalTypes
