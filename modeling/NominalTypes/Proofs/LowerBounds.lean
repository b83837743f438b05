import NominalTypes.Proofs.MinimalBounds

/-!
# Greatest lower bounds are lower bounds

The greatest lower bound of two types is the intersection of their members, reduced to those that
have no other member below them. The reduction loses nothing if subtyping orders the members: then
each member has one of the remaining ones below it. It does lose members otherwise. Two different
members that are below each other give way to each other, and if subtyping is not transitive, a
member may give way to one that gives way itself.
-/

namespace NominalTypes

open List

namespace Settles

variable {α : Type} {f : Nat → α → Result Bool} {g : α → Bool} {xs : List α}

/-- A test for some member, if the answers of all tests are known. -/
theorem any (h : ∀ x ∈ xs, Settles (fun k => f k x) (g x)) :
    Settles (fun k => xs.anyM (f k)) (xs.any g) := by
  induction xs with
  | nil => exact ok false
  | cons x xs ih =>
    have hx := h x mem_cons_self
    have hxs := ih fun y hy => h y (mem_cons_of_mem _ hy)
    rw [any_cons]
    cases hg : g x with
    | true => exact (hg ▸ hx).bind (ok true)
    | false => exact (hg ▸ hx).bind hxs

/-- The members that pass a test, if the answers of all tests are known. -/
theorem filter (h : ∀ x ∈ xs, Settles (fun k => f k x) (g x)) :
    Settles (fun k => xs.filterM (f k)) (xs.filter g) := by
  have haux (kept : List α) :
      Settles (fun k => xs.filterAuxM (f k) kept) ((xs.filter g).reverse ++ kept) := by
    induction xs generalizing kept with
    | nil => exact ok kept
    | cons x xs ih =>
      have hx := h x mem_cons_self
      have hxs := ih fun y hy => h y (mem_cons_of_mem _ hy)
      cases hg : g x with
      | true =>
        rw [filter_cons_of_pos hg, reverse_cons, append_assoc]
        exact (hg ▸ hx).bind (hxs (x :: kept))
      | false =>
        rw [filter_cons_of_neg (Bool.not_eq_true _ ▸ hg)]
        exact (hg ▸ hx).bind (hxs kept)
  have hreverse := (haux []).bind (g := fun ys _ => .ok ys.reverse) (ok _)
  rwa [append_nil, reverse_reverse] at hreverse

/-- A test for some member succeeds if one of the tests does and all others return. -/
theorem anyM_true {x} (hx : x ∈ xs) (htrue : Settles (fun k => f k x) true)
    (h : ∀ x ∈ xs, ∃ b, Settles (fun k => f k x) b) : Settles (fun k => xs.anyM (f k)) true := by
  obtain ⟨b, hb⟩ := anyM xs h
  have hyields (k : Nat) : Yields (xs.anyM (f k)) (· = true) :=
    Yields.anyM_true hx (htrue.yields (p := (· = true)) rfl k) fun y hy =>
      (h y hy).elim fun _ hy => hy.yields trivial k
  exact hb.of_yields hyields ▸ hb

end Settles

namespace Ty

/-- The members of an intersection. Any other type is its own only member. -/
def members : Ty → List Ty
  | intersection _ bounds => bounds
  | t => [t]

end Ty

namespace Table

variable {tbl : Table} {s t x y : Ty} {ts : List Ty} {k : Nat}

/-- The subtype check confirms that the first type is below the second. -/
def Confirmed (tbl : Table) (s t : Ty) : Prop :=
  Settles (fun k => tbl.isSubtype k s t) true

/-- The subtype checks among the types return. -/
def Decided (tbl : Table) (ts : List Ty) : Prop :=
  ∀ x ∈ ts, ∀ y ∈ ts, ∃ b, Settles (fun k => tbl.isSubtype k x y) b

/-- The subtype checks order the types. -/
structure Ordered (tbl : Table) (ts : List Ty) : Prop where
  trans : ∀ x ∈ ts, ∀ y ∈ ts, ∀ z ∈ ts, tbl.Confirmed x y → tbl.Confirmed y z → tbl.Confirmed x z
  antisymm : ∀ x ∈ ts, ∀ y ∈ ts, tbl.Confirmed x y → tbl.Confirmed y x → x.same y = true

open Classical in
theorem Decided.settles (h : tbl.Decided ts) (hx : x ∈ ts) (hy : y ∈ ts) :
    Settles (fun k => tbl.isSubtype k x y) (decide (tbl.Confirmed x y)) := by
  obtain ⟨b, hb⟩ := h x hx y hy
  cases b with
  | true => rwa [decide_eq_true (p := tbl.Confirmed x y) hb]
  | false =>
    rwa [decide_eq_false (p := tbl.Confirmed x y) fun htrue => by cases htrue.eq hb]

open Classical in
theorem settles_minimalTypes (h : tbl.Decided ts) :
    Settles (fun k => tbl.minimalTypes k ts)
      (ts.filter fun t => decide (∀ o ∈ ts, tbl.Confirmed o t → o.same t = true)) := by
  refine Settles.filter fun t ht => ?_
  have hany : Settles (fun k => ts.anyM fun o => if o.same t then .ok false
      else tbl.isSubtype k o t) (ts.any fun o => !o.same t && decide (tbl.Confirmed o t)) := by
    refine Settles.any fun o ho => ?_
    cases hsame : o.same t with
    | true => exact .ok false
    | false => exact h.settles ho ht
  have hnot : decide (∀ o ∈ ts, tbl.Confirmed o t → o.same t = true) =
      !ts.any fun o => !o.same t && decide (tbl.Confirmed o t) := by
    rw [Bool.eq_iff_iff, decide_eq_true_iff, Bool.not_eq_true', any_eq_false]
    refine forall₂_congr fun o _ => ?_
    cases o.same t <;> simp
  rw [hnot]
  exact hany.bind (g := fun b _ => .ok !b) (.ok _)

/-- Of types among which the checks return, those remain that have no other below them. -/
theorem Decided.exists_minimalTypes (h : tbl.Decided ts) :
    ∃ ms, Settles (fun k => tbl.minimalTypes k ts) ms ∧ ms.Sublist ts ∧
      ∀ m, m ∈ ms ↔ m ∈ ts ∧ ∀ o ∈ ts, tbl.Confirmed o m → o.same m = true := by
  classical
  refine ⟨_, settles_minimalTypes h, filter_sublist, fun m => ?_⟩
  rw [mem_filter, decide_eq_true_iff]

/-! ### Subtyping of intersections by their members -/

theorem atomic_of_isSingle (h : t.isSingle = true) : t.Atomic := by
  cases t with
  | wildcard | intersection | union => cases h
  | _ => exact ⟨by simp [Ty.kind], by simp [Ty.kind], by simp [Ty.kind]⟩

theorem isPseudo_of_isSingle (h : t.isSingle = true) : t.isPseudo = false := by
  cases t <;> first | rfl | cases h

theorem members_of_isSingle (h : t.isSingle = true) : t.members = [t] := by
  cases t <;> first | rfl | cases h

theorem isPseudo_of_members (h : ∀ x ∈ t.members, x.isSingle = true) : t.isPseudo = false := by
  cases t with
  | intersection => rfl
  | _ => exact isPseudo_of_isSingle (h _ mem_cons_self)

theorem confirmed_of_same (hs : s.isSingle = true) (h : s.same t = true) : tbl.Confirmed s t := by
  have ht := Ty.isPseudo_of_kind_eq (Ty.kind_eq_of_same h)
  rw [isPseudo_of_isSingle hs] at ht
  simp only [Confirmed, isSubtype_eq_of_isPseudo (isPseudo_of_isSingle hs) ht.symm]
  exact settles_check_of_ok (check_atomic (k := 0) (atomic_of_isSingle hs) h)

/-- A type is below a type that is no intersection if one of its members is. -/
theorem settles_check_of_member (hs : ∀ x ∈ s.members, x.isSingle = true) (hy : y.isSingle = true)
    (hdecided : ∀ x ∈ s.members, ∃ b, Settles (fun k => tbl.isSubtype k x y) b)
    (hx : x ∈ s.members) (hxy : tbl.Confirmed x y) :
    Settles (fun k => tbl.check k .subtype s y) true := by
  have hcheck (z : Ty) (hz : z ∈ s.members) (b : Bool)
      (hb : Settles (fun k => tbl.isSubtype k z y) b) :
      Settles (fun k => tbl.check k .subtype z y) b := by
    simpa only [isSubtype_eq_of_isPseudo (isPseudo_of_isSingle (hs z hz)) (isPseudo_of_isSingle hy)]
      using hb
  cases s with
  | intersection n bounds =>
    have hany := Settles.anyM_true hx (hcheck x hx true hxy)
      fun z hz => (hdecided z hz).imp (hcheck z hz)
    have hne : (Ty.intersection n bounds).isSameOccurrence y = false := by
      rw [Ty.isSameOccurrence, Bool.and_eq_false_iff]
      exact .inr (beq_eq_false_iff_ne.mpr (atomic_of_isSingle hy).1.symm)
    refine hany.step rfl fun k => ?_
    rw [check_intersection_left n bounds (atomic_of_isSingle hy).1, hne]
    rfl
  | _ =>
    cases mem_singleton.mp hx
    exact hcheck _ hx true hxy

/-- A type is below another if each member of that has a member of the first below it. -/
theorem confirmed_of_members (hs : ∀ x ∈ s.members, x.isSingle = true)
    (ht : ∀ y ∈ t.members, y.isSingle = true)
    (hdecided : ∀ x ∈ s.members, ∀ y ∈ t.members, ∃ b, Settles (fun k => tbl.isSubtype k x y) b)
    (h : ∀ y ∈ t.members, ∃ x ∈ s.members, tbl.Confirmed x y) : tbl.Confirmed s t := by
  have hcheck (y : Ty) (hy : y ∈ t.members) : Settles (fun k => tbl.check k .subtype s y) true := by
    obtain ⟨x, hx, hxy⟩ := h y hy
    exact settles_check_of_member hs (ht y hy) (fun x hx => hdecided x hx y hy) hx hxy
  simp only [Confirmed, isSubtype_eq_of_isPseudo (isPseudo_of_members hs) (isPseudo_of_members ht)]
  cases t with
  | intersection n bounds =>
    cases hoccurrence : s.isSameOccurrence (.intersection n bounds) with
    | true =>
      refine (Settles.ok true).step rfl fun k => ?_
      rw [check_intersection, hoccurrence]
      rfl
    | false =>
      refine (Settles.allM_true bounds hcheck).step rfl fun k => ?_
      rw [check_intersection, hoccurrence]
      rfl
  | _ => exact hcheck _ mem_cons_self

/-! ### The reduced intersection -/

/-- The types that are no interfaces, and then the interfaces. -/
def interfacesLast (tbl : Table) (ts : List Ty) : List Ty :=
  ts.filter (fun t => !tbl.isInterfaceType t) ++ ts.filter tbl.isInterfaceType

theorem perm_interfacesLast (ts : List Ty) : (tbl.interfacesLast ts).Perm ts := by
  refine perm_append_comm.trans ?_
  exact filter_append_perm tbl.isInterfaceType ts

theorem distinct_interfacesLast (h : Ty.Separate ts) :
    Ty.distinct (tbl.interfacesLast ts) = tbl.interfacesLast ts := by
  refine Ty.distinct_eq_self ?_
  exact (perm_interfacesLast ts).symm.pairwise h Ty.same_eq_false_symm

/-- The only type of a list, and otherwise the intersection of all its types. -/
def intersectionOf : List Ty → Result Ty
  | [m] => .ok m
  | ms => makeIntersection ms

/-- Of the types, those that are no interfaces are equal. -/
def OneClass (tbl : Table) (ts : List Ty) : Prop :=
  ∀ x ∈ ts, ∀ y ∈ ts, tbl.isInterfaceType x = false → tbl.isInterfaceType y = false →
    x.same y = true

theorem OneClass.length_le_one (h : tbl.OneClass ts) :
    ((Ty.distinct ts).filter fun t => !tbl.isInterfaceType t).length ≤ 1 := by
  have hseparate := (Ty.separate_distinct ts).sublist
    (filter_sublist (p := fun t => !tbl.isInterfaceType t))
  have hclass (x : Ty) (hx : x ∈ (Ty.distinct ts).filter fun t => !tbl.isInterfaceType t) :
      x ∈ ts ∧ tbl.isInterfaceType x = false := by
    obtain ⟨hx, hnot⟩ := mem_filter.mp hx
    exact ⟨mem_of_mem_distinct hx, (Bool.not_eq_true' _).mp hnot⟩
  match hfilter : (Ty.distinct ts).filter fun t => !tbl.isInterfaceType t with
  | [] | [_] => simp
  | x :: y :: rest =>
    rw [hfilter] at hseparate hclass
    obtain ⟨hx, hxc⟩ := hclass x mem_cons_self
    obtain ⟨hy, hyc⟩ := hclass y (mem_cons_of_mem x mem_cons_self)
    have hne := (pairwise_cons.mp hseparate).1 y mem_cons_self
    cases hne.symm.trans (h x hx y hy hxc hyc)

/-- If one member at most is no interface, then nothing has to be merged. -/
theorem greatestLowerBound_eq (h : tbl.OneClass (s.members ++ t.members)) (k : Nat) :
    (tbl.greatestLowerBound k s t : Result Ty) = (do
      if ← tbl.isSubtype k s t then return s
      else if ← tbl.isSubtype k t s then return t
      else
        tbl.minimalTypes k (tbl.interfacesLast (Ty.distinct (s.members ++ t.members))) >>=
          intersectionOf) := by
  have hmerged (bounds : List Ty) : (bounds.filter fun b => !tbl.isInterfaceType b).filter
        (fun b => !tbl.isInterfaceType b) ++ bounds.filter tbl.isInterfaceType ++
        (bounds.filter fun b => !tbl.isInterfaceType b).filter tbl.isInterfaceType =
      tbl.interfacesLast bounds := by
    simp [interfacesLast, filter_filter]
  have hunfold : (tbl.greatestLowerBound k s t : Result Ty) = (do
      if ← tbl.isSubtype k s t then return s
      else if ← tbl.isSubtype k t s then return t
      else
        let bounds := Ty.distinct (s.members ++ t.members)
        let classes := bounds.filter fun b => !tbl.isInterfaceType b
        let merged ← if classes.length > 1 then leastUpperBoundsWith (tbl.lub k) classes
          else pure classes
        let ms ← tbl.minimalTypes k (Ty.distinct (merged.filter (fun b => !tbl.isInterfaceType b) ++
          bounds.filter tbl.isInterfaceType ++ merged.filter tbl.isInterfaceType))
        match ms with
        | [m] => return m
        | ms => makeIntersection ms >>= Numbering.number) := rfl
  have hjoin : (fun ms : List Ty => (match ms with
      | [m] => pure m
      | ms => makeIntersection ms >>= Numbering.number : Result Ty)) = intersectionOf := by
    funext ms
    match ms with
    | [] | [_] | _ :: _ :: _ => rfl
  rw [hunfold]
  simp only [if_neg (Nat.not_lt.mpr h.length_le_one), pure_bind, hmerged,
    distinct_interfacesLast (Ty.separate_distinct _)]
  simp only [hjoin]

theorem exists_intersectionOf {ms} (hms : ∀ m ∈ ms, m.isSingle = true) (hne : ms ≠ []) :
    ∃ g : Ty, intersectionOf ms = .ok g ∧ g.members = ms := by
  match ms with
  | [] => exact absurd rfl hne
  | [m] => exact ⟨m, rfl, members_of_isSingle (hms m mem_cons_self)⟩
  | m :: m' :: rest => exact ⟨.intersection 0 (m :: m' :: rest), rfl, rfl⟩

section Ordered

variable (hsingle : ∀ x ∈ ts, x.isSingle = true) (hordered : tbl.Ordered ts)

include hsingle hordered

/-- Each of the types lies above one that has no other below it. -/
theorem Ordered.exists_minimal {bounds : List Ty} (hsub : ∀ x ∈ bounds, x ∈ ts) (hx : x ∈ bounds) :
    ∃ m ∈ bounds, tbl.Confirmed m x ∧ ∀ o ∈ bounds, tbl.Confirmed o m → o.same m = true := by
  refine Ty.exists_minimal (fun x hx y hy z hz => ?_) (fun x hx y hy z hz hxy hyz hxz => ?_) hx
    (confirmed_of_same (hsingle x (hsub x hx)) (Ty.same_refl x))
  · exact hordered.trans x (hsub x hx) y (hsub y hy) z (hsub z hz)
  · have hzx : tbl.Confirmed z x := confirmed_of_same (hsingle z (hsub z hz)) (Ty.same_symm hxz)
    refine hordered.antisymm x (hsub x hx) y (hsub y hy) hxy ?_
    exact hordered.trans y (hsub y hy) z (hsub z hz) x (hsub x hx) hyz hzx

end Ordered

section Members

variable (hsingle : ∀ b ∈ s.members ++ t.members, b.isSingle = true)
  (hdecided : tbl.Decided (s.members ++ t.members))

include hsingle hdecided

/-- What has members below all members of a type is below that type. -/
theorem confirmed_of_mem_members {g u : Ty} (hg : ∀ x ∈ g.members, x ∈ s.members ++ t.members)
    (hu : ∀ y ∈ u.members, y ∈ s.members ++ t.members)
    (h : ∀ y ∈ u.members, ∃ x ∈ g.members, tbl.Confirmed x y) : tbl.Confirmed g u :=
  confirmed_of_members (fun x hx => hsingle x (hg x hx)) (fun y hy => hsingle y (hu y hy))
    (fun x hx y hy => hdecided x (hg x hx) y (hu y hy)) h

theorem confirmed_self {u : Ty} (hu : ∀ y ∈ u.members, y ∈ s.members ++ t.members) :
    tbl.Confirmed u u :=
  confirmed_of_mem_members hsingle hdecided hu hu fun y hy =>
    ⟨y, hy, confirmed_of_same (hsingle y (hu y hy)) (Ty.same_refl y)⟩

/-- If neither type is below the other, then what remains of their members is below both. -/
theorem exists_greatestLowerBound_of_apart (hone : tbl.OneClass (s.members ++ t.members))
    (hordered : tbl.Ordered (s.members ++ t.members))
    (hst : Settles (fun k => tbl.isSubtype k s t) false)
    (hts : Settles (fun k => tbl.isSubtype k t s) false) :
    ∃ g, Settles (fun k => (tbl.greatestLowerBound k s t : Result Ty)) g ∧ tbl.Confirmed g s ∧
      tbl.Confirmed g t := by
  simp only [greatestLowerBound_eq hone]
  have hs (y : Ty) (hy : y ∈ s.members) : y ∈ s.members ++ t.members := mem_append_left _ hy
  have ht (y : Ty) (hy : y ∈ t.members) : y ∈ s.members ++ t.members := mem_append_right _ hy
  let bounds := tbl.interfacesLast (Ty.distinct (s.members ++ t.members))
  have hsub (x : Ty) (hx : x ∈ bounds) : x ∈ s.members ++ t.members :=
    mem_of_mem_distinct ((perm_interfacesLast _).mem_iff.mp hx)
  have hdecided' : tbl.Decided bounds := fun x hx y hy => hdecided x (hsub x hx) y (hsub y hy)
  obtain ⟨ms, hms, -, hminimal⟩ := hdecided'.exists_minimalTypes
  have hcover (y : Ty) (hy : y ∈ s.members ++ t.members) : ∃ m ∈ ms, tbl.Confirmed m y := by
    obtain ⟨z, hz, hyz⟩ := any_eq_true.mp (isIn_distinct hy)
    have hz : z ∈ bounds := (perm_interfacesLast _).mem_iff.mpr hz
    obtain ⟨m, hm, hmz, hmin⟩ := hordered.exists_minimal hsingle hsub hz
    refine ⟨m, (hminimal m).mpr ⟨hm, hmin⟩, ?_⟩
    exact hordered.trans m (hsub m hm) z (hsub z hz) y hy hmz
      (confirmed_of_same (hsingle z (hsub z hz)) (Ty.same_symm hyz))
  have hne : ms ≠ [] := by
    rintro rfl
    have hnone (y : Ty) (hy : y ∈ t.members) : ∃ x ∈ s.members, tbl.Confirmed x y := by
      obtain ⟨m, hm, -⟩ := hcover y (ht y hy)
      cases hm
    cases (confirmed_of_mem_members hsingle hdecided hs ht hnone).eq hst
  have hremains (m : Ty) (hm : m ∈ ms) : m ∈ s.members ++ t.members :=
    hsub m ((hminimal m).mp hm).1
  obtain ⟨g, hg, rfl⟩ := exists_intersectionOf (fun m hm => hsingle m (hremains m hm)) hne
  refine ⟨g, hst.bind (hts.bind (hms.bind (hg ▸ .ok g))), ?_, ?_⟩
  · exact confirmed_of_mem_members hsingle hdecided hremains hs fun y hy => hcover y (hs y hy)
  · exact confirmed_of_mem_members hsingle hdecided hremains ht fun y hy => hcover y (ht y hy)

end Members

/-- The greatest lower bound of two types is found, and below both, if subtyping orders their
members, and at most one of the members is no interface. -/
theorem isSubtype_greatestLowerBound (hsingle : ∀ b ∈ s.members ++ t.members, b.isSingle = true)
    (hone : tbl.OneClass (s.members ++ t.members))
    (hst : ∃ b, Settles (fun k => tbl.isSubtype k s t) b)
    (hts : ∃ b, Settles (fun k => tbl.isSubtype k t s) b)
    (hdecided : tbl.Decided (s.members ++ t.members))
    (hordered : tbl.Ordered (s.members ++ t.members)) :
    ∃ g, Settles (fun k => (tbl.greatestLowerBound k s t : Result Ty)) g ∧ tbl.Confirmed g s ∧
      tbl.Confirmed g t := by
  obtain ⟨b, hb⟩ := hst
  obtain ⟨b', hb'⟩ := hts
  cases b with
  | true =>
    refine ⟨s, ?_, confirmed_self hsingle hdecided fun y hy => mem_append_left _ hy, hb⟩
    simp only [greatestLowerBound_eq hone]
    exact hb.bind (.ok s)
  | false =>
    cases b' with
    | true =>
      refine ⟨t, ?_, hb', confirmed_self hsingle hdecided fun y hy => mem_append_right _ hy⟩
      simp only [greatestLowerBound_eq hone]
      exact hb.bind (hb'.bind (.ok t))
    | false => exact exists_greatestLowerBound_of_apart hsingle hdecided hone hordered hb hb'

/-! ### Orders that are computed -/

/-- Whether the check answers with the budget that the first type is below the second. -/
def confirms (tbl : Table) (k : Nat) (s t : Ty) : Bool :=
  match tbl.isSubtype k s t with
  | .ok b => b
  | .error _ => false

/-- Whether the checks among the types return with the budget, and order the types. -/
def testOrder (tbl : Table) (k : Nat) (ts : List Ty) : Bool :=
  ts.all fun x => x.isSingle && ts.all fun y => (tbl.isSubtype k x y).isOk &&
    (!tbl.confirms k x y || (!tbl.confirms k y x || x.same y) &&
      ts.all fun z => !tbl.confirms k y z || tbl.confirms k x z)

section TestOrder

variable (h : tbl.testOrder k ts = true)

include h

theorem isSingle_of_testOrder : ∀ x ∈ ts, x.isSingle = true := by
  intro x hx
  exact (Bool.and_eq_true_iff.mp (all_eq_true.mp h x hx)).1

theorem settles_of_testOrder (hx : x ∈ ts) (hy : y ∈ ts) :
    Settles (fun k => tbl.isSubtype k x y) (tbl.confirms k x y) := by
  have hsingle := isSingle_of_testOrder h
  have hrow := all_eq_true.mp (Bool.and_eq_true_iff.mp (all_eq_true.mp h x hx)).2 y hy
  have hok := (Bool.and_eq_true_iff.mp hrow).1
  simp only [confirms, isSubtype_eq_of_isPseudo (isPseudo_of_isSingle (hsingle x hx))
    (isPseudo_of_isSingle (hsingle y hy))] at hok ⊢
  cases hcheck : tbl.check k .subtype x y with
  | ok b => exact settles_check_of_ok hcheck
  | error => rw [hcheck] at hok; cases hok

theorem decided_of_testOrder : tbl.Decided ts :=
  fun _ hx _ hy => ⟨_, settles_of_testOrder h hx hy⟩

theorem ordered_of_testOrder : tbl.Ordered ts := by
  have hconfirms (x y : Ty) (hx : x ∈ ts) (hy : y ∈ ts) :
      tbl.Confirmed x y ↔ tbl.confirms k x y = true :=
    ⟨fun hxy => hxy.eq (settles_of_testOrder h hx hy), fun hxy => by
      have := settles_of_testOrder h hx hy
      rwa [hxy] at this⟩
  have hrow (x y : Ty) (hx : x ∈ ts) (hy : y ∈ ts) (hxy : tbl.confirms k x y = true) :
      (tbl.confirms k y x = true → x.same y = true) ∧
        ∀ z ∈ ts, tbl.confirms k y z = true → tbl.confirms k x z = true := by
    have hrow := all_eq_true.mp (Bool.and_eq_true_iff.mp (all_eq_true.mp h x hx)).2 y hy
    simpa [hxy, Bool.or_eq_true_iff, ← Bool.not_eq_true, ← imp_iff_not_or]
      using (Bool.and_eq_true_iff.mp hrow).2
  refine ⟨fun x hx y hy z hz hxy hyz => ?_, fun x hx y hy hxy hyx => ?_⟩
  · rw [hconfirms _ _ hx hy] at hxy
    rw [hconfirms _ _ hy hz] at hyz
    exact (hconfirms _ _ hx hz).mpr ((hrow x y hx hy hxy).2 z hz hyz)
  · rw [hconfirms _ _ hx hy] at hxy
    rw [hconfirms _ _ hy hx] at hyx
    exact (hrow x y hx hy hxy).1 hyx

end TestOrder

/-- A class, two interfaces, and two generic ones, of which one lists uses of the other. -/
def nestedUses : Table where
  classes := #[
    { name := "java.lang.Object", simpleName := "Object", kind := .cls },
    { name := "p.C", simpleName := "C", kind := .cls },
    { name := "p.I", simpleName := "I", kind := .interface },
    { name := "p.J", simpleName := "J", kind := .interface, interfaces := [.named ⟨2⟩ []] },
    { name := "p.N", simpleName := "N", kind := .interface, typeParameters := [{ name := "T" }] },
    { name := "p.K", simpleName := "K", kind := .interface, typeParameters := [{ name := "T" }],
      interfaces := [.applied ⟨4⟩ [.applied ⟨4⟩ [.var ⟨.cls ⟨5⟩, 0⟩ []] none []] none []] }]

set_option maxRecDepth 20000 in
/-- A member that is a generic interface gives way to one with a narrower argument. -/
theorem isSubtype_greatestLowerBound_arguments :
    let s := Ty.intersection 0
      [bareClass 1, .declared ⟨4⟩ [.wildcard 0 (bareClass 2) .null []] none []]
    let t := Ty.intersection 0 [.declared ⟨4⟩ [bareClass 3] none [], bareClass 2]
    ((∀ b ∈ s.members ++ t.members, b.isSingle = true) ∧
      nestedUses.OneClass (s.members ++ t.members) ∧
      (∃ b, Settles (fun k => nestedUses.isSubtype k s t) b) ∧
      (∃ b, Settles (fun k => nestedUses.isSubtype k t s) b) ∧
      nestedUses.Decided (s.members ++ t.members) ∧ nestedUses.Ordered (s.members ++ t.members)) ∧
      ∃ g, Settles (fun k => (nestedUses.greatestLowerBound k s t : Result Ty)) g ∧
        nestedUses.Confirmed g s ∧ nestedUses.Confirmed g t := by
  intro s t
  have htest : nestedUses.testOrder 5 (s.members ++ t.members) = true := by rfl
  have hsingle := isSingle_of_testOrder htest
  have hone : nestedUses.OneClass (s.members ++ t.members) := by
    unfold OneClass
    decide
  have hst : ∃ b, Settles (fun k => nestedUses.isSubtype k s t) b :=
    ⟨false, settles_check_of_ok (n := 5) (by rfl)⟩
  have hts : ∃ b, Settles (fun k => nestedUses.isSubtype k t s) b :=
    ⟨false, settles_check_of_ok (n := 5) (by rfl)⟩
  have hdecided := decided_of_testOrder htest
  have hordered := ordered_of_testOrder htest
  exact ⟨⟨hsingle, hone, hst, hts, hdecided, hordered⟩,
    isSubtype_greatestLowerBound hsingle hone hst hts hdecided hordered⟩

set_option maxRecDepth 20000 in
/-- The members of a greatest lower bound may be lost. Uses of an interface by the same members in
another order are below each other, so that neither remains, and if nothing remains then there is no
greatest lower bound. A use of an interface may be below another one that is below a third, and not
be below the third itself. -/
theorem greatestLowerBound_not_below :
    let uses (c : ClassId) (bounds : List Ty) : Ty :=
      .declared c [.wildcard 0 (.intersection 0 bounds) .null []] none []
    let twice (c : ClassId) : Ty := .intersection 0
      [uses c [bareClass 2, bareClass 3], uses c [bareClass 3, bareClass 2]]
    let any (c : ClassId) : Ty := .declared c [.wildcard 0 (bareClass 0) .null []] none []
    let s := Ty.intersection 0 [.declared ⟨5⟩ [bareClass 1] none [], bareClass 3]
    let t := Ty.intersection 0 [any ⟨5⟩, .declared ⟨4⟩ [any ⟨4⟩] none []]
    nestedUses.Orderly ∧
      ((nestedUses.greatestLowerBound 9 (twice ⟨4⟩) (bareClass 3) : Result Ty) = .ok (bareClass 3) ∧
        Settles (fun k => nestedUses.isSubtype k (bareClass 3) (twice ⟨4⟩)) false) ∧
      (nestedUses.greatestLowerBound 9 (twice ⟨4⟩) (twice ⟨5⟩) : Result Ty) =
        .error (.structural .fewBounds) ∧
      (nestedUses.greatestLowerBound 9 s t : Result Ty) =
          .ok (.intersection 0 [.declared ⟨5⟩ [bareClass 1] none [], bareClass 3]) ∧
      Settles (fun k => nestedUses.isSubtype k
        (.intersection 0 [.declared ⟨5⟩ [bareClass 1] none [], bareClass 3]) t) false := by
  have horderly : nestedUses.Orderly := orderly_of_isLayered (by rfl) (by rfl) (by rfl)
  exact ⟨horderly, ⟨by rfl, settles_check_of_ok (n := 9) (by rfl)⟩, by rfl, by rfl,
    settles_check_of_ok (n := 9) (by rfl)⟩

end Table

end NominalTypes
