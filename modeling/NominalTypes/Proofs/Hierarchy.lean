import NominalTypes.Declaration.Hierarchy
import NominalTypes.Proofs.Budget

/-!
# The searches of the raw hierarchy

`Table.Extends` relates a class to its superclass and its interfaces, and `Table.Halts` says how a
search ends that follows it, with no bound on its rounds. Such a search does end. A round either
drops a pending class that has been expanded before, or expands a class and can pay for the pending
classes that this adds with the supertype expressions of the class, which are not counted any more.
The searches of the table have a bound that is computed from the number of supertype expressions,
and so they are never cut off.

In the breadth-first search a class that is found has the number of steps in which it was reached,
the numbers do not decrease, and what is directly above it is found with a number that is larger by
one at most. So the classes are in the order of their distance.
-/

namespace NominalTypes.Table

open List

variable (tbl : Table)

/-- The second class is the superclass or an interface of the first. -/
def Extends (c d : ClassId) : Prop :=
  ∃ ds, tbl.rawSupertypes c = .ok ds ∧ d ∈ ds

/-- How a search ends that nothing cuts off. A pending class that `stop` picks ends it, one that has
been expanded is dropped, and any other one is expanded: `enter` puts the classes directly above it
among the pending ones. What is pending in the end is left. -/
inductive Halts (stop : ClassId → Prop) (enter : List ClassId → List ClassId → List ClassId) :
    List ClassId → List ClassId → List ClassId → List ClassId → Prop
  | exhausted {seen} : Halts stop enter [] seen [] seen
  | picked {c pending seen} (hc : stop c) : Halts stop enter (c :: pending) seen (c :: pending) seen
  | drop {c pending seen left expanded} (hc : ¬stop c) (hseen : c ∈ seen)
    (h : Halts stop enter pending seen left expanded) :
    Halts stop enter (c :: pending) seen left expanded
  | expand {c above pending seen left expanded} (hc : ¬stop c) (hseen : c ∉ seen)
    (habove : tbl.rawSupertypes c = .ok above)
    (h : Halts stop enter (enter above pending) (c :: seen) left expanded) :
    Halts stop enter (c :: pending) seen left expanded

/-- Classes are expanded before those that are pending already, the last one first. -/
def onTop (above pending : List ClassId) : List ClassId :=
  above.reverse ++ pending

/-- How many supertype expressions a class has. -/
def degree (c : ClassId) : Nat :=
  (tbl.supertypeExprs c).length

/-- The number of pending classes, and of the supertype expressions of the classes that have not
been expanded. -/
def searchCost (pending seen : List ClassId) : Nat :=
  pending.length + ∑ i ∈ Finset.range tbl.classes.size, if ⟨i⟩ ∈ seen then 0 else tbl.degree ⟨i⟩

variable {tbl} {c goal : ClassId} {pending pending' seen left expanded : List ClassId}

theorem cls_eq_default (h : tbl.classes.size ≤ c.index) : tbl.cls c = default := by
  have hnone : tbl.classes[c.index]? = none := Array.getElem?_eq_none h
  rw [cls, Array.getD_eq_getD_getElem?, hnone]
  rfl

theorem degree_eq_zero (h : tbl.classes.size ≤ c.index) : tbl.degree c = 0 := by
  rw [degree, supertypeExprs, cls_eq_default h]
  rfl

theorem edgeCount_eq_sum : tbl.edgeCount = ∑ i ∈ Finset.range tbl.classes.size, tbl.degree ⟨i⟩ := by
  have hfold (ds : List ClassDecl) (n : Nat) :
      ds.foldl (fun n d => n + d.superclass.toList.length + d.interfaces.length) n =
        n + (ds.map fun d => d.superclass.toList.length + d.interfaces.length).sum := by
    induction ds generalizing n with
    | nil => rfl
    | cons d ds ih =>
      rw [foldl_cons, ih, map_cons, sum_cons]
      omega
  rw [edgeCount, ← Array.foldl_toList, hfold, Nat.zero_add, Finset.sum_range,
    ← Fin.sum_univ_fun_getElem]
  simp [degree, supertypeExprs, cls, Array.getD_eq_getD_getElem?]

theorem degree_le_edgeCount (c : ClassId) : tbl.degree c ≤ tbl.edgeCount := by
  by_cases h : c.index < tbl.classes.size
  · rw [edgeCount_eq_sum]
    exact Finset.single_le_sum (f := fun i => tbl.degree ⟨i⟩) (fun _ _ => Nat.zero_le _)
      (Finset.mem_range.mpr h)
  · rw [degree_eq_zero (Nat.le_of_not_lt h)]
    exact Nat.zero_le _

theorem length_eq_degree {ds} (h : tbl.rawSupertypes c = .ok ds) :
    ds.length = tbl.degree c :=
  (mapM_eq_ok.mp h).length_eq.symm

theorem searchCost_drop (c : ClassId) (pending seen : List ClassId) :
    tbl.searchCost pending seen < tbl.searchCost (c :: pending) seen := by
  simp only [searchCost, length_cons]
  omega

/-- Expanding a class for the first time. -/
theorem searchCost_expand {above} (habove : tbl.rawSupertypes c = .ok above) (hc : c ∉ seen)
    (hperm : pending'.Perm (above ++ pending)) :
    tbl.searchCost pending' (c :: seen) < tbl.searchCost (c :: pending) seen := by
  have hsum : (∑ i ∈ Finset.range tbl.classes.size,
        if ⟨i⟩ ∈ c :: seen then 0 else tbl.degree ⟨i⟩) + tbl.degree c =
      ∑ i ∈ Finset.range tbl.classes.size, if ⟨i⟩ ∈ seen then 0 else tbl.degree ⟨i⟩ := by
    by_cases hsize : c.index < tbl.classes.size
    · have hmem := Finset.mem_range.mpr hsize
      rw [← Finset.add_sum_erase _ _ hmem, ← Finset.add_sum_erase _ _ hmem, if_neg hc,
        if_pos mem_cons_self, Nat.zero_add, Nat.add_comm]
      refine congrArg _ (Finset.sum_congr rfl fun i hi => ?_)
      have hne : (⟨i⟩ : ClassId) ≠ c := fun h => (Finset.mem_erase.mp hi).1 (h ▸ rfl)
      simp only [mem_cons, hne, false_or]
    · rw [degree_eq_zero (Nat.le_of_not_lt hsize), Nat.add_zero]
      refine Finset.sum_congr rfl fun i hi => ?_
      have hne : (⟨i⟩ : ClassId) ≠ c := fun h => hsize (h ▸ Finset.mem_range.mp hi)
      simp only [mem_cons, hne, false_or]
  have hlength := length_eq_degree habove
  simp only [searchCost, hperm.length_eq, length_append, length_cons]
  omega

section Halts

variable {stop : ClassId → Prop} {enter : List ClassId → List ClassId → List ClassId}

/-- Every search ends, by induction on its cost. -/
theorem exists_halts (stop : ClassId → Prop)
    (henter : ∀ above pending, (enter above pending).Perm (above ++ pending))
    (hnames : ∀ c ∈ pending, ∀ d, Relation.ReflTransGen tbl.Extends c d →
      ∃ ds, tbl.rawSupertypes d = .ok ds) (seen : List ClassId) :
    ∃ left expanded, tbl.Halts stop enter pending seen left expanded := by
  induction hcost : tbl.searchCost pending seen using Nat.strong_induction_on
    generalizing pending seen with
  | _ cost ih =>
    subst hcost
    cases pending with
    | nil => exact ⟨[], seen, .exhausted⟩
    | cons c pending =>
      obtain ⟨hc, hpending⟩ := forall_mem_cons.mp hnames
      by_cases hstop : stop c
      · exact ⟨_, _, .picked hstop⟩
      by_cases hseen : c ∈ seen
      · obtain ⟨left, expanded, h⟩ := ih _ (searchCost_drop c pending seen) hpending seen rfl
        exact ⟨left, expanded, .drop hstop hseen h⟩
      · obtain ⟨above, habove⟩ := hc c .refl
        have hnext : ∀ d ∈ enter above pending, ∀ e, Relation.ReflTransGen tbl.Extends d e →
            ∃ ds, tbl.rawSupertypes e = .ok ds := fun d hd e he => by
          rcases mem_append.mp ((henter above pending).mem_iff.mp hd) with hd | hd
          · exact hc e (he.head ⟨above, habove, hd⟩)
          · exact hpending d hd e he
        obtain ⟨left, expanded, h⟩ :=
          ih _ (searchCost_expand habove hseen (henter above pending)) hnext _ rfl
        exact ⟨left, expanded, .expand hstop hseen habove h⟩

/-- If nothing is left, all that lies above the pending classes has been passed, and none of it was
picked. What has been expanded is closed upwards but for pending classes. -/
theorem Halts.not_stop (henter : ∀ above pending, (enter above pending).Perm (above ++ pending))
    (h : tbl.Halts stop enter pending seen left expanded) (hleft : left = [])
    (hseen : ∀ c ∈ seen, ¬stop c ∧ ∀ d, tbl.Extends c d → d ∈ seen ∨ d ∈ pending) {d}
    (hc : c ∈ seen ∨ c ∈ pending) (hpath : Relation.ReflTransGen tbl.Extends c d) : ¬stop d := by
  induction h with
  | @exhausted seen =>
    have hmem : d ∈ seen := by
      induction hpath with
      | refl => simpa using hc
      | tail _ hstep hmem => simpa using (hseen _ hmem).2 _ hstep
    exact (hseen d hmem).1
  | picked => cases hleft
  | @drop x pending seen _ _ _ hdrop _ ih =>
    have hkept {y : ClassId} (hy : y ∈ seen ∨ y ∈ x :: pending) : y ∈ seen ∨ y ∈ pending := by
      rw [mem_cons] at hy
      rcases hy with hy | rfl | hy
      · exact .inl hy
      · exact .inl hdrop
      · exact .inr hy
    exact ih hleft (fun y hy => ⟨(hseen y hy).1, fun z hz => hkept ((hseen y hy).2 z hz)⟩)
      (hkept hc)
  | @expand x above pending seen _ _ hstop _ habove _ ih =>
    have hmem (y : ClassId) : y ∈ enter above pending ↔ y ∈ above ∨ y ∈ pending := by
      rw [(henter above pending).mem_iff, mem_append]
    have hkept {y : ClassId} (hy : y ∈ seen ∨ y ∈ x :: pending) :
        y ∈ x :: seen ∨ y ∈ enter above pending := by
      rw [hmem, mem_cons]
      rw [mem_cons] at hy
      tauto
    refine ih hleft (forall_mem_cons.mpr ⟨⟨hstop, fun y hy => ?_⟩, fun y hy => ?_⟩) (hkept hc)
    · obtain ⟨ds, hds, hy⟩ := hy
      cases hds.symm.trans habove
      exact .inr ((hmem y).mpr (.inl hy))
    · exact ⟨(hseen y hy).1, fun z hz => hkept ((hseen y hy).2 z hz)⟩

end Halts

/-- The depth-first search says whether a class was picked. -/
theorem reaches_of_halts {fuel} (h : tbl.Halts (· = goal) onTop pending seen left expanded)
    (hfuel : tbl.searchCost pending seen < fuel) :
    tbl.reaches goal fuel pending seen = .ok !left.isEmpty := by
  induction fuel generalizing pending seen with
  | zero => exact absurd hfuel (Nat.not_lt_zero _)
  | succ fuel ih =>
    cases h with
    | exhausted => rfl
    | picked hc => rw [reaches, if_pos hc]; rfl
    | @drop c pending _ _ _ hc hseen h =>
      rw [reaches, if_neg hc, if_pos hseen]
      exact ih h (Nat.lt_of_lt_of_le (searchCost_drop c pending seen) (Nat.le_of_lt_succ hfuel))
    | @expand _ above pending _ _ _ hc hseen habove h =>
      have hcost := searchCost_expand habove hseen ((reverse_perm above).append_right pending)
      rw [reaches, if_neg hc, if_neg hseen, habove]
      exact ih h (Nat.lt_of_lt_of_le hcost (Nat.le_of_lt_succ hfuel))

/-- The test for subclasses searches until it ends, and finds what lies above the class. -/
theorem exists_halts_isSubclassOf (hnames : ∀ c, ∃ ds, tbl.rawSupertypes c = .ok ds)
    (hc : (tbl.cls c).isPrimitive = false) (hgoal : (tbl.cls goal).isPrimitive = false)
    (hroot : ¬((tbl.cls goal).superclass = none ∧ (tbl.cls goal).isInterface = false)) :
    ∃ above left expanded, tbl.rawSupertypes c = .ok above ∧
      tbl.Halts (· = goal) onTop above.reverse [] left expanded ∧
      tbl.isSubclassOf c goal = .ok (decide (c = goal) || !left.isEmpty) ∧
      (Relation.TransGen tbl.Extends c goal → left ≠ []) := by
  obtain ⟨above, habove⟩ := hnames c
  have henter (above pending : List ClassId) : (onTop above pending).Perm (above ++ pending) :=
    (reverse_perm above).append_right pending
  have hpending : ∀ d ∈ above.reverse, ∀ e, Relation.ReflTransGen tbl.Extends d e →
      ∃ ds, tbl.rawSupertypes e = .ok ds := fun _ _ e _ => hnames e
  obtain ⟨left, expanded, h⟩ := exists_halts (· = goal) henter hpending []
  refine ⟨above, left, expanded, habove, h, ?_, fun hpath hleft => ?_⟩
  · by_cases heq : c = goal
    · rw [isSubclassOf, if_pos heq, decide_eq_true heq, Bool.true_or]
    have hlength := length_eq_degree habove
    have hdegree : tbl.degree c ≤ tbl.edgeCount := degree_le_edgeCount c
    have hsum := @edgeCount_eq_sum tbl
    rw [isSubclassOf, if_neg heq, hc, hgoal, Bool.or_self, if_neg Bool.false_ne_true,
      if_neg (by simpa using hroot), habove, decide_eq_false heq, Bool.false_or]
    refine reaches_of_halts h ?_
    simp only [searchCost, searchBound, length_reverse, not_mem_nil, if_false]
    omega
  · obtain ⟨d, ⟨ds, hds, hd⟩, hpath⟩ := Relation.TransGen.head'_iff.mp hpath
    cases hds.symm.trans habove
    exact h.not_stop henter hleft (forall_mem_nil _) (.inr (mem_reverse.mpr hd)) hpath rfl

/-- Every class above a class is found, stand-ins for primitive types apart. -/
theorem isSubclassOf_of_transGen (hnames : ∀ c, ∃ ds, tbl.rawSupertypes c = .ok ds)
    (h : Relation.TransGen tbl.Extends c goal) (hc : (tbl.cls c).isPrimitive = false)
    (hgoal : (tbl.cls goal).isPrimitive = false) : tbl.isSubclassOf c goal = .ok true := by
  by_cases hroot : (tbl.cls goal).superclass = none ∧ (tbl.cls goal).isInterface = false
  · simp [isSubclassOf, hc, hgoal, hroot]
  obtain ⟨_, left, _, -, -, hleft, hne⟩ := exists_halts_isSubclassOf hnames hc hgoal hroot
  rw [hleft, isEmpty_eq_false_iff.mpr (hne h), Bool.not_false, Bool.or_true]

theorem isSubclassOf_isOk (hnames : ∀ c, ∃ ds, tbl.rawSupertypes c = .ok ds) (c goal : ClassId) :
    ∃ b, tbl.isSubclassOf c goal = .ok b := by
  by_cases hsearch : ((tbl.cls c).isPrimitive = false ∧ (tbl.cls goal).isPrimitive = false) ∧
      ¬((tbl.cls goal).superclass = none ∧ (tbl.cls goal).isInterface = false)
  · obtain ⟨_, _, _, -, -, h, -⟩ := exists_halts_isSubclassOf hnames hsearch.1.1
      hsearch.1.2 hsearch.2
    exact ⟨_, h⟩
  · rw [isSubclassOf]
    split_ifs
    · exact ⟨true, rfl⟩
    · exact ⟨false, rfl⟩
    · exact ⟨true, rfl⟩
    · simp_all

/-- What the search arrives at lies above a pending class. -/
theorem exists_mem_of_reaches {fuel} (h : tbl.reaches goal fuel pending seen = .ok true) :
    ∃ c ∈ pending, Relation.ReflTransGen tbl.Extends c goal := by
  induction fuel generalizing pending seen with
  | zero => cases h
  | succ fuel ih =>
    cases pending with
    | nil => cases h
    | cons c pending =>
      rw [reaches] at h
      split_ifs at h with hcg hcs
      · exact ⟨c, mem_cons_self, hcg ▸ .refl⟩
      · obtain ⟨d, hd, hpath⟩ := ih h
        exact ⟨d, mem_cons_of_mem _ hd, hpath⟩
      · obtain ⟨above, habove, h⟩ := bind_eq_ok.mp h
        obtain ⟨d, hd, hpath⟩ := ih h
        rcases mem_append.mp hd with hd | hd
        · exact ⟨c, mem_cons_self, hpath.head ⟨above, habove, mem_reverse.mp hd⟩⟩
        · exact ⟨d, mem_cons_of_mem _ hd, hpath⟩

/-- A class is found above another one only if it is a root, or above it in the raw hierarchy. -/
theorem transGen_of_isSubclassOf (h : tbl.isSubclassOf c goal = .ok true) (hne : c ≠ goal) :
    (tbl.cls c).isPrimitive = false ∧ (tbl.cls goal).isPrimitive = false ∧
      ((tbl.cls goal).superclass = none ∧ (tbl.cls goal).isInterface = false ∨
        Relation.TransGen tbl.Extends c goal) := by
  have hprimitive : ¬((tbl.cls c).isPrimitive || (tbl.cls goal).isPrimitive) = true := fun hp => by
    rw [isSubclassOf, if_neg hne, if_pos hp] at h
    cases h
  rw [isSubclassOf, if_neg hne, if_neg hprimitive] at h
  rw [Bool.or_eq_true, not_or, Bool.not_eq_true, Bool.not_eq_true] at hprimitive
  refine ⟨hprimitive.1, hprimitive.2, ?_⟩
  split_ifs at h with hroot
  · rw [Bool.and_eq_true, Option.isNone_iff_eq_none, Bool.not_eq_true'] at hroot
    exact .inl hroot
  · obtain ⟨above, habove, h⟩ := bind_eq_ok.mp h
    obtain ⟨d, hd, hpath⟩ := exists_mem_of_reaches h
    exact .inr (.head' ⟨above, habove, mem_reverse.mp hd⟩ hpath)

/-! ### Breadth-first search -/

/-- The second class is above the first by that many steps. -/
inductive StepsAbove (tbl : Table) (c : ClassId) : Nat → ClassId → Prop
  | start : StepsAbove tbl c 0 c
  | step {n d e} (h : StepsAbove tbl c n d) (he : tbl.Extends d e) : StepsAbove tbl c (n + 1) e

theorem exists_stepsAbove_iff {d} :
    (∃ n, tbl.StepsAbove c n d) ↔ Relation.ReflTransGen tbl.Extends c d := by
  constructor
  · rintro ⟨n, h⟩
    induction h with
    | start => exact .refl
    | step _ he ih => exact ih.tail he
  · intro h
    induction h with
    | refl => exact ⟨0, .start⟩
    | tail _ he ih => exact ih.imp' Nat.succ fun _ h => h.step he

/-- All classes above a class, each of them once, in the order of their distance. -/
structure BreadthFirst (tbl : Table) (c : ClassId) (classes : List ClassId) : Prop where
  nodup : classes.Nodup
  mem_iff : ∀ d, d ∈ classes ↔ ∃ n, tbl.StepsAbove c n d
  nearest : classes.Pairwise fun d e => ∀ n, tbl.StepsAbove c n e → ∃ k ≤ n, tbl.StepsAbove c k d

/-- Classes are expanded after those that are pending already. -/
def behind (above pending : List ClassId) : List ClassId :=
  pending ++ above

/-- The state of a search. The classes that wait and those that were found stand next to the numbers
of steps by which they were reached. -/
structure Exploring (tbl : Table) (c : ClassId) (queue found : List (Nat × ClassId)) : Prop where
  start : (0, c) ∈ found ++ queue
  reached : ∀ x ∈ found ++ queue, tbl.StepsAbove c x.1 x.2
  nearby : queue.Pairwise fun x y => x.1 ≤ y.1 ∧ y.1 ≤ x.1 + 1
  ordered : found.Pairwise fun x y => y.1 ≤ x.1
  before : ∀ x ∈ found, ∀ y ∈ queue, x.1 ≤ y.1
  nodup : (found.map Prod.snd).Nodup
  closed : ∀ x ∈ found, ∀ d, tbl.Extends x.2 d → ∃ n ≤ x.1 + 1, (n, d) ∈ found ++ queue

variable {d : ClassId} {n : Nat} {queue found : List (Nat × ClassId)}

/-- A class that was found before is dropped. -/
theorem Exploring.drop (h : tbl.Exploring c ((n, d) :: queue) found) (hd : d ∈ found.map Prod.snd) :
    tbl.Exploring c queue found := by
  obtain ⟨m, hm⟩ : ∃ m, (m, d) ∈ found := by
    obtain ⟨x, hx, rfl⟩ := mem_map.mp hd
    exact ⟨x.1, hx⟩
  -- The number of the class that is found is not larger.
  have hle : m ≤ n := h.before _ hm _ mem_cons_self
  have hrest {x : Nat × ClassId} (hx : x ∈ found ++ (n, d) :: queue) :
      ∃ k ≤ x.1, (k, x.2) ∈ found ++ queue := by
    rcases mem_append.mp hx with hx | hx
    · exact ⟨x.1, Nat.le_refl _, mem_append_left _ hx⟩
    · rcases mem_cons.mp hx with rfl | hx
      · exact ⟨m, hle, mem_append_left _ hm⟩
      · exact ⟨x.1, Nat.le_refl _, mem_append_right _ hx⟩
  refine ⟨?_, fun x hx => h.reached x ?_, (pairwise_cons.mp h.nearby).2, h.ordered,
    fun x hx => (forall_mem_cons.mp (h.before x hx)).2, h.nodup, fun x hx e he => ?_⟩
  · obtain ⟨k, hk, hmem⟩ := hrest h.start
    cases Nat.le_zero.mp hk
    exact hmem
  · exact mem_append.mpr ((mem_append.mp hx).imp_right (mem_cons_of_mem _))
  · obtain ⟨k, hk, hmem⟩ := h.closed x hx e he
    obtain ⟨l, hl, hmem⟩ := hrest hmem
    exact ⟨l, Nat.le_trans hl hk, hmem⟩

/-- A class that was not found before gives way to the classes directly above it. -/
theorem Exploring.expand (h : tbl.Exploring c ((n, d) :: queue) found) (hd : d ∉ found.map Prod.snd)
    {above} (habove : tbl.rawSupertypes d = .ok above) :
    tbl.Exploring c (queue ++ above.map (n + 1, ·)) ((n, d) :: found) := by
  obtain ⟨hhead, hnearby⟩ := pairwise_cons.mp h.nearby
  have hnew {y : Nat × ClassId} (hy : y ∈ above.map (n + 1, ·)) :
      y.1 = n + 1 ∧ tbl.Extends d y.2 := by
    obtain ⟨z, hz, rfl⟩ := mem_map.mp hy
    exact ⟨rfl, above, habove, hz⟩
  have hkept {x : Nat × ClassId} (hx : x ∈ found ++ (n, d) :: queue) :
      x ∈ (n, d) :: found ++ (queue ++ above.map (n + 1, ·)) := by
    simp only [mem_append, mem_cons] at hx ⊢
    tauto
  refine ⟨hkept h.start, fun x hx => ?_, ?_, ?_, ?_, nodup_cons.mpr ⟨hd, h.nodup⟩, ?_⟩
  · have hself := h.reached (n, d) (by simp)
    rcases mem_append.mp hx with hx | hx
    · rcases mem_cons.mp hx with rfl | hx
      · exact hself
      · exact h.reached x (mem_append_left _ hx)
    · rcases mem_append.mp hx with hx | hx
      · exact h.reached x (by simp [hx])
      · obtain ⟨hnumber, hextends⟩ := hnew hx
        exact hnumber ▸ hself.step hextends
  · refine pairwise_append.mpr ⟨hnearby, ?_, fun x hx y hy => ?_⟩
    · exact pairwise_map.mpr (pairwise_of_forall fun _ _ => ⟨Nat.le_refl _, Nat.le_succ _⟩)
    · have hx := hhead x hx
      have hy := (hnew hy).1
      omega
  · exact pairwise_cons.mpr ⟨fun x hx => h.before x hx _ mem_cons_self, h.ordered⟩
  · intro x hx y hy
    rcases mem_cons.mp hx with rfl | hx <;> rcases mem_append.mp hy with hy | hy
    · exact (hhead y hy).1
    · exact (hnew hy).1 ▸ Nat.le_succ n
    · exact h.before x hx y (mem_cons_of_mem _ hy)
    · exact (hnew hy).1 ▸ Nat.le_succ_of_le (h.before x hx _ mem_cons_self)
  · refine forall_mem_cons.mpr ⟨fun e he => ⟨n + 1, Nat.le_refl _, ?_⟩, fun x hx e he => ?_⟩
    · obtain ⟨ds, hds, he⟩ := he
      cases hds.symm.trans habove
      exact mem_append_right _ (mem_append_right _ (mem_map_of_mem he))
    · obtain ⟨k, hk, hmem⟩ := h.closed x hx e he
      exact ⟨k, hk, hkept hmem⟩

/-- When nothing waits any more, all classes have been found, in the order of their distance. -/
theorem Exploring.breadthFirst (h : tbl.Exploring c [] found) :
    tbl.BreadthFirst c (found.map Prod.snd).reverse := by
  have hfound {n : Nat} {d : ClassId} (hd : tbl.StepsAbove c n d) : ∃ k ≤ n, (k, d) ∈ found := by
    induction hd with
    | start => exact ⟨0, Nat.le_refl _, by simpa using h.start⟩
    | step _ he ih =>
      obtain ⟨k, hk, hmem⟩ := ih
      obtain ⟨l, hl, hmem⟩ := h.closed _ hmem _ he
      exact ⟨l, Nat.le_trans hl (Nat.succ_le_succ hk), by simpa using hmem⟩
  refine ⟨nodup_reverse.mpr h.nodup, fun d => ?_, ?_⟩
  · rw [mem_reverse, mem_map]
    constructor
    · rintro ⟨x, hx, rfl⟩
      exact ⟨x.1, h.reached x (mem_append_left _ hx)⟩
    · rintro ⟨n, hn⟩
      obtain ⟨k, -, hmem⟩ := hfound hn
      exact ⟨(k, d), hmem, rfl⟩
  · rw [pairwise_reverse, pairwise_map]
    refine h.ordered.imp_of_mem fun {x y} hx hy hle n hn => ?_
    obtain ⟨k, hk, hmem⟩ := hfound hn
    have hself : (k, x.2) = x := inj_on_of_nodup_map h.nodup hmem hx rfl
    exact ⟨y.1, Nat.le_trans hle (hself ▸ hk), h.reached y (mem_append_left _ hy)⟩

/-- What an exploration keeps in every round, it has in the end. -/
theorem Exploring.breadthFirst_of_halts {pending seen left expanded}
    (h : tbl.Exploring c queue found)
    (hhalts : tbl.Halts (fun _ => False) behind pending seen left expanded)
    (hqueue : queue.map Prod.snd = pending)
    (hfound : found.map Prod.snd = seen) : tbl.BreadthFirst c expanded.reverse := by
  induction hhalts generalizing queue found with
  | exhausted =>
    cases map_eq_nil_iff.mp hqueue
    exact hfound ▸ h.breadthFirst
  | picked hc => cases hc
  | drop _ hd _ ih =>
    obtain ⟨⟨n, d⟩, queue, rfl, rfl, rfl⟩ := map_eq_cons_iff.mp hqueue
    exact ih (h.drop (hfound ▸ hd)) rfl hfound
  | expand _ hd habove _ ih =>
    obtain ⟨⟨n, d⟩, queue, rfl, rfl, rfl⟩ := map_eq_cons_iff.mp hqueue
    refine ih (h.expand (hfound ▸ hd) habove) ?_ (congrArg (d :: ·) hfound)
    rw [behind, map_append, map_map]
    exact congrArg _ (map_id _)

/-- The breadth-first search lists what has been expanded. -/
theorem hierarchyFrom_of_halts {fuel queue found left expanded}
    (h : tbl.Halts (fun _ => False) behind queue found left expanded)
    (hfuel : tbl.searchCost queue found < fuel) :
    left = [] ∧ tbl.hierarchyFrom fuel queue found = .ok expanded.reverse := by
  induction fuel generalizing queue found with
  | zero => exact absurd hfuel (Nat.not_lt_zero _)
  | succ fuel ih =>
    cases h with
    | exhausted => exact ⟨rfl, rfl⟩
    | picked hc => cases hc
    | @drop d queue _ _ _ _ hd h =>
      rw [hierarchyFrom, if_pos hd]
      exact ih h (Nat.lt_of_lt_of_le (searchCost_drop d queue found) (Nat.le_of_lt_succ hfuel))
    | @expand _ above queue _ _ _ _ hd habove h =>
      have hperm : (behind above queue).Perm (above ++ queue) := perm_append_comm
      have hcost := searchCost_expand habove hd hperm
      rw [hierarchyFrom, if_neg hd, habove]
      exact ih h (Nat.lt_of_lt_of_le hcost (Nat.le_of_lt_succ hfuel))

/-- The search finds all classes above a class if their supertype expressions name classes. -/
theorem exists_hierarchy
    (hnames : ∀ n d, tbl.StepsAbove c n d → ∃ ds, tbl.rawSupertypes d = .ok ds) :
    ∃ classes, tbl.Halts (fun _ => False) behind [c] [] [] classes.reverse ∧
      tbl.hierarchy c = .ok classes ∧ tbl.BreadthFirst c classes := by
  have habove : ∀ d ∈ [c], ∀ e, Relation.ReflTransGen tbl.Extends d e →
      ∃ ds, tbl.rawSupertypes e = .ok ds :=
    forall_mem_singleton.mpr fun d hd => (exists_stepsAbove_iff.mpr hd).elim (hnames · d)
  have henter (above pending : List ClassId) : (behind above pending).Perm (above ++ pending) :=
    perm_append_comm
  obtain ⟨left, expanded, h⟩ := exists_halts (fun _ => False) henter habove []
  obtain ⟨rfl, hclasses⟩ : left = [] ∧ tbl.hierarchy c = .ok expanded.reverse := by
    refine hierarchyFrom_of_halts h ?_
    have hsum := @edgeCount_eq_sum tbl
    simp only [searchCost, searchBound, length_singleton, not_mem_nil, if_false]
    omega
  have hstart : tbl.Exploring c [(0, c)] [] :=
    ⟨by simp, forall_mem_singleton.mpr .start, pairwise_singleton _ _, .nil, forall_mem_nil _, .nil,
      forall_mem_nil _⟩
  exact ⟨expanded.reverse, by rwa [reverse_reverse], hclasses,
    hstart.breadthFirst_of_halts h rfl rfl⟩

/-! ### Both searches -/

/-- Circles and diamonds or not, both searches end without being cut off. The breadth-first search
lists the class and all classes above it, each once, in the order of their distance, and these are
the classes that the test for subclasses finds, roots apart. -/
theorem isSubclassOf_iff_mem_hierarchy (tbl : Table)
    (hnames : ∀ c, ∃ ds, tbl.rawSupertypes c = .ok ds) {a b : ClassId}
    (ha : (tbl.cls a).isPrimitive = false) (hb : (tbl.cls b).isPrimitive = false)
    (hroot : ¬((tbl.cls b).superclass = none ∧ (tbl.cls b).isInterface = false)) :
    ∃ classes, tbl.Halts (fun _ => False) behind [a] [] [] classes.reverse ∧
      tbl.hierarchy a = .ok classes ∧ tbl.BreadthFirst a classes ∧
      (∃ above left expanded, tbl.rawSupertypes a = .ok above ∧
        tbl.Halts (· = b) onTop above.reverse [] left expanded ∧
        tbl.isSubclassOf a b = .ok (decide (a = b) || !left.isEmpty)) ∧
      (tbl.isSubclassOf a b = .ok true ↔ b ∈ classes) ∧
      (b ∈ classes ↔ Relation.ReflTransGen tbl.Extends a b) := by
  obtain ⟨classes, hhalts, hclasses, hbreadth⟩ :=
    exists_hierarchy fun _ d (_ : tbl.StepsAbove a _ d) => hnames d
  obtain ⟨above, left, expanded, habove, hsearch, htest, -⟩ :=
    exists_halts_isSubclassOf hnames ha hb hroot
  have hreached : b ∈ classes ↔ Relation.ReflTransGen tbl.Extends a b :=
    (hbreadth.mem_iff b).trans exists_stepsAbove_iff
  refine ⟨classes, hhalts, hclasses, hbreadth, ⟨above, left, expanded, habove, hsearch, htest⟩, ?_,
    hreached⟩
  rw [hreached, Relation.reflTransGen_iff_eq_or_transGen]
  constructor
  · intro h
    by_cases heq : a = b
    · exact .inl heq.symm
    · exact .inr ((transGen_of_isSubclassOf h heq).2.2.resolve_left hroot)
  · rintro (rfl | h)
    · rw [isSubclassOf, if_pos rfl]
    · exact isSubclassOf_of_transGen hnames h ha hb

/-- Four interfaces: two extend the first one and are extended by the last one, which the first one
extends in turn. -/
def knot : Table :=
  let entry (name : String) (above : List Expr) : ClassDecl :=
    { name, simpleName := name, kind := .interface, interfaces := above }
  { classes := #[entry "T" [.named ⟨3⟩ []], entry "L" [.named ⟨0⟩ []], entry "R" [.named ⟨0⟩ []],
      entry "B" [.named ⟨1⟩ [], .named ⟨2⟩ []]] }

theorem isSubclassOf_iff_mem_hierarchy_knot : (∀ c, ∃ ds, knot.rawSupertypes c = .ok ds) ∧
    ∃ classes, knot.hierarchy ⟨3⟩ = .ok classes ∧ knot.BreadthFirst ⟨3⟩ classes ∧
      (knot.isSubclassOf ⟨3⟩ ⟨0⟩ = .ok true ↔ ⟨0⟩ ∈ classes) := by
  have hnames (c : ClassId) : ∃ ds, knot.rawSupertypes c = .ok ds := by
    obtain ⟨i⟩ := c
    match i with
    | 0 | 1 | 2 | 3 => exact ⟨_, rfl⟩
    | n + 4 =>
      have hdefault : knot.cls ⟨n + 4⟩ = default := cls_eq_default (Nat.le_add_left 4 n)
      rw [rawSupertypes, supertypeExprs, hdefault]
      exact ⟨_, rfl⟩
  obtain ⟨classes, -, hclasses, hbreadth, -, hiff, -⟩ :=
    isSubclassOf_iff_mem_hierarchy knot hnames (a := ⟨3⟩) (b := ⟨0⟩) rfl rfl fun h => by cases h.2
  exact ⟨hnames, classes, hclasses, hbreadth, hiff⟩

end NominalTypes.Table
