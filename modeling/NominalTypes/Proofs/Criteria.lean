import NominalTypes.Proofs.Containment

/-!
# Tests for shapes

The conditions under which subtyping is well behaved speak of all classes and all type variables. A
table lists finitely many of them. All other classes have no supertypes, and all other variables are
bounded by the root class. So each of the conditions can be tested: `Table.testPatterns` and
`Table.testBounds` go through the supertypes and the bounds that a table declares, and what they
find holds of all classes and variables.
-/

namespace NominalTypes

open List

variable {p : Ty → Bool}

namespace Ty

mutual

/-- Whether the type and all types of which it is made pass the test. -/
def all (p : Ty → Bool) : Ty → Bool
  | array component marks => p (array component marks) && all p component
  | declared c args owner marks =>
    p (declared c args owner marks) && (allOf p args && allOwner p owner)
  | wildcard n upper lower marks =>
    p (wildcard n upper lower marks) && (all p upper && all p lower)
  | captured token site upper lower marks =>
    p (captured token site upper lower marks) && (all p upper && all p lower)
  | intersection n bounds => p (intersection n bounds) && allOf p bounds
  | union n alternatives => p (union n alternatives) && allOf p alternatives
  | executable e vars result parameters receiver thrown =>
    p (executable e vars result parameters receiver thrown) &&
      (allOf p vars && (all p result && (all p receiver && (allOf p parameters && allOf p thrown))))
  | t => p t

/-- Whether the types and all types of which they are made pass the test. -/
def allOf (p : Ty → Bool) : List Ty → Bool
  | [] => true
  | t :: ts => all p t && allOf p ts

/-- Whether the owner and all types of which it is made pass the test. -/
def allOwner (p : Ty → Bool) : Option Ty → Bool
  | .none => true
  | some t => all p t

end

theorem allOf_eq_true {ts} :
    allOf p ts = true ↔ ∀ t ∈ ts, all p t = true := by
  induction ts with
  | nil => simp [allOf]
  | cons t ts ih => rw [allOf, Bool.and_eq_true, ih, forall_mem_cons]

theorem allOwner_eq_true {o} :
    allOwner p o = true ↔ ∀ t ∈ o.toList, all p t = true := by
  cases o <;> simp [allOwner]

/-- The test goes through the parts. -/
theorem all_eq_true_iff (t : Ty) :
    all p t = true ↔ p t = true ∧ ∀ x ∈ t.children, all p x = true := by
  cases t <;> simp only [all, children, Bool.and_eq_true, allOf_eq_true, allOwner_eq_true,
    forall_mem_append, forall_mem_cons, not_mem_nil, false_implies, implies_true,
    and_true]

theorem all_decide_iff {p : Ty → Prop} [DecidablePred p] {t : Ty} :
    t.all (fun x => decide (p x)) = true ↔ t.Every p := by
  induction t using children_induction with
  | step t ih =>
    rw [all_eq_true_iff, decide_eq_true_eq]
    exact ⟨fun h => .intro h.1 fun x hx => (ih x hx).mp (h.2 x hx),
      fun h => ⟨h.top, fun x hx => (ih x hx).mpr (h.part hx)⟩⟩

instance decidableEvery (p : Ty → Prop) [DecidablePred p] : DecidablePred (Ty.Every p) :=
  fun _ => decidable_of_iff _ all_decide_iff

instance decidableEqNull (t : Ty) : Decidable (t = null) :=
  decidable_of_iff (t.kind = .null) (by cases t <;> simp [kind])

/-- The type variable that the type is an occurrence of. -/
def asVar : Ty → Option TypeVarId
  | var _ v _ => some v
  | _ => .none

section Places

variable (V : TypeVarId → Prop) [DecidablePred V]

instance decidableOver : DecidablePred (Over V) := fun t =>
  decidable_of_iff (∀ v ∈ t.asVar, V v) (by cases t <;> simp [asVar, Over])

instance decidablePlaced : DecidablePred (Placed V)
  | declared c args _ _ =>
    decidable_of_iff (∀ x ∈ args.zipIdx, x.1.isWildcard = true → V ⟨.cls c, x.2⟩)
      ⟨fun h i a ha => h (a, i) (mem_zipIdx_iff_getElem?.mpr ha),
        fun h x hx => h x.2 x.1 (mem_zipIdx_iff_getElem?.mp hx)⟩
  | primitive _ _ | none | void _ | null | array _ _ | var _ _ _ | captured _ _ _ _ _
  | wildcard _ _ _ _ | intersection _ _ | union _ _ | executable _ _ _ _ _ _ | package _ =>
    isTrue trivial

instance decidableSimple : DecidablePred (Simple V) := fun t =>
  decidable_of_iff (t.asVar.isSome ∨ t.Every (Over fun v => ¬V v))
    (or_congr_left (by cases t <;> simp [asVar]))

instance decidableHandsOn (w : TypeVarId) : DecidablePred (HandsOn V w) := fun t =>
  decidable_of_iff (t.orUpper.Simple V ∧ t.orLower.Simple V ∧ ∀ v ∈ t.asVar, V v → V w)
    (by cases t <;> simp [HandsOn, orUpper, orLower, asVar])

end Places

end Ty

namespace Table

variable (tbl : Table)

section Layers

variable (S : Shape)

instance decidableLayer : DecidablePred (tbl.Layer S)
  | .array component _ => inferInstanceAs (Decidable (component.isProper = true))
  | .declared c args owner _ => inferInstanceAs (Decidable
      ((args.length = (tbl.cls c).typeParameters.length ∨ args = [] ∧ S.raw = true) ∧
        (∀ a ∈ args, a.isArgument = true) ∧
        ∀ o ∈ owner, S.owners = true ∧ c ≠ tbl.core.object ∧ o.kind = .declared))
  | .wildcard _ upper lower _ => inferInstanceAs (Decidable
      (upper.isBound = true ∧ lower.isBound = true ∧ (S.supers = true ∨ lower = .null)))
  | .captured _ _ upper lower _ => inferInstanceAs (Decidable
      (S.captures = true ∧ upper.isBound = true ∧ lower.isBound = true ∧
        (S.capturedSupers = true ∨ lower = .null)))
  | .intersection _ bounds => inferInstanceAs (Decidable
      (S.intersections = true ∧ bounds ≠ [] ∧ ∀ b ∈ bounds, b.isProper = true))
  | .union _ _ | .executable _ _ _ _ _ _ | .package _ => isFalse id
  | .primitive _ _ | .none | .void _ | .null | .var _ _ _ => isTrue trivial

instance decidableWithin : DecidablePred (tbl.Within S) := fun t =>
  inferInstanceAs (Decidable (t.isProper = true ∧ t.Every (tbl.Layer S)))

instance decidableInvokes : DecidablePred (tbl.Invokes S) := fun t =>
  inferInstanceAs (Decidable (t.kind = .declared ∧ tbl.Layer { S with raw := true } t ∧
    ∀ x ∈ t.children, x.Every (tbl.Layer S)))

end Layers

/-! ### What a table declares -/

/-- Whether the supertypes that the classes declare pass the test. -/
def testPatterns (p : ClassId → Ty → Bool) : Bool :=
  (List.range tbl.classes.size).all fun i =>
    match tbl.descriptors (tbl.supertypeExprs ⟨i⟩) with
    | .ok ps => ps.all (p ⟨i⟩)
    | .error _ => true

/-- The type variables that a class and its members declare. -/
def declaredVars (c : ClassId) : List TypeVarId :=
  let d := tbl.cls c
  let executables := (List.range d.constructors.length).map (ExecutableId.mk c true) ++
    (List.range d.methods.length).map (ExecutableId.mk c false)
  tbl.typeVars (.cls c) ++ executables.flatMap fun e => tbl.typeVars (.executable e)

/-- Whether the bounds that the type variables declare are known and pass the test. -/
def testBounds (p : TypeVarId → List Ty → Bool) : Bool :=
  (List.range tbl.classes.size).all fun i => (tbl.declaredVars ⟨i⟩).all fun v =>
    match tbl.boundsOf v with
    | .ok ts => p v ts
    | .error _ => false

variable {tbl}

theorem forall_of_testPatterns {p} (h : tbl.testPatterns p = true) {c ps}
    (hps : tbl.descriptors (tbl.supertypeExprs c) = .ok ps) :
    ∀ x ∈ ps, p c x = true := by
  by_cases hsize : c.index < tbl.classes.size
  · have hc := all_eq_true.mp h c.index (mem_range.mpr hsize)
    rw [hps] at hc
    exact all_eq_true.mp hc
  · rw [supertypeExprs, cls_eq_default (Nat.le_of_not_lt hsize)] at hps
    cases hps
    exact forall_mem_nil _

theorem index_lt_of_bounds_ne_nil {v} (h : (tbl.typeVar v).bounds ≠ []) :
    v.index < (tbl.typeParametersOf v.owner).length := by
  by_contra hindex
  rw [typeVar, getD_eq_default _ _ (Nat.le_of_not_lt hindex)] at h
  exact h rfl

/-- A variable with bounds is declared by a class or by one of its members. -/
theorem mem_declaredVars {v} (h : (tbl.typeVar v).bounds ≠ []) :
    ∃ i < tbl.classes.size, v ∈ tbl.declaredVars ⟨i⟩ := by
  have hlt := index_lt_of_bounds_ne_nil h
  have hsize {c : ClassId} (hc : tbl.cls c ≠ default) : c.index < tbl.classes.size := by
    by_contra hsize
    exact hc (cls_eq_default (Nat.le_of_not_lt hsize))
  have hmem : v ∈ tbl.typeVars v.owner := mem_typeVars.mpr ⟨rfl, hlt⟩
  obtain ⟨owner, index⟩ := v
  cases owner with
  | cls c =>
    refine ⟨c.index, hsize fun hdefault => ?_, mem_append_left _ hmem⟩
    rw [typeParametersOf, hdefault] at hlt
    cases hlt
  | executable e =>
    obtain ⟨c, isConstructor, i⟩ := e
    have hi : i < (if isConstructor then (tbl.cls c).constructors
        else (tbl.cls c).methods).length := by
      by_contra hi
      rw [typeParametersOf, executable, getD_eq_default _ _ (Nat.le_of_not_lt hi)] at hlt
      cases hlt
    refine ⟨c.index, hsize fun hdefault => ?_, ?_⟩
    · rw [hdefault] at hi
      cases isConstructor <;> cases hi
    · refine mem_append_right _ (mem_flatMap.mpr ⟨⟨c, isConstructor, i⟩, ?_, hmem⟩)
      cases isConstructor <;> simpa using hi

/-- What is tested of declared bounds, and holds of the root class, holds of all bounds. -/
theorem exists_of_testBounds {p} (h : tbl.testBounds p = true)
    (hroot : ∀ v, p v [tbl.objectType] = true) (v : TypeVarId) :
    ∃ ts, tbl.boundsOf v = .ok ts ∧ p v ts = true := by
  by_cases hbounds : (tbl.typeVar v).bounds = []
  · exact ⟨[tbl.objectType], by rw [boundsOf, hbounds]; rfl, hroot v⟩
  · obtain ⟨i, hi, hv⟩ := mem_declaredVars hbounds
    have hcheck := all_eq_true.mp (all_eq_true.mp h i (mem_range.mpr hi)) v hv
    split at hcheck
    · exact ⟨_, ‹_›, hcheck⟩
    · cases hcheck

/-! ### Criteria -/

/-- The bounds of type variables are uses of classes and type variables. -/
def BoundedByUses (tbl : Table) : Prop :=
  ∀ v, ∃ ts, tbl.boundsOf v = .ok ts ∧
    ∀ b ∈ ts, b.kind = .declared ∨ ∃ n w marks, b = .var n w marks

theorem boundedByUses_of_testBounds (h : tbl.testBounds (fun _ ts =>
    ts.all fun b => b.kind == .declared || b.asVar.isSome) = true) : tbl.BoundedByUses := by
  intro v
  obtain ⟨ts, hts, hall⟩ := exists_of_testBounds h (fun _ => rfl) v
  refine ⟨ts, hts, fun b hb => ?_⟩
  rcases Bool.or_eq_true_iff.mp (all_eq_true.mp hall b hb) with hkind | hvar
  · exact .inl (beq_iff_eq.mp hkind)
  · cases b with
    | var n w marks => exact .inr ⟨n, w, marks, rfl⟩
    | _ => cases hvar

theorem Orderly.obeys_of_tests (h : tbl.Orderly) {S}
    (hpatterns : tbl.testPatterns (fun _ p => decide (tbl.Invokes S p)) = true)
    (hbounds : tbl.testBounds (fun _ ts => decide ((∀ t ∈ ts, tbl.Within S t) ∧
      (S.intersections = true ∨ ts.length = 1))) = true) : tbl.Obeys S where
  toOrderly := h
  supertypes c e he t ht := by
    obtain ⟨ps, hps, -⟩ := h.exists_patterns c
    refine of_decide_eq_true (forall_of_testPatterns hpatterns hps t ?_)
    rw [descriptors_eq_mapM] at hps
    obtain ⟨x, hx, hex⟩ := exists_of_forall₂_left (mapM_eq_ok.mp hps) he
    cases ht.symm.trans hex
    exact hx
  bounds v := by
    have hroot := h.rooted.within_objectType S
    obtain ⟨ts, hts, hall⟩ := exists_of_testBounds hbounds
      (fun _ => decide_eq_true ⟨forall_mem_singleton.mpr hroot, .inr rfl⟩) v
    exact ⟨ts, hts, of_decide_eq_true hall⟩

theorem conveys_of_tests {V} [DecidablePred V]
    (hplaced : tbl.testPatterns (fun _ p => decide (p.Every (Ty.Placed V))) = true)
    (hhands : tbl.testPatterns (fun _ p => match p with
      | .declared d args _ _ => args.zipIdx.all fun x => decide (Ty.HandsOn V ⟨.cls d, x.2⟩ x.1)
      | _ => true) = true)
    (hbounds : tbl.testBounds (fun _ ts => decide (∀ t ∈ ts, t.Every (Ty.Placed V))) = true) :
    tbl.Conveys V where
  placed c ps hps p hp := of_decide_eq_true (forall_of_testPatterns hplaced hps p hp)
  handsOn c ps hps d args owner marks hp i a ha := by
    have hall := forall_of_testPatterns hhands hps _ hp
    have hmem : (a, i) ∈ args.zipIdx := mem_zipIdx_iff_getElem?.mpr ha
    exact of_decide_eq_true (all_eq_true.mp hall (a, i) hmem)
  bounds v ts hts := by
    have hroot : tbl.objectType.Every (Ty.Placed V) := .leaf (fun i a ha => by cases ha) rfl
    obtain ⟨us, hus, hall⟩ := exists_of_testBounds hbounds
      (fun _ => decide_eq_true (forall_mem_singleton.mpr hroot)) v
    cases hts.symm.trans hus
    exact of_decide_eq_true hall

/-- The bounds of type variables do not go round in a circle if each variable that is a bound stands
further to the left. -/
theorem grounded_of_testBounds (h : tbl.testBounds (fun v ts =>
    decide (∀ t ∈ ts, t.Over (·.index < v.index))) = true) : tbl.Grounded := by
  refine Subrelation.wf ?_ (measure TypeVarId.index).wf
  rintro w v ⟨ts, n, marks, hts, hw⟩
  obtain ⟨us, hus, hall⟩ := exists_of_testBounds h (fun v => decide_eq_true
    (forall_mem_singleton.mpr fun n u ms heq => by injection heq)) v
  cases hts.symm.trans hus
  exact of_decide_eq_true hall _ hw n w marks rfl

/-- Under single inheritance no class is inherited twice. -/
theorem Orderly.coherent_of_all (h : tbl.Orderly) (hsingle : (List.range tbl.classes.size).all
    (fun i => decide ((tbl.supertypeExprs ⟨i⟩).length ≤ 1)) = true) : tbl.Coherent := by
  refine h.coherent_of_length_le_one fun c => ?_
  by_cases hsize : c.index < tbl.classes.size
  · exact of_decide_eq_true (all_eq_true.mp hsingle c.index (mem_range.mpr hsize))
  · rw [supertypeExprs, cls_eq_default (Nat.le_of_not_lt hsize)]
    exact Nat.zero_le 1

/-- Classes that are told apart from those with supertypes have none. -/
theorem Orderly.supertypeExprs_eq_nil (h : tbl.Orderly) {p : ClassId → Bool}
    (htest : tbl.testPatterns (fun c _ => !p c) = true) (c : ClassId) (hc : p c = true) :
    tbl.supertypeExprs c = [] := by
  obtain ⟨ps, hps, -⟩ := h.exists_patterns c
  have hnone := forall_of_testPatterns htest hps
  rw [hc] at hnone
  cases eq_nil_iff_forall_not_mem.mpr fun p hp => Bool.false_ne_true (hnone p hp)
  rw [descriptors_eq_mapM] at hps
  exact length_eq_zero_iff.mp (mapM_eq_ok.mp hps).length_eq

theorem Orderly.arrays_of_testPatterns (h : tbl.Orderly)
    (htest : tbl.testPatterns (fun c _ => !tbl.isArraySupertype c) = true) (c : ClassId)
    (hc : tbl.isArraySupertype c = true) : tbl.supertypeExprs c = [] :=
  h.supertypeExprs_eq_nil htest c hc

theorem Obeys.scoped_of_testPatterns {S} (h : tbl.Obeys S)
    (hown : tbl.testPatterns (fun c p =>
      decide (p.Every (Ty.Over (· ∈ tbl.typeVars (.cls c))))) = true) : tbl.Scoped :=
  h.scoped_of_own fun _ _ hps p hp => of_decide_eq_true (forall_of_testPatterns hown hps p hp)

end Table

end NominalTypes
