import NominalTypes.Proofs.Capture
import NominalTypes.Proofs.LowerBounds
import NominalTypes.Proofs.Signatures

/-!
# Variables in place of their upper bounds

A type variable or captured variable is a subtype of whatever its upper bound is a subtype of. The
check takes a composite type on the right apart before it looks at the variable, so the argument
goes along the composite type and comes back to the bound at its constituents. The one rule that
asks for a use of a class is unboxing: a variable that is bounded by a box cannot be assigned to the
primitive type in the box, although its bound can (`Table.isAssignable_boxed_variable`).
-/

namespace NominalTypes.Table

/-- The second type is the upper bound of the first, which is a type variable or a captured one. -/
inductive UpperBounded (tbl : Table) : Ty → Ty → Prop
  | var {n v marks b} (h : tbl.upperBound v = .ok b) : UpperBounded tbl (.var n v marks) b
  | captured {token site upper lower marks} :
    UpperBounded tbl (.captured token site upper lower marks) upper

variable {tbl : Table} {rel : Relation} {k n : Nat} {s t v b x : Ty}

theorem isSameOccurrence_of_kind_ne (h : s.kind ≠ t.kind) : s.isSameOccurrence t = false := by
  simp [Ty.isSameOccurrence, h]

/-- A variable is refused by a type that is not taken apart only if its upper bound is. -/
theorem check_upperBound_of_check (hv : tbl.UpperBounded v b)
    (ht : t.kind ≠ .intersection ∧ t.kind ≠ .union) (hprimitive : t.isPrimitive = false)
    (hnone : t.isNoType = false) (h : tbl.check (k + 1) rel v t = .ok false) :
    tbl.check k rel b t = .ok false := by
  have hocc : v.isSameOccurrence t = false := by
    refine Bool.eq_false_iff.mpr fun hocc => ?_
    unfold check checkStep at h
    rw [if_pos hocc] at h
    cases h
  have hvariable : v.kind ≠ .intersection ∧ v.kind ≠ .union ∧ v.isPrimitive = false ∧
      v.isNoType = false ∧ tbl.checkUpper k (tbl.check k) rel v t = tbl.check k rel b t := by
    cases hv with
    | var hb => simp [Ty.kind, Ty.isPrimitive, Ty.isNoType, checkUpper, hb, bind, Except.bind]
    | captured => simp [Ty.kind, Ty.isPrimitive, Ty.isNoType, checkUpper]
  obtain ⟨hkind, hkind', hprimitive', hnone', hupper⟩ := hvariable
  rw [check_simple ⟨hkind, hkind'⟩ ht hocc, checkSimple, hprimitive, hprimitive', hnone, hnone',
    hupper] at h
  simp only [Bool.or_self, Bool.false_eq_true, if_false] at h
  split_ifs at h
  · cases h
  · cases h
  · obtain ⟨below, -, h⟩ := bind_eq_ok.mp h
    cases below with
    | true => cases h
    | false => exact h

/-- A reference type is not below `void`, nor below a primitive type unless it can be unboxed. -/
theorem isNoType_of_check (hs : s.isReference = true) (hkind : s.kind ≠ .intersection)
    (h : tbl.check k rel s t = .ok true) :
    t.isNoType = false ∧ (rel = .subtype → t.isPrimitive = false) := by
  have hatomic := Ty.atomic_of_isReference hs hkind
  have hrefused (ht : t.isNoType = true ∨ rel = .subtype ∧ t.isPrimitive = true) : False := by
    have hkinds : s.kind ≠ t.kind ∧ t.kind ≠ .intersection ∧ t.kind ≠ .union := by
      cases t <;> simp [Ty.isNoType, Ty.isPrimitive] at ht <;>
        cases s <;> simp_all [Ty.kind, Ty.isReference]
    have hocc := isSameOccurrence_of_kind_ne hkinds.1
    have hsame : s.same t = false :=
      Bool.eq_false_iff.mpr fun hsame => hkinds.1 (Ty.kind_eq_of_same hsame)
    have hprimitive : s.isPrimitive = false := by
      cases s <;> first | rfl | cases hs
    cases k with
    | zero => cases h
    | succ k =>
      rw [check_simple ⟨hatomic.1, hatomic.2.1⟩ hkinds.2 hocc, checkSimple, hsame, hprimitive] at h
      rcases ht with ht | ⟨rfl, ht⟩
      · have htprimitive : t.isPrimitive = false := by
          cases t <;> first | rfl | cases ht
        rw [htprimitive, ht] at h
        simp [pure, Except.pure] at h
      · obtain ⟨p, marks, rfl⟩ := Ty.exists_eq_primitive ht
        cases s <;>
          first | (cases hs; done) | simp [Ty.isPrimitive, checkPrimitive, pure, Except.pure] at h
  exact ⟨Bool.eq_false_iff.mpr fun ht => hrefused (.inl ht),
    fun hrel => Bool.eq_false_iff.mpr fun ht => hrefused (.inr ⟨hrel, ht⟩)⟩

/-- A type is not refused where one of its members is accepted. -/
theorem check_ne_false_of_member (hx : x ∈ b.members) (ht : t.kind ≠ .intersection)
    (h : tbl.check n rel x t = .ok true) : tbl.check k rel b t ≠ .ok false := by
  have hself (hfalse : tbl.check k rel x t = .ok false) : False := by
    cases check_eq_of_ok h hfalse
  cases b with
  | intersection m bounds =>
    cases k with
    | zero => exact nofun
    | succ k =>
      rw [check_intersection_left m bounds ht]
      split
      · exact nofun
      · exact anyM_ne_false hx fun hfalse => by cases check_eq_of_ok h hfalse
  | _ =>
    cases List.mem_singleton.mp hx
    exact hself

section Variable

variable (hv : tbl.UpperBounded v b)
  (hb : ∀ x ∈ b.members, x.isReference = true ∧ x.kind ≠ .intersection)
include hv hb

/-- A variable is not refused where a member of its upper bound is accepted. -/
theorem check_variable_ne_false_of_member (hx : x ∈ b.members)
    (hprimitive : rel = .assignable → ∀ y : Ty, y.Constituent t → y.isPrimitive = false)
    (h : tbl.check n rel x t = .ok true) : tbl.check k rel v t ≠ .ok false := by
  obtain ⟨hreference, hkind⟩ := hb x hx
  have hatomic := Ty.atomic_of_isReference hreference hkind
  have hvariable : v.kind ≠ .intersection ∧ v.kind ≠ .union := by
    cases hv <;> simp [Ty.kind]
  induction k generalizing t n with
  | zero => exact nofun
  | succ k ih =>
    obtain _ | n := n
    · cases h
    by_cases hinter : t.kind = .intersection
    · obtain ⟨m, bounds, rfl⟩ := Ty.exists_eq_intersection hinter
      rw [check_intersection, isSameOccurrence_of_kind_ne (t := .intersection m bounds) hkind,
        if_neg Bool.false_ne_true, allM_eq_true] at h
      rw [check_intersection]
      split
      · exact nofun
      · exact allM_ne_false fun y hy =>
          ih (fun hrel z hz => hprimitive hrel z (.bound hy hz)) (h y hy)
    by_cases hunion : t.kind = .union
    · obtain ⟨m, alternatives, rfl⟩ : ∃ m alternatives, t = .union m alternatives := by
        cases t <;> first | exact ⟨_, _, rfl⟩ | cases hunion
      rw [check_union _ _ ⟨hkind, hatomic.2.1⟩,
        isSameOccurrence_of_kind_ne (t := .union m alternatives) hatomic.2.1,
        if_neg Bool.false_ne_true] at h
      obtain ⟨y, hy, h⟩ := exists_of_anyM_eq_true h
      rw [check_union _ _ hvariable]
      split
      · exact nofun
      · exact anyM_ne_false hy (ih (fun hrel z hz => hprimitive hrel z (.alternative hy hz)) h)
    -- Nothing is left to take apart, so the check goes on with the bound.
    obtain ⟨hnone, hsubtype⟩ := isNoType_of_check hreference hkind h
    have hnotprimitive : t.isPrimitive = false := by
      cases rel with
      | subtype => exact hsubtype rfl
      | assignable => exact hprimitive rfl t (.self ⟨hinter, hunion⟩)
    intro hfalse
    exact check_ne_false_of_member hx hinter h
      (check_upperBound_of_check hv ⟨hinter, hunion⟩ hnotprimitive hnone hfalse)

/-- A variable is not refused where its upper bound is accepted. -/
theorem check_variable_ne_false
    (hprimitive : rel = .assignable → ∀ y : Ty, y.Constituent t → y.isPrimitive = false)
    (hocc : t.Every fun y => b.isSameOccurrence y = true → y = b)
    (h : tbl.check n rel b t = .ok true) : tbl.check k rel v t ≠ .ok false := by
  induction k generalizing t n with
  | zero => exact nofun
  | succ k ih =>
    obtain _ | n := n
    · cases h
    by_cases hinter : t.kind = .intersection
    · obtain ⟨m, bounds, rfl⟩ := Ty.exists_eq_intersection hinter
      rw [check_intersection] at h ⊢
      split
      · exact nofun
      refine allM_ne_false fun y hy => ?_
      have hconstituent := fun hrel z hz => hprimitive hrel z (.bound hy hz)
      split_ifs at h with hsame
      · -- The type is the bound itself, and its members are accepted by themselves.
        cases hocc.top hsame
        have hatomic := Ty.atomic_of_isReference (hb y hy).1 (hb y hy).2
        exact check_variable_ne_false_of_member hv hb hy hconstituent
          (check_atomic (k := 0) hatomic (Ty.same_refl y))
      · exact ih hconstituent (hocc.part hy) (allM_eq_true.mp h y hy)
    obtain ⟨x, hx, m, hm⟩ : ∃ x ∈ b.members, ∃ m, tbl.check m rel x t = .ok true := by
      cases b with
      | intersection m bounds =>
        rw [check_intersection_left m bounds hinter,
          isSameOccurrence_of_kind_ne (s := .intersection m bounds) (Ne.symm hinter),
          if_neg Bool.false_ne_true] at h
        obtain ⟨x, hx, h⟩ := exists_of_anyM_eq_true h
        exact ⟨x, hx, n, h⟩
      | _ => exact ⟨_, List.mem_singleton_self _, _, h⟩
    exact check_variable_ne_false_of_member hv hb hx hprimitive hm

/-- Wherever the upper bound of a variable is a subtype, the variable is, and wherever the bound can
be assigned the variable can, if that does not mean to unbox it. -/
theorem usable_of_upperBound (hocc : t.Every fun y => b.isSameOccurrence y = true → y = b) :
    (∀ k n r, tbl.isSubtype k b t = .ok true → tbl.isSubtype n v t = .ok r → r = true) ∧
    ((∀ y : Ty, y.Constituent t → y.isPrimitive = false) →
      ∀ k n r, tbl.isAssignable k b t = .ok true → tbl.isAssignable n v t = .ok r → r = true) := by
  refine ⟨fun k n r h h' => ?_, fun hprimitive k n r h h' => ?_⟩
  · cases r with
    | true => rfl
    | false =>
      exact absurd (isSubtype_eq_ok h')
        (check_variable_ne_false hv hb (fun hrel => by cases hrel) hocc (isSubtype_eq_ok h))
  · cases r with
    | true => rfl
    | false =>
      exact absurd (isAssignable_eq_ok h')
        (check_variable_ne_false hv hb (fun _ => hprimitive) hocc (isAssignable_eq_ok h))

end Variable

/-- A class with a type parameter that is bounded by the box of `int`. -/
def boxedVariable : Table := {
  classes := #[
    { name := "java.lang.Object", simpleName := "Object", kind := .cls },
    { name := "java.lang.Integer", simpleName := "Integer", kind := .cls,
      superclass := some (.named ⟨0⟩ []) },
    { name := "p.C", simpleName := "C", kind := .cls, superclass := some (.named ⟨0⟩ []),
      typeParameters := [{ name := "T", bounds := [.named ⟨1⟩ []] }] }] }

/-- Where a value of the box is expected, a value of the variable will do. -/
theorem usable_of_upperBound_boxed :
    let v : Ty := .var 0 ⟨.cls ⟨2⟩, 0⟩ []
    let b : Ty := .declared ⟨1⟩ [] none []
    (boxedVariable.UpperBounded v b ∧ boxedVariable.isSubtype 2 b b = .ok true ∧
      boxedVariable.isAssignable 2 b b = .ok true) ∧
    (∀ n r, boxedVariable.isSubtype n v b = .ok r → r = true) ∧
      ∀ n r, boxedVariable.isAssignable n v b = .ok r → r = true := by
  intro v b
  have hv : boxedVariable.UpperBounded v b := .var (by rfl)
  have husable := usable_of_upperBound (t := b) hv
    (fun x hx => by cases List.mem_singleton.mp hx; exact ⟨rfl, nofun⟩)
    (.leaf nofun rfl)
  refine ⟨⟨hv, by rfl, by rfl⟩, fun n r => husable.1 2 n r (by rfl), ?_⟩
  refine fun n r => husable.2 (fun y hy => ?_) 2 n r (by rfl)
  have hself : y = b := Ty.Atomic.constituent ⟨nofun, nofun, nofun⟩ hy
  rw [hself]
  rfl

/-- A value of the bound can be unboxed, but not a value of the variable. -/
theorem isAssignable_boxed_variable :
    let v : Ty := .var 0 ⟨.cls ⟨2⟩, 0⟩ []
    boxedVariable.UpperBounded v (.declared ⟨1⟩ [] none []) ∧
      boxedVariable.isAssignable 2 (.declared ⟨1⟩ [] none []) (.primitive .int []) = .ok true ∧
      boxedVariable.isAssignable 2 v (.primitive .int []) = .ok false := by
  intro v
  exact ⟨.var (by rfl), by rfl, by rfl⟩

end NominalTypes.Table
