import NominalTypes.Proofs.Criteria
import NominalTypes.Proofs.ErasureBound

/-!
# Least upper bounds are minimal

The erased supertypes of a type are the erasures of the type itself and of its proper supertypes.
Among those that several types have in common, the least upper bounds are the minimal ones, filled
in with arguments. Three facts make this a complete answer. Subtyping of erased types is a partial
order, so that each common erased supertype lies above a minimal one. Whatever leads up from a
reference type comes to the root class, so that there is a common erased supertype. And a class
inherits from one class only, so that at most one of the minimal ones is no interface.
-/

namespace NominalTypes

open List

variable {α : Type} {ts cs es types : List Ty} {c : ClassId} {marks : List ClassId}
  {lub : List (List Ty) → List Ty → BoundsM Result (List Ty)} {m : Ty} {f : α → Result Bool}
  {xs : List α}

namespace Ty

/-! ### Lists without repetitions -/

/-- No type of the list equals another one of it. -/
def Separate (ts : List Ty) : Prop :=
  ts.Pairwise fun s t => s.same t = false

theorem same_eq_false_symm {s t : Ty} (h : s.same t = false) : t.same s = false :=
  Bool.eq_false_iff.mpr fun hts => Bool.eq_false_iff.mp h (same_symm hts)

theorem isIn_eq_false {t : Ty} : t.isIn ts = false ↔ ∀ s ∈ ts, t.same s = false := by
  rw [isIn, any_eq_false]
  simp only [Bool.not_eq_true]

theorem separate_distinct (ts : List Ty) : Separate (distinct ts) := by
  induction ts using reverseRecOn with
  | nil => exact .nil
  | append_singleton ts t ih =>
    rw [Table.distinct_concat]
    split_ifs with hin
    · exact ih
    · refine pairwise_append.mpr ⟨ih, pairwise_singleton _ _, fun s hs x hx => ?_⟩
      rw [mem_singleton.mp hx]
      exact same_eq_false_symm (isIn_eq_false.mp (Bool.eq_false_iff.mpr hin) s hs)

theorem distinct_eq_self (h : Separate ts) : distinct ts = ts := by
  induction ts using reverseRecOn with
  | nil => rfl
  | append_singleton ts t ih =>
    obtain ⟨hts, -, hlast⟩ := pairwise_append.mp h
    have hin : t.isIn ts = false := isIn_eq_false.mpr fun s hs =>
      same_eq_false_symm (hlast s hs t (mem_singleton_self t))
    rw [Table.distinct_concat, ih hts, hin, if_neg Bool.false_ne_true]

/-- Below each type of a list on which a relation is transitive there is a minimal one, if types
below one another are equal. -/
theorem exists_minimal {R : Ty → Ty → Prop} {t}
    (htrans : ∀ x ∈ ts, ∀ y ∈ ts, ∀ z ∈ ts, R x y → R y z → R x z)
    (hanti : ∀ x ∈ ts, ∀ y ∈ ts, ∀ z ∈ ts, R x y → R y z → x.same z = true → x.same y = true)
    (ht : t ∈ ts) (hrefl : R t t) : ∃ x ∈ ts, R x t ∧ ∀ o ∈ ts, R o x → o.same x = true := by
  let below (x y : {x // x ∈ ts}) : Prop := R x.1 y.1 ∧ x.1.same y.1 = false
  have : IsTrans {x // x ∈ ts} below := by
    refine ⟨fun x y z ⟨hxy, hne⟩ ⟨hyz, _⟩ => ⟨htrans _ x.2 _ y.2 _ z.2 hxy hyz, ?_⟩⟩
    refine Bool.eq_false_iff.mpr fun hxz => Bool.eq_false_iff.mp hne ?_
    exact hanti _ x.2 _ y.2 _ z.2 hxy hyz hxz
  have : Std.Irrefl below := ⟨fun x hx => by cases hx.2.symm.trans (same_refl _)⟩
  have : Finite {x // x ∈ ts} := (finite_toSet ts).to_subtype
  have hwell : WellFounded below := Finite.wellFounded_of_trans_of_irrefl below
  obtain ⟨x, hx, hmin⟩ := hwell.has_min {x | R x.1 t} ⟨⟨t, ht⟩, hrefl⟩
  refine ⟨x, x.2, hx, fun o ho hox => ?_⟩
  by_contra hne
  exact hmin ⟨o, ho⟩ (htrans o ho _ x.2 t ht hox hx) ⟨hox, Bool.eq_false_iff.mpr hne⟩

end Ty

namespace Table

variable {tbl : Table} {captures : Nat → Ty} {n k : Nat} {s t e e' : Ty}

/-! ### The order of erased types -/

/-- The classes above all arrays are the only ones of their names, and there is nothing above the
stand-ins for primitive types but the root class. -/
structure SystemRooted (tbl : Table) : Prop extends ArraysRooted tbl where
  unique : ∀ c, tbl.isArraySupertype c = true → c ∈ tbl.arrayClasses
  standIns : ∀ c, (tbl.cls c).isPrimitive = true → tbl.supertypeExprs c = []

theorem Under.refl (he : e.Erased) : tbl.Under e e := by
  induction he with
  | null => exact .null .null
  | declared => exact .use .refl
  | primitives => exact .primitives
  | array he ih => exact .component he ih

theorem Orderly.under_object (h : tbl.Orderly) (he : e.Erased) (he' : e'.Erased)
    (hobject : tbl.isObject e' = true) : tbl.Under e e' := by
  cases he' with
  | @declared d =>
    obtain rfl : d = tbl.core.object := h.rooted.unique d (beq_iff_eq.mp hobject)
    cases he with
    | null => exact .null .declared
    | declared => exact .use (h.reflTransGen_object _)
    | primitives | array => exact .array mem_cons_self
  | _ => cases hobject

theorem Orderly.eq_of_inherits (h : tbl.Orderly) {d} (hcd : Relation.ReflTransGen tbl.Inherits c d)
    (hdc : Relation.ReflTransGen tbl.Inherits d c) :
    c = d := by
  rcases Relation.reflTransGen_iff_eq_or_transGen.mp hcd with heq | hcd
  · exact heq.symm
  · have hcycle : Relation.TransGen tbl.Inherits c c := hcd.trans_left hdc
    exact absurd (Relation.transGen_swap.mpr hcycle)
      (h.wellFounded_inherits.transGen.irrefl.irrefl c)

/-- Erased types that are under each other are equal. -/
theorem Orderly.same_of_under (h : tbl.Orderly) (he : e.Erased) (hee' : tbl.Under e e')
    (he'e : tbl.Under e' e) : e.same e' = true := by
  have he' := hee'.erased
  induction he generalizing e' with
  | null =>
    cases he' with
    | null => rfl
    | _ => cases he'e
  | declared =>
    cases hee' with
    | use hcd =>
      cases he'e with
      | use hdc =>
        cases h.eq_of_inherits hcd hdc
        exact Ty.same_of_bare_eq rfl
  | primitives =>
    cases hee' with
    | primitives => exact Ty.same_of_bare_eq rfl
    | component _ h => cases h
    | array => cases he'e
  | array he ih =>
    cases hee' with
    | primitives => cases he
    | component he₁ h₁ =>
      cases he'e with
      | primitives => cases he
      | component _ h₂ => exact ih h₁ h₂ he₁
    | array => cases he'e

/-- Nothing but the root class is above a stand-in for a primitive type. -/
theorem SystemRooted.eq_of_inherits (hsystem : tbl.SystemRooted) (hrooted : tbl.Rooted) {d}
    (hc : (tbl.cls c).isPrimitive = true) (hpath : Relation.ReflTransGen tbl.Inherits c d) :
    d = c ∨ d = tbl.core.object := by
  induction hpath with
  | refl => exact .inl rfl
  | tail _ hstep ih =>
    rcases hstep with hextends | ⟨-, -, rfl⟩
    · rcases ih with rfl | rfl
      · exact absurd hextends (not_extends_of_nil (hsystem.standIns _ hc) _)
      · exact absurd hextends (not_extends_of_nil hrooted.supertypeExprs _)
    · exact .inr rfl

/-- What the check says of erased types, from what it says in the last resort. -/
theorem Orderly.settles_check_of_last (h : tbl.Orderly) (he : e.Erased) (he' : e'.Erased)
    (hlast : e.same e' = false → e.isNull = false → tbl.isObject e' = false →
      ∃ b, Settles (fun k => tbl.checkUpper k (tbl.check k) .subtype e e') b ∧
        (tbl.Under e e' ↔ b = true)) :
    ∃ b, Settles (fun k => tbl.check k .subtype e e') b ∧ (tbl.Under e e' ↔ b = true) := by
  by_cases hshort : e.same e' = true ∨ e.isNull = true ∨ tbl.isObject e' = true
  · refine ⟨true, (Settles.ok true).step rfl fun k => ?_, fun _ => rfl, fun _ => ?_⟩
    · rw [check_erased_eq he he', if_pos hshort]
    · rcases hshort with hsame | hnull | hobject
      · exact (Under.refl he).of_same_right hsame
      · cases he with
        | null => exact .null he'
        | _ => cases hnull
      · exact h.under_object he he' hobject
  · simp only [not_or, Bool.not_eq_true] at hshort
    obtain ⟨b, hb, hunder⟩ := hlast hshort.1 hshort.2.1 hshort.2.2
    refine ⟨b, hb.step rfl fun k => ?_, hunder⟩
    rw [check_erased_eq he he', if_neg (by simp [hshort])]

/-- The check of erased types ends, and says whether the one is under the other. -/
theorem Orderly.settles_check_erased (h : tbl.Orderly) (hsystem : tbl.SystemRooted) (he : e.Erased)
    (he' : e'.Erased) :
    ∃ b, Settles (fun k => tbl.check k .subtype e e') b ∧ (tbl.Under e e' ↔ b = true) := by
  induction he generalizing e' with
  | null => exact h.settles_check_of_last .null he' fun _ hnull => by cases hnull
  | @declared c marks =>
    refine h.settles_check_of_last .declared he' fun hsame _ hobject => ?_
    cases he' with
    | @declared d marks' =>
      cases hc : (tbl.cls c).isPrimitive with
      | false =>
        obtain ⟨b, hb, hpath⟩ := h.settles_checkDeclared (d := d) hc (Ty.formed_bare_class c marks)
        refine ⟨b, hb, fun hunder => ?_, fun hb => .use (hpath.mpr hb)⟩
        cases hunder with
        | use hcd => exact hpath.mp hcd
      | true =>
        have hne : c ≠ d := by
          rintro rfl
          cases hsame.symm.trans (Ty.same_of_bare_eq rfl)
        refine ⟨false, ?_, iff_of_false (fun hunder => ?_) Bool.false_ne_true⟩
        · have hfalse : tbl.isSubclassOf c d = .ok false := by
            rw [isSubclassOf, if_neg hne, hc, Bool.true_or, if_pos rfl]
          simp only [checkUpper, checkDeclared, hfalse]
          exact Settles.ok false
        · cases hunder with
          | use hcd =>
            rcases hsystem.eq_of_inherits h.rooted hc hcd with heq | rfl
            · exact absurd heq.symm hne
            · rw [isObject, h.rooted.name] at hobject
              cases hobject
    | null | primitives | array =>
      exact ⟨false, Settles.ok false, iff_of_false (fun h => by cases h) Bool.false_ne_true⟩
  | @primitives p =>
    refine h.settles_check_of_last .primitives he' fun _ _ _ => ?_
    cases he' with
    | null =>
      exact ⟨false, Settles.ok false, iff_of_false (fun h => by cases h) Bool.false_ne_true⟩
    | @declared d =>
      refine ⟨tbl.isArraySupertype d, Settles.ok _, fun hunder => ?_, fun hd => ?_⟩
      · cases hunder with
        | array hd => exact hsystem.isArraySupertype d hd
      · exact .array (hsystem.unique d hd)
    | @primitives q ms =>
      refine ⟨_, Settles.ok _, fun hunder => ?_, fun hsame => ?_⟩
      · cases hunder with
        | primitives => exact beq_self_eq_true p
        | component _ h => cases h
      · obtain rfl : p = q := beq_iff_eq.mp hsame
        exact .primitives
    | array he =>
      refine ⟨_, Settles.ok _, fun hunder => ?_, fun hsame => ?_⟩
      · cases hunder with
        | primitives => cases he
        | component _ h => cases h
      · cases he <;> cases hsame
  | @array e marks he ih =>
    refine h.settles_check_of_last (.array he) he' fun _ _ _ => ?_
    cases he' with
    | null =>
      exact ⟨false, Settles.ok false, iff_of_false (fun h => by cases h) Bool.false_ne_true⟩
    | @declared d =>
      refine ⟨tbl.isArraySupertype d, Settles.ok _, fun hunder => ?_, fun hd => ?_⟩
      · cases hunder with
        | array hd => exact hsystem.isArraySupertype d hd
      · exact .array (hsystem.unique d hd)
    | @primitives q ms =>
      simp only [checkUpper, checkArray, Ty.isPrimitive, Bool.or_true, if_true]
      refine ⟨_, Settles.ok _, fun hunder => ?_, fun hsame => ?_⟩
      · cases hunder with
        | primitives => cases he
        | component he _ => cases he
      · cases he <;> cases hsame
    | array he' =>
      simp only [checkUpper, checkArray, he.isPrimitive, he'.isPrimitive, Bool.or_self,
        Bool.false_eq_true, if_false]
      obtain ⟨b, hb, hunder⟩ := ih he'
      refine ⟨b, hb, fun h => hunder.mp ?_, fun hb => .component he' (hunder.mpr hb)⟩
      cases h with
      | primitives => cases he
      | component _ h => exact h

theorem Orderly.settles_isSubtype_erased (h : tbl.Orderly) (hsystem : tbl.SystemRooted)
    (he : e.Erased) (he' : e'.Erased) :
    ∃ b, Settles (fun k => tbl.isSubtype k e e') b ∧ (tbl.Under e e' ↔ b = true) := by
  obtain ⟨b, hb, hunder⟩ := h.settles_check_erased hsystem he he'
  refine ⟨b, ?_, hunder⟩
  simp only [isSubtype, Ty.requireType, he.isPseudo, he'.isPseudo]
  exact hb

/-- In a list of erased types, there is a minimal one under each. -/
theorem Orderly.exists_minimal_under (h : tbl.Orderly) (harrays : tbl.ArraysRooted)
    (hcs : ∀ c ∈ cs, c.Erased) (he : e ∈ cs) :
    ∃ x ∈ cs, tbl.Under x e ∧ ∀ o ∈ cs, tbl.Under o x → o.same x = true := by
  refine Ty.exists_minimal (fun x _ y _ z _ hxy hyz => hxy.trans harrays hyz)
    (fun x hx y _ z _ hxy hyz hxz => ?_) he (Under.refl (hcs e he))
  exact h.same_of_under (hcs x hx) hxy (hyz.of_same_right (Ty.same_symm hxz))

/-! ### Reference types -/

/-- The type is built from uses of classes, type and captured variables, arrays, and intersections
of such types. A captured variable is known by its token. -/
inductive Referential (captures : Nat → Ty) : Ty → Prop
  | use {c : ClassId} {args : List Ty} {owner : Option Ty} {marks : List ClassId} :
    Referential captures (.declared c args owner marks)
  | primitives {p : Primitive} {ms marks : List ClassId} :
    Referential captures (.array (.primitive p ms) marks)
  | array {t : Ty} {marks : List ClassId} (h : Referential captures t) :
    Referential captures (.array t marks)
  | var {n : Nat} {v : TypeVarId} {marks : List ClassId} : Referential captures (.var n v marks)
  | captured {token site : Nat} {upper lower : Ty} {marks : List ClassId}
    (htoken : (Ty.captured token site upper lower marks).Tokened captures)
    (h : Referential captures upper) : Referential captures (.captured token site upper lower marks)
  | intersection {n : Nat} {bounds : List Ty} (h : ∀ b ∈ bounds, Referential captures b) :
    Referential captures (.intersection n bounds)

/-- The bounds of type variables are reference types. -/
def BoundedByReferences (tbl : Table) (captures : Nat → Ty) : Prop :=
  ∀ v ts, tbl.boundsOf v = .ok ts → ∀ b ∈ ts, Referential captures b

namespace Referential

theorem isPrimitive (h : Referential captures t) : t.isPrimitive = false := by
  cases h <;> rfl

theorem isNull (h : Referential captures t) : t.isNull = false := by
  cases h <;> rfl

theorem isPseudo (h : Referential captures t) : t.isPseudo = false := by
  cases h <;> rfl

theorem orUpper_eq (h : Referential captures t) : t.orUpper = t := by
  cases h <;> rfl

theorem component (h : Referential captures (.array t marks)) (ht : t.isPrimitive = false) :
    Referential captures t := by
  cases h with
  | primitives => cases ht
  | array h => exact h

end Referential

theorem BoundedByReferences.upperBound (h : tbl.BoundedByReferences captures) {v : TypeVarId}
    {u : Ty} (hu : tbl.upperBound v = .ok u) : Referential captures u := by
  obtain ⟨ts, hts, -⟩ := bind_eq_ok.mp (by rwa [Table.upperBound] at hu)
  rcases upperBound_cases hts hu with rfl | rfl
  · exact h v [u] hts u mem_cons_self
  · exact .intersection (h v ts hts)

theorem BoundedByReferences.erased_of_eraseWith (h : tbl.BoundedByReferences captures)
    {lub : List Ty → Result (List Ty)} (ht : Referential captures t)
    (he : tbl.eraseWith lub k t = .ok e) : e.Erased := by
  induction k generalizing t e with
  | zero => cases he
  | succ k ih =>
    cases ht with
    | use =>
      cases (eraseWith_declared ..).symm.trans he
      exact .declared
    | primitives =>
      obtain ⟨x, hx, he⟩ := bind_eq_ok.mp he
      cases he
      cases k with
      | zero => cases hx
      | succ k =>
        cases hx
        exact .primitives
    | array ht =>
      obtain ⟨x, hx, he⟩ := bind_eq_ok.mp he
      cases he
      exact .array (ih ht hx)
    | var =>
      obtain ⟨u, hu, he⟩ := bind_eq_ok.mp he
      exact ih (h.upperBound hu) he
    | captured _ ht => exact ih ht he
    | @intersection _ bounds ht =>
      cases bounds with
      | nil => cases he
      | cons b bounds => exact ih (ht b mem_cons_self) he

/-- What is directly above a reference type is one. -/
theorem Orderly.referential_of_typesAboveWith (h : tbl.Orderly)
    (hbounds : tbl.BoundedByReferences captures) {lub : List Ty → Result (List Ty)}
    (ht : Referential captures t) (hts : tbl.typesAboveWith lub n t = .ok ts) :
    ∀ s ∈ ts, Referential captures s := by
  have hroots (s : Ty) (hs : s ∈ tbl.arrayRoots) : Referential captures s := by
    obtain ⟨c, -, rfl⟩ := mem_map.mp hs
    exact .use
  induction ht generalizing ts with
  | use =>
    intro s hs
    obtain ⟨d, ⟨args, owner, marks, rfl⟩, -⟩ := h.inherits_of_declaredSupertypes hts s hs
    exact .use
  | primitives =>
    cases hts
    exact hroots
  | array ht ih =>
    rw [typesAboveWith] at hts
    split_ifs at hts
    · cases hts
      exact hroots
    · obtain ⟨xs, hxs, hts⟩ := bind_eq_ok.mp hts
      intro s hs
      obtain ⟨x, hx, hxs'⟩ := exists_of_forall₂_right (mapM_eq_ok.mp hts) hs
      obtain ⟨rfl, -⟩ := makeArray_eq_ok hxs'
      rw [(ih hxs x hx).orUpper_eq]
      exact .array (ih hxs x hx)
  | var => exact hbounds _ ts hts
  | captured _ hupper =>
    cases hts
    exact forall_mem_singleton.mpr hupper
  | intersection hmembers =>
    cases hts
    exact hmembers

/-! ### The way to the root class -/

/-- The types are reference types, and with each of them the types directly above it are among them,
up to equality. -/
structure Rising (tbl : Table) (captures : Nat → Ty) (lub : List Ty → Result (List Ty)) (n : Nat)
    (A : Ty → Prop) : Prop where
  referential : ∀ a, A a → Referential captures a
  above : ∀ a, A a → ∃ ts, tbl.typesAboveWith lub n a = .ok ts ∧
    ∀ s ∈ ts, ∃ b, A b ∧ s.same b = true

section Rising

variable {lub : List Ty → Result (List Ty)} {A : Ty → Prop}

theorem exists_eq_array_of_same (h : (Ty.array s marks).same t = true) :
    ∃ t' marks', t = .array t' marks' ∧ s.same t' = true := by
  cases t with
  | array t' marks' => exact ⟨t', marks', rfl, h⟩
  | _ => cases h

/-- The components of the arrays among the types. -/
theorem Rising.components (h : tbl.Orderly) (hbounds : tbl.BoundedByReferences captures)
    (hA : tbl.Rising captures lub n A) :
    tbl.Rising captures lub n fun y => y.isPrimitive = false ∧ ∃ marks, A (.array y marks) := by
  refine ⟨fun y ⟨hy, marks, ha⟩ => (hA.referential _ ha).component hy, fun y ⟨hy, marks, ha⟩ => ?_⟩
  obtain ⟨ts, hts, hall⟩ := hA.above _ ha
  rw [typesAboveWith] at hts
  split_ifs at hts with hroot
  · -- the root class has nothing above it
    rw [hy, Bool.false_or] at hroot
    obtain ⟨c, args, owner, ms, rfl⟩ : ∃ c args owner ms, y = .declared c args owner ms := by
      cases y with
      | declared c args owner ms => exact ⟨c, args, owner, ms, rfl⟩
      | _ => cases hroot
    obtain rfl : c = tbl.core.object := h.rooted.unique c (beq_iff_eq.mp hroot)
    refine ⟨[], ?_, forall_mem_nil _⟩
    rw [typesAboveWith, declaredSupertypes_of_nil h.rooted.supertypeExprs, if_pos h.rooted.name]
    rfl
  · obtain ⟨xs, hxs, hts⟩ := bind_eq_ok.mp hts
    refine ⟨xs, hxs, fun x hx => ?_⟩
    have hreferential := h.referential_of_typesAboveWith hbounds
      ((hA.referential _ ha).component hy) hxs x hx
    obtain ⟨s, hs, hxs'⟩ := exists_of_forall₂_left (mapM_eq_ok.mp hts) hx
    obtain ⟨rfl, -⟩ := makeArray_eq_ok hxs'
    obtain ⟨b, hb, hsb⟩ := hall _ hs
    obtain ⟨y', ms, rfl, hxy⟩ := exists_eq_array_of_same hsb
    rw [hreferential.orUpper_eq] at hxy
    have hprimitive := Ty.isPrimitive_of_kind_eq (Ty.kind_eq_of_same hxy)
    exact ⟨y', ⟨hprimitive.symm.trans hreferential.isPrimitive, ms, hb⟩, hxy⟩

theorem Orderly.exists_of_declaredSupertypes (h : tbl.Orderly) (hc : c ≠ tbl.core.object)
    {args owner} (hts : tbl.declaredSupertypes n c args owner = .ok ts) :
    ∃ s, s ∈ ts := by
  by_cases hexprs : tbl.supertypeExprs c = []
  · rw [declaredSupertypes_of_nil hexprs, if_neg fun hname => hc (h.rooted.unique c hname)] at hts
    cases hts
    exact ⟨_, mem_cons_self⟩
  · obtain ⟨ps, hps, -⟩ := h.exists_patterns c
    have hlength := (forall₂_inherited hexprs hps hts).length_eq
    rw [descriptors_eq_mapM] at hps
    rw [← (mapM_eq_ok.mp hps).length_eq] at hlength
    exact exists_mem_of_length_pos (hlength ▸ length_pos_iff.mpr hexprs)

/-- From a use of a class, inheritance leads to the root class. -/
theorem Orderly.exists_object_of_uses (h : tbl.Orderly) (hA : tbl.Rising captures lub n A)
    (ha : A t) (hc : Ty.Uses c t) : ∃ b, A b ∧ Ty.Uses tbl.core.object b := by
  induction c using h.wellFounded_inherits.induction generalizing t with
  | _ c ih =>
    by_cases hobject : c = tbl.core.object
    · exact ⟨t, ha, hobject ▸ hc⟩
    · obtain ⟨args, owner, marks, rfl⟩ := hc
      obtain ⟨ts, hts, hall⟩ := hA.above _ ha
      obtain ⟨s, hs⟩ := h.exists_of_declaredSupertypes hobject hts
      obtain ⟨d, hd, hinherits⟩ := h.inherits_of_declaredSupertypes hts s hs
      obtain ⟨b, hb, hsame⟩ := hall s hs
      exact ih d hinherits hb (uses_of_same hsame hd)

/-- An array of root classes or of primitive types is below the root class. -/
theorem Rising.exists_object_of_array (hA : tbl.Rising captures lub n A) (ha : A (.array t marks))
    (ht : (t.isPrimitive || tbl.isObject t) = true) :
    ∃ b, A b ∧ Ty.Uses tbl.core.object b := by
  obtain ⟨ts, hts, hall⟩ := hA.above _ ha
  rw [typesAboveWith, if_pos ht] at hts
  cases hts
  obtain ⟨b, hb, hsame⟩ := hall _ mem_cons_self
  exact ⟨b, hb, uses_of_same hsame ⟨_, _, _, rfl⟩⟩

/-- The way up from a type that has an erasure leads to the root class. The induction follows the
erasure, since going up bounds of variables need not end otherwise. -/
theorem Orderly.exists_object_of_rising (h : tbl.Orderly)
    (hbounds : tbl.BoundedByReferences captures)
    (hA : tbl.Rising captures lub n A) (ht : Referential captures t)
    {lub' : List Ty → Result (List Ty)} (he : tbl.eraseWith lub' k t = .ok e) (ha : A s)
    (hsame : t.same s = true) : ∃ b, A b ∧ Ty.Uses tbl.core.object b := by
  induction k using Nat.strong_induction_on generalizing A t s e with
  | _ k ih =>
    cases k with
    | zero => cases he
    | succ k =>
      have hup (x y : Ty) (hx : Referential captures x) (hxe : tbl.eraseWith lub' k x = .ok e)
          (hxy : x.same y = true) {ts : List Ty} (hts : tbl.typesAboveWith lub n s = .ok ts)
          (hy : y ∈ ts) : ∃ b, A b ∧ Ty.Uses tbl.core.object b := by
        obtain ⟨ts', hts', hall⟩ := hA.above s ha
        cases hts.symm.trans hts'
        obtain ⟨b, hb, hyb⟩ := hall y hy
        exact ih k (Nat.lt_succ_self k) hA hx hxe hb (Ty.same_trans hxy hyb)
      cases ht with
      | use => exact h.exists_object_of_uses hA ha (uses_of_same hsame ⟨_, _, _, rfl⟩)
      | primitives =>
        obtain ⟨y, ms, rfl, hy⟩ := exists_eq_array_of_same hsame
        have hprimitive := Ty.isPrimitive_of_kind_eq (Ty.kind_eq_of_same hy)
        exact hA.exists_object_of_array ha (by rw [← hprimitive]; rfl)
      | @array t _ ht =>
        obtain ⟨y, ms, rfl, hy⟩ := exists_eq_array_of_same hsame
        obtain ⟨x, hx, -⟩ := bind_eq_ok.mp he
        have hprimitive := Ty.isPrimitive_of_kind_eq (Ty.kind_eq_of_same hy)
        obtain ⟨z, ⟨-, ms', hz⟩, args, owner, ms'', rfl⟩ := ih k (Nat.lt_succ_self k)
          (hA.components h hbounds) ht hx ⟨hprimitive.symm.trans ht.isPrimitive, ms, ha⟩ hy
        refine hA.exists_object_of_array hz ?_
        rw [isObject, h.rooted.name]
        rfl
      | @var _ v =>
        obtain ⟨u, hu, he⟩ := bind_eq_ok.mp he
        obtain ⟨m, ms, rfl⟩ : ∃ m ms, s = .var m v ms := by
          cases s with
          | var m w ms => exact ⟨m, ms, by rw [beq_iff_eq.mp hsame]⟩
          | _ => cases hsame
        obtain ⟨ts, hts, -⟩ := bind_eq_ok.mp (by rwa [upperBound] at hu)
        rcases upperBound_cases hts hu with rfl | rfl
        · exact hup u u (hbounds.upperBound hu) he (Ty.same_refl u) hts mem_cons_self
        · cases k with
          | zero => cases he
          | succ k =>
            cases ts with
            | nil => cases he
            | cons b ts =>
              refine hup b b (hbounds v _ hts b mem_cons_self) ?_ (Ty.same_refl b) hts
                mem_cons_self
              exact (cut_eraseWith (fun _ => .refl _) (Nat.le_succ k) b).eq_ok he
      | @captured token _ upper _ _ htoken hupper =>
        cases s with
        | captured token' site' upper' lower' marks' =>
          obtain rfl : token = token' := beq_iff_eq.mp hsame
          cases hA.referential _ ha with
          | captured htoken' =>
            have hbare := (htoken _ _ _ _ _ rfl).trans (htoken' _ _ _ _ _ rfl).symm
            simp only [Ty.bare, Ty.captured.injEq, true_and] at hbare
            exact hup upper upper' hupper he (Ty.same_of_bare_eq hbare.1) rfl mem_cons_self
        | _ => cases hsame
      | @intersection _ bounds hmembers =>
        cases s with
        | intersection m bounds' =>
          cases bounds with
          | nil => cases he
          | cons b bounds =>
            cases bounds' with
            | nil => cases hsame
            | cons b' bounds' =>
              replace hsame : Ty.sameAll (b :: bounds) (b' :: bounds') = true := hsame
              rw [Ty.sameAll, Bool.and_eq_true] at hsame
              exact hup b b' (hmembers b mem_cons_self) he hsame.1 rfl mem_cons_self
        | _ => cases hsame

end Rising

/-! ### Common erased supertypes -/

/-- Up to annotations, the second type is the erasure of the first or of one of its proper
supertypes. -/
def ErasedAbove (tbl : Table) (t e : Ty) : Prop :=
  ∃ n ss s x, (tbl.allSupertypes n t : Result (List Ty)) = .ok ss ∧ s ∈ t :: ss ∧
    tbl.erase n s = .ok x ∧ x.same e = true

/-- All the types have the erased type above them. -/
def Common (tbl : Table) (types : List Ty) (e : Ty) : Prop :=
  ∀ t ∈ types, tbl.ErasedAbove t e

/-- No other common erased supertype is below this one. -/
def MinimalCommon (tbl : Table) (types : List Ty) (e : Ty) : Prop :=
  tbl.Common types e ∧ ∀ o, tbl.Common types o →
    o.same e = true ∨ Settles (fun k => tbl.isSubtype k o e) false

/-- The computation starts with the erased supertypes of each type. -/
theorem erasedAbove_iff (hes : (tbl.erasedSupertypes n (tbl.lub n) t : Result (List Ty)) = .ok es) :
    tbl.ErasedAbove t e ↔ ∃ x ∈ es, x.same e = true := by
  obtain ⟨ancestors, hancestors, hes⟩ := bind_eq_ok.mp hes
  obtain ⟨erased, herased, hes⟩ := bind_eq_ok.mp hes
  cases hes
  have hall : (tbl.allSupertypes n t : Result (List Ty)) = .ok (ancestors.drop 1) :=
    bind_eq_ok.mpr ⟨ancestors, hancestors, rfl⟩
  obtain ⟨above, -, hexpand⟩ := bind_eq_ok.mp hancestors
  obtain ⟨rest, rfl⟩ := exists_eq_append_of_expandSupertypes hexpand
  constructor
  · rintro ⟨m, ss, s, x, hss, hs, hx, hxe⟩
    have hss' := (cut_allSupertypes (Nat.le_max_left m n) t).eq_ok hss
    cases hss'.symm.trans ((cut_allSupertypes (Nat.le_max_right m n) t).eq_ok hall)
    obtain ⟨x', hx', hsx'⟩ := exists_of_forall₂_left (mapM_eq_ok.mp herased) hs
    have hsx := (cut_erase (Nat.le_max_left m n) s).eq_ok hx
    cases hsx.symm.trans ((cut_erase (Nat.le_max_right m n) s).eq_ok hsx')
    obtain ⟨y, hy, hxy⟩ := any_eq_true.mp (isIn_distinct hx')
    exact ⟨y, hy, Ty.same_trans (Ty.same_symm hxy) hxe⟩
  · rintro ⟨x, hx, hxe⟩
    obtain ⟨s, hs, hsx⟩ := exists_of_forall₂_right (mapM_eq_ok.mp herased) (mem_of_mem_distinct hx)
    exact ⟨n, rest, s, x, hall, hs, hsx, hxe⟩

section Stages

theorem common_iff (hne : types ≠ [])
    (h : (tbl.commonErasedSupertypes n (tbl.lub n) types : Result (List Ty)) = .ok cs) :
    tbl.Common types e ↔ ∃ c ∈ cs, c.same e = true := by
  obtain ⟨t, types, rfl⟩ := exists_cons_of_ne_nil hne
  obtain ⟨es, ess, hes, hess, rfl⟩ := commonErasedSupertypes_eq_ok h
  rw [Common, forall_mem_cons, erasedAbove_iff hes]
  constructor
  · rintro ⟨⟨x, hx, hxe⟩, hothers⟩
    refine ⟨x, mem_filter.mpr ⟨hx, all_eq_true.mpr fun os hos => ?_⟩, hxe⟩
    obtain ⟨s, hs, hsos⟩ := exists_of_forall₂_right hess hos
    obtain ⟨y, hy, hye⟩ := (erasedAbove_iff hsos).mp (hothers s hs)
    exact any_eq_true.mpr ⟨y, hy, Ty.same_trans hxe (Ty.same_symm hye)⟩
  · rintro ⟨c, hc, hce⟩
    obtain ⟨hc, hin⟩ := mem_filter.mp hc
    refine ⟨⟨c, hc, hce⟩, fun s hs => ?_⟩
    obtain ⟨os, hos, hsos⟩ := exists_of_forall₂_left hess hs
    obtain ⟨y, hy, hcy⟩ := any_eq_true.mp (all_eq_true.mp hin os hos)
    exact (erasedAbove_iff hsos).mpr ⟨y, hy, Ty.same_trans (Ty.same_symm hcy) hce⟩

theorem separate_of_commonErasedSupertypes
    (h : (tbl.commonErasedSupertypes n lub types : Result (List Ty)) = .ok cs) :
    Ty.Separate cs := by
  cases types with
  | nil =>
    cases h
    exact .nil
  | cons t types =>
    obtain ⟨es, ess, hes, -, rfl⟩ := commonErasedSupertypes_eq_ok h
    obtain ⟨ancestors, -, hes⟩ := bind_eq_ok.mp hes
    obtain ⟨erased, -, hes⟩ := bind_eq_ok.mp hes
    cases hes
    exact List.Pairwise.filter _ (Ty.separate_distinct erased)

/-- The erased supertypes of a reference type are erased, and the root class is one of them. -/
theorem Orderly.erased_of_erasedSupertypes (h : tbl.Orderly)
    (hbounds : tbl.BoundedByReferences captures) (ht : Referential captures t)
    (hes : (tbl.erasedSupertypes n lub t : Result (List Ty)) = .ok es) :
    (∀ e ∈ es, e.Erased) ∧ ∃ e ∈ es, e.same tbl.objectType = true := by
  obtain ⟨ancestors, hancestors, hes⟩ := bind_eq_ok.mp hes
  obtain ⟨erased, herased, hes⟩ := bind_eq_ok.mp hes
  cases hes
  obtain ⟨above, habove, hexpand⟩ := bind_eq_ok.mp hancestors
  have hdirect (x : Ty) (xs : List Ty) (hx : Referential captures x)
      (hxs : tbl.directSupertypesWith (leastUpperBoundsWith lub) n x = .ok xs) :
      ∀ y ∈ xs, Referential captures y := by
    rw [directSupertypesWith_eq_typesAboveWith] at hxs
    exact h.referential_of_typesAboveWith hbounds hx hxs
  have hreferential := forall_of_expandSupertypes hdirect hexpand (hdirect t above ht habove)
    (forall_mem_singleton.mpr ht)
  constructor
  · intro e he
    obtain ⟨x, hx, hxe⟩ := exists_of_forall₂_right (mapM_eq_ok.mp herased) (mem_of_mem_distinct he)
    exact hbounds.erased_of_eraseWith (hreferential x hx) hxe
  · obtain ⟨-, hclosed⟩ := isIn_of_expandSupertypes hexpand
      (forall_mem_singleton.mpr ⟨above, habove, fun s hs => .inl hs⟩)
    have hrising : tbl.Rising captures (leastUpperBoundsWith lub) n (· ∈ ancestors) := by
      refine ⟨hreferential, fun a ha => ?_⟩
      obtain ⟨ts, hts, hall⟩ := hclosed a ha
      rw [directSupertypesWith_eq_typesAboveWith] at hts
      exact ⟨ts, hts, fun s hs => any_eq_true.mp (hall s hs)⟩
    obtain ⟨rest, hrest⟩ := exists_eq_append_of_expandSupertypes hexpand
    have hmem : t ∈ ancestors := hrest ▸ mem_cons_self
    obtain ⟨e, -, hte⟩ := exists_of_forall₂_left (mapM_eq_ok.mp herased) hmem
    obtain ⟨b, hb, args, owner, marks, rfl⟩ :=
      h.exists_object_of_rising hbounds hrising ht hte hmem (Ty.same_refl t)
    obtain ⟨x, hx, hbx⟩ := exists_of_forall₂_left (mapM_eq_ok.mp herased) hb
    cases n with
    | zero => cases hbx
    | succ n =>
      cases (eraseWith_declared ..).symm.trans hbx
      obtain ⟨y, hy, hxy⟩ := any_eq_true.mp (isIn_distinct hx)
      exact ⟨y, hy, Ty.same_trans (Ty.same_symm hxy) (Ty.same_of_bare_eq rfl)⟩

theorem Orderly.erased_of_commonErasedSupertypes (h : tbl.Orderly)
    (hbounds : tbl.BoundedByReferences captures) (hne : types ≠ [])
    (htypes : ∀ t ∈ types, Referential captures t)
    (hcs : (tbl.commonErasedSupertypes n lub types : Result (List Ty)) = .ok cs) :
    (∀ c ∈ cs, c.Erased) ∧ ∃ c ∈ cs, c.same tbl.objectType = true := by
  obtain ⟨t, types, rfl⟩ := exists_cons_of_ne_nil hne
  obtain ⟨ht, htypes⟩ := forall_mem_cons.mp htypes
  obtain ⟨es, ess, hes, hess, rfl⟩ := commonErasedSupertypes_eq_ok hcs
  obtain ⟨herased, x, hx, hobject⟩ := h.erased_of_erasedSupertypes hbounds ht hes
  refine ⟨fun c hc => herased c (mem_filter.mp hc).1, x,
    mem_filter.mpr ⟨hx, all_eq_true.mpr fun os hos => ?_⟩, hobject⟩
  obtain ⟨s, hs, hsos⟩ := exists_of_forall₂_right hess hos
  obtain ⟨-, y, hy, hyobject⟩ := h.erased_of_erasedSupertypes hbounds (htypes s hs) hsos
  exact any_eq_true.mpr ⟨y, hy, Ty.same_trans hobject (Ty.same_symm hyobject)⟩

end Stages

/-! ### The minimal ones -/

theorem exists_of_anyM_eq_true (h : xs.anyM f = .ok true) :
    ∃ x ∈ xs, f x = .ok true := by
  induction xs with
  | nil => cases h
  | cons x xs ih =>
    obtain ⟨b, hb, h⟩ := bind_eq_ok.mp h
    cases b with
    | true => exact ⟨x, mem_cons_self, hb⟩
    | false =>
      obtain ⟨y, hy, hfy⟩ := ih h
      exact ⟨y, mem_cons_of_mem x hy, hfy⟩

/-- A type that is not minimal has another one below it. -/
theorem mem_minimalTypes_or {minimal} (h : tbl.minimalTypes n types = .ok minimal)
    (ht : t ∈ types) :
    t ∈ minimal ∨ ∃ o ∈ types, o.same t = false ∧ tbl.isSubtype n o t = .ok true := by
  obtain ⟨g, hg, -⟩ := filterM_eq_ok h
  have hb := hg t ht
  cases hgt : g t with
  | true => exact .inl ((mem_filterM h).mpr ⟨ht, hgt ▸ hb⟩)
  | false =>
    obtain ⟨found, hfound, hb⟩ := bind_eq_ok.mp (hgt ▸ hb)
    cases found with
    | false => cases hb
    | true =>
      obtain ⟨o, ho, htrue⟩ := exists_of_anyM_eq_true hfound
      split at htrue
      · cases htrue
      · exact .inr ⟨o, ho, Bool.eq_false_iff.mpr ‹_›, htrue⟩

theorem Under.congr (harrays : tbl.ArraysRooted) {x x'} (hx : x.Erased) (hxe : x.same e = true)
    (hxe' : x'.same e' = true) (h : tbl.Under e e') : tbl.Under x x' :=
  (((Under.refl hx).of_same_right hxe).trans harrays h).of_same_right (Ty.same_symm hxe')

section Minimal

variable {ms : List Ty} (h : tbl.Orderly) (hsystem : tbl.SystemRooted)

include h hsystem

theorem Orderly.under_iff_isSubtype (he : e.Erased) (he' : e'.Erased) {b}
    (hb : tbl.isSubtype n e e' = .ok b) : tbl.Under e e' ↔ b = true := by
  obtain ⟨b', hb', hunder⟩ := h.settles_isSubtype_erased hsystem he he'
  cases (hb'.2 n).elim (fun hn => by cases hn.symm.trans hb) fun hn => hn.symm.trans hb
  exact hunder

theorem Orderly.settles_isSubtype_false (he : e.Erased) (he' : e'.Erased)
    (hnot : ¬tbl.Under e e') :
    Settles (fun k => tbl.isSubtype k e e') false := by
  obtain ⟨b, hb, hunder⟩ := h.settles_isSubtype_erased hsystem he he'
  cases b with
  | true => exact absurd (hunder.mpr rfl) hnot
  | false => exact hb

variable (hcs : ∀ c ∈ cs, c.Erased) (hms : tbl.minimalTypes n cs = .ok ms)

include hcs hms

/-- Of the minimal candidates, none is under another. -/
theorem Orderly.not_under_of_minimalTypes {o} (hm : m ∈ ms) (ho : o ∈ cs) (hom : tbl.Under o m) :
    o.same m = true := by
  obtain ⟨hm, hbelow⟩ := (mem_minimalTypes hms).mp hm
  rcases hbelow o ho with hsame | hfalse
  · exact hsame
  · cases (h.under_iff_isSubtype hsystem (hcs o ho) (hcs m hm) hfalse).mp hom

/-- The minimal candidates are the minimal common erased supertypes. -/
theorem Orderly.minimalCommon_iff
    (hcommon : ∀ e, tbl.Common types e ↔ ∃ c ∈ cs, c.same e = true) :
    tbl.MinimalCommon types e ↔ ∃ m ∈ ms, m.same e = true := by
  constructor
  · rintro ⟨he, hminimal⟩
    obtain ⟨c, hc, hce⟩ := (hcommon e).mp he
    rcases mem_minimalTypes_or hms hc with hm | ⟨o, ho, hne, htrue⟩
    · exact ⟨c, hm, hce⟩
    · exfalso
      have hoc := (h.under_iff_isSubtype hsystem (hcs o ho) (hcs c hc) htrue).mpr rfl
      rcases hminimal o ((hcommon o).mpr ⟨o, ho, Ty.same_refl o⟩) with hoe | hfalse
      · cases hne.symm.trans (Ty.same_trans hoe (Ty.same_symm hce))
      · obtain ⟨k, hk⟩ := hfalse.1
        have he' := erased_of_same (hcs c hc) hce
        cases (h.under_iff_isSubtype hsystem (hcs o ho) he' (hk k le_rfl)).mp
          (hoc.of_same_right hce)
  · rintro ⟨m, hm, hme⟩
    have hmem := ((mem_minimalTypes hms).mp hm).1
    refine ⟨(hcommon e).mpr ⟨m, hmem, hme⟩, fun o ho => ?_⟩
    obtain ⟨c, hc, hco⟩ := (hcommon o).mp ho
    by_cases hcm : tbl.Under c m
    · have hsame := h.not_under_of_minimalTypes hsystem hcs hms hm hc hcm
      exact .inl (Ty.same_trans (Ty.same_trans (Ty.same_symm hco) hsame) hme)
    · refine .inr (h.settles_isSubtype_false hsystem (erased_of_same (hcs c hc) hco)
        (erased_of_same (hcs m hmem) hme) fun hoe => hcm ?_)
      exact hoe.congr hsystem.toArraysRooted (hcs c hc) hco hme

/-- Each candidate lies above a minimal one. -/
theorem Orderly.exists_mem_minimalTypes {c} (hc : c ∈ cs) : ∃ m ∈ ms, tbl.Under m c := by
  obtain ⟨x, hx, hxc, hminimal⟩ := h.exists_minimal_under hsystem.toArraysRooted hcs hc
  rcases mem_minimalTypes_or hms hx with hm | ⟨o, ho, hne, htrue⟩
  · exact ⟨x, hm, hxc⟩
  · have hox := (h.under_iff_isSubtype hsystem (hcs o ho) (hcs x hx) htrue).mpr rfl
    cases hne.symm.trans (hminimal o ho hox)

end Minimal

/-! ### Single inheritance -/

/-- Only interfaces are named where interfaces are listed, and interfaces have no superclass. -/
structure SinglyInheriting (tbl : Table) : Prop where
  interfaces : ∀ c, ∀ e ∈ (tbl.cls c).interfaces, ∀ d, tbl.rawClass e = .ok d →
    (tbl.cls d).isInterface = true
  superclass : ∀ c, (tbl.cls c).isInterface = true → (tbl.cls c).superclass = none

section SinglyInheriting

variable {d d' : ClassId}

theorem SinglyInheriting.cases_of_inherits (h : tbl.SinglyInheriting) (hcd : tbl.Inherits c d) :
    (tbl.cls d).isInterface = true ∨ d = tbl.core.object ∨
      ∃ e, (tbl.cls c).superclass = some e ∧ tbl.rawClass e = .ok d := by
  rcases hcd with ⟨ds, hds, hd⟩ | ⟨-, -, rfl⟩
  · obtain ⟨e, he, hed⟩ := exists_of_forall₂_right (mapM_eq_ok.mp hds) hd
    rcases mem_append.mp he with he | he
    · exact .inr (.inr ⟨e, Option.mem_toList.mp he, hed⟩)
    · exact .inl (h.interfaces c e he d hed)
  · exact .inr (.inl rfl)

theorem Orderly.eq_object_of_object (h : tbl.Orderly)
    (hpath : Relation.ReflTransGen tbl.Inherits tbl.core.object d) : d = tbl.core.object := by
  rcases Relation.ReflTransGen.cases_head hpath with rfl | ⟨x, hx, -⟩
  · rfl
  · exact absurd hx (h.not_inherits_object x)

/-- The only class above an interface that is none is the root class. -/
theorem Orderly.eq_object_of_isInterface (h : tbl.Orderly) (hsingle : tbl.SinglyInheriting)
    (hpath : Relation.ReflTransGen tbl.Inherits c d) (hc : (tbl.cls c).isInterface = true)
    (hd : (tbl.cls d).isInterface = false) : d = tbl.core.object := by
  induction hpath using Relation.ReflTransGen.head_induction_on with
  | refl => cases hc.symm.trans hd
  | head hstep hrest ih =>
    rcases hsingle.cases_of_inherits hstep with hinterface | rfl | ⟨e, he, -⟩
    · exact ih hinterface
    · exact h.eq_object_of_object hrest
    · cases (hsingle.superclass _ hc).symm.trans he

/-- Of two classes above a class that are no interfaces, one is above the other. -/
theorem Orderly.inherits_or_inherits (h : tbl.Orderly) (hsingle : tbl.SinglyInheriting)
    (hcd : Relation.ReflTransGen tbl.Inherits c d) (hcd' : Relation.ReflTransGen tbl.Inherits c d')
    (hd : (tbl.cls d).isInterface = false) (hd' : (tbl.cls d').isInterface = false) :
    Relation.ReflTransGen tbl.Inherits d d' ∨ Relation.ReflTransGen tbl.Inherits d' d := by
  -- a step up leads to the superclass, or the way ends in the root class
  have hstep {x y w : ClassId} (hxy : tbl.Inherits x y)
      (hyw : Relation.ReflTransGen tbl.Inherits y w) (hw : (tbl.cls w).isInterface = false) :
      w = tbl.core.object ∨ ∃ e, (tbl.cls x).superclass = some e ∧ tbl.rawClass e = .ok y := by
    rcases hsingle.cases_of_inherits hxy with hinterface | rfl | hsuper
    · exact .inl (h.eq_object_of_isInterface hsingle hyw hinterface hw)
    · exact .inl (h.eq_object_of_object hyw)
    · exact .inr hsuper
  induction hcd using Relation.ReflTransGen.head_induction_on with
  | refl => exact .inl hcd'
  | @head c x hcx hxd ih =>
    rcases Relation.ReflTransGen.cases_head hcd' with rfl | ⟨y, hcy, hyd'⟩
    · exact .inr (hxd.head hcx)
    · rcases hstep hcx hxd hd with rfl | ⟨e, he, hex⟩
      · exact .inr (h.reflTransGen_object d')
      · rcases hstep hcy hyd' hd' with rfl | ⟨e', he', hey⟩
        · exact .inl (h.reflTransGen_object d)
        · cases he.symm.trans he'
          cases hex.symm.trans hey
          exact ih hyd'

end SinglyInheriting

/-- The erased supertypes of a use of a class are classes that it inherits. -/
theorem Orderly.inherits_of_erasedSupertypes (h : tbl.Orderly) (hc : Ty.Uses c t)
    (hes : (tbl.erasedSupertypes n lub t : Result (List Ty)) = .ok es) :
    ∀ e ∈ es, ∃ d marks, e = .declared d [] none marks ∧
      Relation.ReflTransGen tbl.Inherits c d := by
  have hdirect (x : Ty) (xs : List Ty)
      (hx : ∃ d, Ty.Uses d x ∧ Relation.ReflTransGen tbl.Inherits c d)
      (hxs : tbl.typesAboveWith (leastUpperBoundsWith lub) n x = .ok xs) :
      ∀ y ∈ xs, ∃ d, Ty.Uses d y ∧ Relation.ReflTransGen tbl.Inherits c d := by
    obtain ⟨d, ⟨args, owner, marks, rfl⟩, hcd⟩ := hx
    rw [typesAboveWith] at hxs
    intro y hy
    obtain ⟨d', hd', hstep⟩ := h.inherits_of_declaredSupertypes hxs y hy
    exact ⟨d', hd', hcd.tail hstep⟩
  intro e he
  obtain ⟨_, ⟨d, ⟨args, owner, marks, rfl⟩, hcd⟩, hxe⟩ :=
    exists_of_erasedSupertypes hdirect ⟨c, hc, .refl⟩ hes he
  cases n with
  | zero => cases hxe
  | succ n =>
    cases (eraseWith_declared ..).symm.trans hxe
    exact ⟨d, marks, rfl, hcd⟩

/-! ### The bounds -/

theorem pairwise_of_forall₂ {β : Type} {r : α → β → Prop} {p : α → α → Prop} {q : β → β → Prop} {ys}
    (h : Forall₂ r xs ys) (hxs : xs.Pairwise p)
    (hpq : ∀ x y x' y', r x y → r x' y' → p x x' → q y y') : ys.Pairwise q := by
  induction h with
  | nil => exact .nil
  | cons hxy hrest ih =>
    obtain ⟨hhead, htail⟩ := pairwise_cons.mp hxs
    refine pairwise_cons.mpr ⟨fun y' hy' => ?_, ih htail⟩
    obtain ⟨x', hx', hxy'⟩ := exists_of_forall₂_right hrest hy'
    exact hpq _ _ x' y' hxy hxy' (hhead x' hx')

theorem perm_classFirst (ts : List Ty) : (tbl.classFirst ts).Perm ts := by
  refine (perm_append_right_iff _ |>.mpr perm_append_comm).trans ?_
  rw [append_assoc, take_append_drop]
  have hsplit := filter_append_perm tbl.isInterfaceType ts
  simpa using hsplit

/-- If of any two types one is an interface, then all but the first are. -/
theorem isInterfaceType_of_mem_tail
    (h : ts.Pairwise fun s t => tbl.isInterfaceType s = true ∨ tbl.isInterfaceType t = true) :
    ∀ t ∈ (tbl.classFirst ts).tail, tbl.isInterfaceType t = true := by
  have hclass {t : Ty} (ht : t ∈ ts.filter fun t => !tbl.isInterfaceType t) :
      tbl.isInterfaceType t = false := by simpa using (mem_filter.mp ht).2
  have hinterface (t : Ty) (ht : t ∈ ts.filter tbl.isInterfaceType) :
      tbl.isInterfaceType t = true := (mem_filter.mp ht).2
  have hpairs := List.Pairwise.filter (fun t => !tbl.isInterfaceType t) h
  rw [classFirst]
  intro t ht
  rcases hclasses : ts.filter (fun t => !tbl.isInterfaceType t) with _ | ⟨x, _ | ⟨y, rest⟩⟩
  · rw [hclasses] at ht
    exact hinterface t (by simpa using mem_of_mem_tail ht)
  · rw [hclasses] at ht
    exact hinterface t (by simpa using ht)
  · rw [hclasses] at hpairs hclass
    have hxy := (pairwise_cons.mp hpairs).1 y mem_cons_self
    rw [hclass mem_cons_self, hclass (mem_cons_of_mem x mem_cons_self)] at hxy
    simp at hxy

theorem Fills.isInterfaceType {b} (h : tbl.Fills m b) :
    tbl.isInterfaceType b = tbl.isInterfaceType m := by
  rcases h with rfl | ⟨c, -, ⟨_, _, _, rfl⟩, ⟨_, _, _, rfl⟩⟩
  · rfl
  · rfl

theorem erasesTo_self (he : e.Erased) : tbl.ErasesTo e e := by
  induction he with
  | null => exact .null
  | declared => exact .declared
  | primitives => exact .primitives
  | array _ ih => exact .array ih

/-- Filling in arguments does not change the erasure. -/
theorem Fills.exists_settles_erase {b} (h : tbl.Fills m b) (hm : m.Erased) :
    ∃ x, Settles (fun k => tbl.erase k b) x ∧ m.same x = true := by
  rcases h with rfl | ⟨c, -, ⟨args, owner, marks, rfl⟩, ⟨args', owner', marks', rfl⟩⟩
  · exact ⟨_, (erasesTo_self hm).settles_erase, Ty.same_refl _⟩
  · cases hm
    exact ⟨_, ErasesTo.declared.settles_erase, Ty.same_of_bare_eq rfl⟩

theorem exists_erasures {ms found} (hfills : Forall₂ tbl.Fills ms found)
    (hms : ∀ m ∈ ms, m.Erased) :
    ∃ es, Forall₂ (fun m x => m.same x = true) ms es ∧
      Forall₂ (fun b x => Settles (fun k => tbl.erase k b) x) found es := by
  induction hfills with
  | nil => exact ⟨[], .nil, .nil⟩
  | cons hfills _ ih =>
    obtain ⟨hm, hms⟩ := forall_mem_cons.mp hms
    obtain ⟨x, hx, hsame⟩ := hfills.exists_settles_erase hm
    obtain ⟨es, hsames, hes⟩ := ih hms
    exact ⟨x :: es, .cons hsame hsames, .cons hx hes⟩

/-- Of two minimal candidates for uses of classes, one is an interface. -/
theorem Orderly.isInterfaceType_of_minimalTypes (h : tbl.Orderly) (hsystem : tbl.SystemRooted)
    (hsingle : tbl.SinglyInheriting) {ms} (hne : types ≠ [])
    (hkinds : ∀ t ∈ types, t.kind = .declared)
    (hcs : (tbl.commonErasedSupertypes n lub types : Result (List Ty)) = .ok cs)
    (hms : tbl.minimalTypes k cs = .ok ms) {m'} (hm : m ∈ ms) (hm' : m' ∈ ms)
    (hdiffer : m.same m' = false) :
    tbl.isInterfaceType m = true ∨ tbl.isInterfaceType m' = true := by
  obtain ⟨t, types, rfl⟩ := exists_cons_of_ne_nil hne
  obtain ⟨c, hc⟩ := Ty.exists_uses (hkinds t mem_cons_self)
  obtain ⟨es, ess, hes, -, rfl⟩ := commonErasedSupertypes_eq_ok hcs
  have hclasses := h.inherits_of_erasedSupertypes hc hes
  have herased : ∀ x ∈ es.filter fun c => ess.all (c.isIn ·), x.Erased := by
    intro x hx
    obtain ⟨d, marks, rfl, -⟩ := hclasses x (mem_filter.mp hx).1
    exact .declared
  have hmem := ((mem_minimalTypes hms).mp hm).1
  have hmem' := ((mem_minimalTypes hms).mp hm').1
  obtain ⟨d, marks, rfl, hcd⟩ := hclasses m (mem_filter.mp hmem).1
  obtain ⟨d', marks', rfl, hcd'⟩ := hclasses m' (mem_filter.mp hmem').1
  by_contra hor
  simp only [isInterfaceType, not_or, Bool.not_eq_true] at hor
  rcases h.inherits_or_inherits hsingle hcd hcd' hor.1 hor.2 with hdd' | hd'd
  · have hsame := h.not_under_of_minimalTypes hsystem herased hms hm' hmem (.use hdd')
    cases hdiffer.symm.trans hsame
  · have hsame := h.not_under_of_minimalTypes hsystem herased hms hm hmem' (.use hd'd)
    cases hdiffer.symm.trans (Ty.same_symm hsame)

/-- At least two different reference types are bounded in stages. -/
theorem exists_staged {bs : List Ty} (htypes : ∀ t ∈ types, Referential captures t)
    (hseparate : Ty.Separate types) (htwo : 2 ≤ types.length)
    (h : (tbl.leastUpperBounds n types : Result (List Ty)) = .ok bs) :
    ∃ k, tbl.Staged k (tbl.lub k) types bs := by
  rcases types with _ | ⟨s, _ | ⟨t, rest⟩⟩
  · cases htwo
  · simp at htwo
  have hfind : (s :: t :: rest).find? Ty.isPseudo = none :=
    List.find?_eq_none.mpr fun x hx => by simp [(htypes x hx).isPseudo]
  have hfilter : (s :: t :: rest).filter (fun x => !x.isNull) = s :: t :: rest :=
    filter_eq_self.mpr fun x hx => by simp [(htypes x hx).isNull]
  unfold leastUpperBounds leastUpperBoundsWith at h
  simp only [hfind, Ty.distinct_eq_self hseparate] at h
  cases n with
  | zero => cases h
  | succ k => exact ⟨k, staged_of_lubStep hfilter h⟩

/-- The erasures of the least upper bounds of at least two different reference types are, without
repetition, the minimal common erased supertypes of the types. Hence there is one, none is below
another, and each common erased supertype lies above one. For uses of classes that inherit from one
class only, all bounds but the first are interfaces. -/
theorem Orderly.leastUpperBounds_minimal (h : tbl.Orderly) (hsystem : tbl.SystemRooted)
    (hbounds : tbl.BoundedByReferences captures) {types bs : List Ty}
    (htypes : ∀ t ∈ types, Referential captures t) (hseparate : Ty.Separate types)
    (htwo : 2 ≤ types.length) (hbs : (tbl.leastUpperBounds n types : Result (List Ty)) = .ok bs) :
    ∃ es, Forall₂ (fun b x => Settles (fun k => tbl.erase k b) x) bs es ∧ Ty.Separate es ∧
      (∀ e, tbl.MinimalCommon types e ↔ ∃ x ∈ es, x.same e = true) ∧ es ≠ [] ∧
      (∀ x ∈ es, ∀ y ∈ es, x.same y = true ∨ Settles (fun k => tbl.isSubtype k x y) false) ∧
      (∀ e, tbl.Common types e → ∃ x ∈ es, Settles (fun k => tbl.isSubtype k x e) true) ∧
      (tbl.SinglyInheriting → (∀ t ∈ types, t.kind = .declared) →
        ∀ b ∈ bs.tail, tbl.isInterfaceType b = true) := by
  obtain ⟨k, cs, ms, found, hcs, hms, hfills, rfl⟩ := exists_staged htypes hseparate htwo hbs
  have hnonempty : types ≠ [] := by
    rintro rfl
    cases htwo
  have hcommon (e : Ty) := common_iff (e := e) hnonempty hcs
  obtain ⟨herased, c, hc, hobject⟩ :=
    h.erased_of_commonErasedSupertypes hbounds hnonempty htypes hcs
  have hmem {m : Ty} (hm : m ∈ ms) : m ∈ cs := ((mem_minimalTypes hms).mp hm).1
  have hseparated : Ty.Separate ms := by
    obtain ⟨g, -, rfl⟩ := filterM_eq_ok hms
    exact (separate_of_commonErasedSupertypes hcs).filter g
  obtain ⟨xs, hxs, hfound⟩ := exists_erasures hfills fun m hm => herased m (hmem hm)
  obtain ⟨es, hes, hperm⟩ := perm_comp_forall₂ (tbl.perm_classFirst found) hfound
  have hleft {m : Ty} (hm : m ∈ ms) : ∃ x ∈ es, m.same x = true := by
    obtain ⟨x, hx, hmx⟩ := exists_of_forall₂_left hxs hm
    exact ⟨x, hperm.mem_iff.mpr hx, hmx⟩
  have hright {x : Ty} (hx : x ∈ es) : ∃ m ∈ ms, m.same x = true :=
    exists_of_forall₂_right hxs (hperm.mem_iff.mp hx)
  have herased' {x : Ty} (hx : x ∈ es) : x.Erased := by
    obtain ⟨m, hm, hmx⟩ := hright hx
    exact erased_of_same (herased m (hmem hm)) hmx
  have habove (e : Ty) (he : tbl.Common types e) :
      ∃ x ∈ es, Settles (fun k => tbl.isSubtype k x e) true := by
    obtain ⟨o, ho, hoe⟩ := (hcommon e).mp he
    obtain ⟨m, hm, hmo⟩ := h.exists_mem_minimalTypes hsystem herased hms ho
    obtain ⟨x, hx, hmx⟩ := hleft hm
    obtain ⟨b, hb, hunder⟩ :=
      h.settles_isSubtype_erased hsystem (herased' hx) (erased_of_same (herased o ho) hoe)
    obtain rfl := hunder.mp (hmo.congr hsystem.toArraysRooted (herased' hx) (Ty.same_symm hmx)
      (Ty.same_symm hoe))
    exact ⟨x, hx, hb⟩
  refine ⟨es, hes, ?_, fun e => ?_, ?_, fun x hx y hy => ?_, habove, fun hsingle hkinds => ?_⟩
  · refine (hperm.pairwise_iff fun hst => Ty.same_eq_false_symm hst).mpr ?_
    refine pairwise_of_forall₂ hxs hseparated fun m x m' x' hmx hmx' hne => ?_
    refine Bool.eq_false_iff.mpr fun hxx' => Bool.eq_false_iff.mp hne ?_
    exact Ty.same_trans (Ty.same_trans hmx hxx') (Ty.same_symm hmx')
  · rw [h.minimalCommon_iff hsystem herased hms hcommon]
    constructor
    · rintro ⟨m, hm, hme⟩
      obtain ⟨x, hx, hmx⟩ := hleft hm
      exact ⟨x, hx, Ty.same_trans (Ty.same_symm hmx) hme⟩
    · rintro ⟨x, hx, hxe⟩
      obtain ⟨m, hm, hmx⟩ := hright hx
      exact ⟨m, hm, Ty.same_trans hmx hxe⟩
  · rintro rfl
    obtain ⟨x, hx, -⟩ := habove _ ((hcommon _).mpr ⟨c, hc, hobject⟩)
    cases hx
  · obtain ⟨m, hm, hmx⟩ := hright hx
    obtain ⟨m', hm', hmy⟩ := hright hy
    by_cases hunder : tbl.Under m m'
    · have hsame := h.not_under_of_minimalTypes hsystem herased hms hm' (hmem hm) hunder
      exact .inl (Ty.same_trans (Ty.same_trans (Ty.same_symm hmx) hsame) hmy)
    · refine .inr (h.settles_isSubtype_false hsystem (herased' hx) (herased' hy)
        fun hxy => hunder ?_)
      exact hxy.congr hsystem.toArraysRooted (herased m (hmem hm)) hmx hmy
  · have hor : ms.Pairwise fun m m' =>
        tbl.isInterfaceType m = true ∨ tbl.isInterfaceType m' = true :=
      hseparated.imp_of_mem fun hm hm' hne =>
        h.isInterfaceType_of_minimalTypes hsystem hsingle hnonempty hkinds hcs hms hm hm' hne
    refine isInterfaceType_of_mem_tail (pairwise_of_forall₂ hfills hor
      fun m b m' b' hb hb' hor => ?_)
    rwa [hb.isInterfaceType, hb'.isInterfaceType]

/-! ### Tests -/

/-- What holds of the classes of a table, and where there is none, holds of all. -/
theorem forall_cls {p : ClassId → Prop} (h : ∀ i < tbl.classes.size, p ⟨i⟩)
    (hdefault : ∀ c, tbl.cls c = default → p c) (c : ClassId) : p c := by
  by_cases hsize : c.index < tbl.classes.size
  · exact h c.index hsize
  · exact hdefault c (cls_eq_default (Nat.le_of_not_lt hsize))

theorem ArraysRooted.systemRooted (h : tbl.ArraysRooted)
    (hunique : ∀ i < tbl.classes.size, tbl.isArraySupertype ⟨i⟩ = true → ⟨i⟩ ∈ tbl.arrayClasses)
    (hstandIns : ∀ i < tbl.classes.size, (tbl.cls ⟨i⟩).isPrimitive = true →
      (tbl.supertypeExprs ⟨i⟩).isEmpty = true) : tbl.SystemRooted := by
  refine ⟨h, forall_cls hunique fun c hc hname => ?_, fun c hc => ?_⟩
  · rw [Table.isArraySupertype, hc] at hname
    cases hname
  · refine List.isEmpty_iff.mp (forall_cls (p := fun c => (tbl.cls c).isPrimitive = true →
      (tbl.supertypeExprs c).isEmpty = true) hstandIns (fun c hc hprimitive => ?_) c hc)
    rw [hc] at hprimitive
    cases hprimitive

/-- Whether only interfaces are named where interfaces are listed, and interfaces have no
superclass. -/
def inheritsSingly (tbl : Table) : Bool :=
  (List.range tbl.classes.size).all fun i =>
    (!(tbl.cls ⟨i⟩).isInterface || (tbl.cls ⟨i⟩).superclass.isNone) &&
      (tbl.cls ⟨i⟩).interfaces.all fun e =>
        match tbl.rawClass e with
        | .ok d => (tbl.cls d).isInterface
        | .error _ => true

theorem singlyInheriting_of_inheritsSingly (h : tbl.inheritsSingly = true) :
    tbl.SinglyInheriting := by
  have hall (c : ClassId) := forall_cls (p := fun c =>
    ((!(tbl.cls c).isInterface || (tbl.cls c).superclass.isNone) &&
      (tbl.cls c).interfaces.all fun e =>
        match tbl.rawClass e with
        | .ok d => (tbl.cls d).isInterface
        | .error _ => true) = true)
    (fun i (hi : i < tbl.classes.size) => all_eq_true.mp h i (mem_range.mpr hi))
    (fun c hc => by rw [hc]; rfl) c
  constructor
  · intro c e he d hd
    have htest := all_eq_true.mp (Bool.and_eq_true_iff.mp (hall c)).2 e he
    rw [hd] at htest
    exact htest
  · intro c hc
    have htest := (Bool.and_eq_true_iff.mp (hall c)).1
    rw [hc, Bool.not_true, Bool.false_or] at htest
    exact Option.isNone_iff_eq_none.mp htest

theorem boundedByReferences_of_testBounds
    (h : tbl.testBounds (fun _ ts => decide (∀ t ∈ ts, t.kind = .declared)) = true) :
    tbl.BoundedByReferences captures := by
  intro v ts hts t ht
  obtain ⟨us, hus, hall⟩ := exists_of_testBounds h
    (fun v => decide_eq_true (forall_mem_singleton.mpr rfl)) v
  cases hts.symm.trans hus
  obtain ⟨c, args, owner, marks, rfl⟩ := Ty.exists_eq_declared (of_decide_eq_true hall t ht)
  exact .use

/-- The use of a class without arguments. -/
def bareClass (i : Nat) : Ty :=
  .declared ⟨i⟩ [] none []

/-- Two classes with a common superclass, a common interface, and uses of a generic interface by
themselves. -/
def siblings : Table where
  classes := #[
    { name := "java.lang.Object", simpleName := "Object", kind := .cls },
    { name := "p.I", simpleName := "I", kind := .interface },
    { name := "p.K", simpleName := "K", kind := .interface, typeParameters := [{ name := "T" }] },
    { name := "p.P", simpleName := "P", kind := .cls },
    { name := "p.A", simpleName := "A", kind := .cls, superclass := some (.named ⟨3⟩ []),
      interfaces := [.named ⟨1⟩ [], .applied ⟨2⟩ [.named ⟨4⟩ []] none []] },
    { name := "p.B", simpleName := "B", kind := .cls, superclass := some (.named ⟨3⟩ []),
      interfaces := [.applied ⟨2⟩ [.named ⟨5⟩ []] none [], .named ⟨1⟩ []] }]

set_option maxRecDepth 20000 in
/-- The bounds of the two classes. The argument of the generic interface comes from the same
question, which is answered by the root class. -/
theorem Orderly.leastUpperBounds_minimal_siblings :
    let types := [bareClass 4, bareClass 5]
    let bs := [bareClass 3, bareClass 1, .declared ⟨2⟩ [.wildcard 0 (bareClass 0) .null []] none []]
    (siblings.Orderly ∧ siblings.SystemRooted ∧ siblings.BoundedByReferences (fun _ => .null) ∧
      (∀ t ∈ types, Referential (fun _ => .null) t) ∧ Ty.Separate types ∧ 2 ≤ types.length ∧
      (siblings.leastUpperBounds 5 types : Result (List Ty)) = .ok bs ∧ siblings.SinglyInheriting) ∧
      ∃ es, Forall₂ (fun b x => Settles (fun k => siblings.erase k b) x) bs es ∧
        Ty.Separate es ∧ (∀ e, siblings.MinimalCommon types e ↔ ∃ x ∈ es, x.same e = true) ∧
        es ≠ [] ∧
        (∀ x ∈ es, ∀ y ∈ es, x.same y = true ∨ Settles (fun k => siblings.isSubtype k x y) false) ∧
        (∀ e, siblings.Common types e →
          ∃ x ∈ es, Settles (fun k => siblings.isSubtype k x e) true) ∧
        (siblings.SinglyInheriting → (∀ t ∈ types, t.kind = .declared) →
          ∀ b ∈ bs.tail, siblings.isInterfaceType b = true) := by
  have hbs : (siblings.leastUpperBounds 5 [bareClass 4, bareClass 5] : Result (List Ty)) =
      .ok [bareClass 3, bareClass 1,
        .declared ⟨2⟩ [.wildcard 0 (bareClass 0) .null []] none []] := by
    rfl
  intro types bs
  have horderly : siblings.Orderly := orderly_of_isLayered (by rfl) (by rfl) (by rfl)
  have hsystem : siblings.SystemRooted :=
    ArraysRooted.systemRooted ⟨by decide, by decide, by decide⟩ (by decide) (by decide)
  have hbounds : siblings.BoundedByReferences (fun _ => .null) :=
    boundedByReferences_of_testBounds (by rfl)
  have htypes : ∀ t ∈ types, Referential (fun _ => .null) t :=
    forall_mem_cons.mpr ⟨.use, forall_mem_singleton.mpr .use⟩
  have hseparate : Ty.Separate types :=
    .cons (forall_mem_singleton.mpr rfl) (pairwise_singleton _ _)
  exact ⟨⟨horderly, hsystem, hbounds, htypes, hseparate, le_rfl, hbs,
    singlyInheriting_of_inheritsSingly (by rfl)⟩,
    horderly.leastUpperBounds_minimal hsystem hbounds htypes hseparate le_rfl hbs⟩

/-- Classes that name classes as their interfaces, and one that names a primitive type as its
superclass. -/
def misnamed : Table where
  classes := #[
    { name := "java.lang.Object", simpleName := "Object", kind := .cls },
    { name := "p.A", simpleName := "A", kind := .cls },
    { name := "p.B", simpleName := "B", kind := .cls },
    { name := "p.C", simpleName := "C", kind := .cls,
      interfaces := [.named ⟨1⟩ [], .named ⟨2⟩ []] },
    { name := "p.D", simpleName := "D", kind := .cls,
      interfaces := [.named ⟨1⟩ [], .named ⟨2⟩ []] },
    { name := "int", simpleName := "int", kind := .primitive },
    { name := "p.E", simpleName := "E", kind := .cls, superclass := some (.named ⟨5⟩ []) }]

set_option maxRecDepth 20000 in
/-- All conditions matter. Classes that are listed as interfaces may be bounds together. An
intersection of primitive types, and a class that names a primitive type as its superclass, may have
no bound in common with a class. -/
theorem leastUpperBounds_not_minimal :
    (WellFounded fun d c => misnamed.Extends c d) ∧ (∀ c, ∃ ds, misnamed.rawSupertypes c = .ok ds) ∧
      ((misnamed.leastUpperBounds 5 [bareClass 3, bareClass 4] : Result (List Ty)) =
          .ok [bareClass 1, bareClass 2] ∧
        misnamed.isInterfaceType (bareClass 1) = false ∧
        misnamed.isInterfaceType (bareClass 2) = false) ∧
      (misnamed.leastUpperBounds 7 [.intersection 0 [.primitive .int [], .primitive .long []],
        bareClass 1] : Result (List Ty)) = .ok [] ∧
      (misnamed.leastUpperBounds 7 [bareClass 6, bareClass 1] : Result (List Ty)) = .ok [] := by
  have hlayered : misnamed.isLayered = true := by rfl
  exact ⟨acyclic_of_isLayered hlayered, exists_rawSupertypes_of_isLayered hlayered,
    ⟨by rfl, rfl, rfl⟩, by rfl, by rfl⟩

end Table

end NominalTypes
