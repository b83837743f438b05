import NominalTypes.Proofs.Erasure

/-!
# Types are below their erasures

Whether a type is below an erased type does not depend on arguments and owners, but only on classes
and on what is above arrays. `Table.Under` says when it is. What is directly above a type has no
more erased types above it than the type itself, and a least upper bound has no more than each of
the types that it bounds: it uses the class of a candidate that was found among the erased
supertypes of all. Hence a type is under its erasure, and so it is by the check.
-/

namespace NominalTypes

open List

variable {marks : List ClassId} {d c : ClassId} {owner : Option Ty} {ts types : List Ty}
  {lub : List Ty → Result (List Ty)}

namespace Table

/-- The classes above all arrays. -/
def arrayClasses (tbl : Table) : List ClassId :=
  [tbl.core.object, tbl.core.cloneable, tbl.core.serializable]

/-- The classes above all arrays are known by their names, and there is nothing above them but the
root class. -/
structure ArraysRooted (tbl : Table) : Prop where
  isArraySupertype : ∀ c ∈ tbl.arrayClasses, tbl.isArraySupertype c = true
  supertypeExprs : ∀ c ∈ tbl.arrayClasses, tbl.supertypeExprs c = []
  isPrimitive : ∀ c ∈ tbl.arrayClasses, (tbl.cls c).isPrimitive = false

/-- The first type is below the second, which is erased. -/
inductive Under (tbl : Table) : Ty → Ty → Prop
  | null {e} (he : e.Erased) : Under tbl .null e
  | use {c d args owner marks marks'} (h : Relation.ReflTransGen tbl.Inherits c d) :
    Under tbl (.declared c args owner marks) (.declared d [] none marks')
  | primitives {p ms ms' marks marks'} :
    Under tbl (.array (.primitive p ms) marks) (.array (.primitive p ms') marks')
  | component {t e marks marks'} (he : e.Erased) (h : Under tbl t e) :
    Under tbl (.array t marks) (.array e marks')
  | array {t d marks marks'} (hd : d ∈ tbl.arrayClasses) :
    Under tbl (.array t marks) (.declared d [] none marks')
  | bound {n v u e marks} (hu : tbl.upperBound v = .ok u) (h : Under tbl u e) :
    Under tbl (.var n v marks) e
  | capturedUpper {token site upper lower e marks} (h : Under tbl upper e) :
    Under tbl (.captured token site upper lower marks) e
  | wildcardUpper {n upper lower e marks} (h : Under tbl upper e) :
    Under tbl (.wildcard n upper lower marks) e
  | member {n bounds b e} (hb : b ∈ bounds) (h : Under tbl b e) :
    Under tbl (.intersection n bounds) e
  | alternatives {n alternatives e} (he : e.Erased) (h : ∀ a ∈ alternatives, Under tbl a e) :
    Under tbl (.union n alternatives) e

/-- The type is built from uses of classes, type and captured variables, wildcards, intersections,
unions, the null type and arrays, and going up the bounds of variables comes to an end. A captured
variable is known by its token. -/
inductive Founded (tbl : Table) (captures : Nat → Ty) : Ty → Prop
  | null : Founded tbl captures .null
  | use {c args owner marks} (hc : (tbl.cls c).isPrimitive = false) :
    Founded tbl captures (.declared c args owner marks)
  | primitives {p ms marks} : Founded tbl captures (.array (.primitive p ms) marks)
  | array {t marks} (h : Founded tbl captures t) : Founded tbl captures (.array t marks)
  | var {n v u marks} (hu : tbl.upperBound v = .ok u) (h : Founded tbl captures u) :
    Founded tbl captures (.var n v marks)
  | captured {token site upper lower marks}
    (htoken : (Ty.captured token site upper lower marks).Tokened captures)
    (h : Founded tbl captures upper) : Founded tbl captures (.captured token site upper lower marks)
  | wildcard {n upper lower marks} (h : Founded tbl captures upper) :
    Founded tbl captures (.wildcard n upper lower marks)
  | intersection {n bounds} (h : ∀ b ∈ bounds, Founded tbl captures b) :
    Founded tbl captures (.intersection n bounds)
  | union {n alternatives} (h : ∀ a ∈ alternatives, Founded tbl captures a) :
    Founded tbl captures (.union n alternatives)

variable {tbl : Table} {captures : Nat → Ty} {n k : Nat} {s t e e' : Ty}

/-! ### The relation -/

theorem Under.erased (h : tbl.Under t e) : e.Erased := by
  induction h with
  | null he => exact he
  | use | array => exact .declared
  | primitives => exact .primitives
  | component he => exact .array he
  | bound _ _ ih => exact ih
  | capturedUpper _ ih => exact ih
  | wildcardUpper _ ih => exact ih
  | member _ _ ih => exact ih
  | alternatives he => exact he

theorem Under.isPrimitive (h : tbl.Under t e) : t.isPrimitive = false := by
  cases h <;> rfl

theorem Founded.isPrimitive (h : tbl.Founded captures t) : t.isPrimitive = false := by
  cases h <;> rfl

theorem Founded.isPseudo (h : tbl.Founded captures t) : t.isPseudo = false := by
  cases h <;> rfl

theorem Founded.component (h : tbl.Founded captures (.array t marks)) (ht : t.isPrimitive = false) :
    tbl.Founded captures t := by
  cases h with
  | primitives => cases ht
  | array h => exact h

/-- Equal types are under the same erased types. -/
theorem Under.of_same (h : tbl.Under s e) (hs : tbl.Founded captures s)
    (ht : tbl.Founded captures t) (hst : s.same t = true) : tbl.Under t e := by
  induction h generalizing t with
  | null he =>
    cases t with
    | null => exact .null he
    | _ => cases hst
  | use h =>
    obtain ⟨_, _, _, rfl, -, -⟩ := Ty.exists_eq_declared_of_same hst
    exact .use h
  | @primitives p =>
    cases t with
    | array t marks =>
      cases t with
      | primitive q ms =>
        obtain rfl : p = q := beq_iff_eq.mp hst
        exact .primitives
      | _ => cases hst
    | _ => cases hst
  | @component s e _ _ he h ih =>
    cases t with
    | array t marks =>
      replace hst : s.same t = true := hst
      have hprimitive : t.isPrimitive = false :=
        (Ty.isPrimitive_of_kind_eq (Ty.kind_eq_of_same hst)).symm.trans h.isPrimitive
      exact .component he (ih (hs.component h.isPrimitive) (ht.component hprimitive) hst)
    | _ => cases hst
  | array hd =>
    cases t with
    | array t marks => exact .array hd
    | _ => cases hst
  | @bound n v u _ _ hu h ih =>
    cases t with
    | var m w marks =>
      obtain rfl : v = w := beq_iff_eq.mp hst
      exact .bound hu h
    | _ => cases hst
  | @capturedUpper token site upper lower _ marks h ih =>
    cases t with
    | captured token' site' upper' lower' marks' =>
      obtain rfl : token = token' := beq_iff_eq.mp hst
      cases hs with
      | captured htoken hupper =>
        cases ht with
        | captured htoken' hupper' =>
          have hbare := (htoken _ _ _ _ _ rfl).trans (htoken' _ _ _ _ _ rfl).symm
          simp only [Ty.bare, Ty.captured.injEq, true_and] at hbare
          exact .capturedUpper (ih hupper hupper' (Ty.same_of_bare_eq hbare.1))
    | _ => cases hst
  | @wildcardUpper _ upper lower _ _ h ih =>
    cases t with
    | wildcard _ upper' lower' _ =>
      rw [Ty.same, Bool.and_eq_true] at hst
      cases hs with
      | wildcard hs =>
        cases ht with
        | wildcard ht => exact .wildcardUpper (ih hs ht hst.1)
    | _ => cases hst
  | @member _ bounds b _ hb h ih =>
    cases t with
    | intersection _ bounds' =>
      obtain ⟨b', hb', hsame⟩ := exists_of_forall₂_left (Ty.forall₂_of_sameAll hst) hb
      cases hs with
      | intersection hs =>
        cases ht with
        | intersection ht => exact .member hb' (ih (hs b hb) (ht b' hb') hsame)
    | _ => cases hst
  | @alternatives _ as _ he h ih =>
    cases t with
    | union _ as' =>
      cases hs with
      | union hs =>
        cases ht with
        | union ht =>
          refine .alternatives he fun a' ha' => ?_
          obtain ⟨a, ha, hsame⟩ := exists_of_forall₂_right (Ty.forall₂_of_sameAll hst) ha'
          exact ih a ha (hs a ha) (ht a' ha') hsame
    | _ => cases hst

theorem erased_of_same (he : e.Erased) (h : e.same e' = true) : e'.Erased := by
  induction he generalizing e' with
  | null =>
    cases e' with
    | null => exact .null
    | _ => cases h
  | declared =>
    obtain ⟨args, owner, _, rfl, hargs, howner⟩ := Ty.exists_eq_declared_of_same h
    cases args with
    | nil =>
      cases owner with
      | none => exact .declared
      | some o => cases howner
    | cons a args => cases hargs
  | primitives =>
    cases e' with
    | array e' marks =>
      cases e' with
      | primitive => exact .primitives
      | _ => cases h
    | _ => cases h
  | array _ ih =>
    cases e' with
    | array e' marks => exact .array (ih h)
    | _ => cases h

theorem uses_of_same (h : s.same t = true) (hs : Ty.Uses d s) : Ty.Uses d t := by
  obtain ⟨_, _, _, rfl⟩ := hs
  obtain ⟨args, owner, marks, rfl, -⟩ := Ty.exists_eq_declared_of_same h
  exact ⟨args, owner, marks, rfl⟩

theorem Under.of_same_right (h : tbl.Under t e) (hsame : e.same e' = true) : tbl.Under t e' := by
  have he' := erased_of_same h.erased hsame
  induction h generalizing e' with
  | null => exact .null he'
  | use h =>
    cases he' with
    | declared =>
      obtain ⟨_, _, _, heq, -⟩ := Ty.exists_eq_declared_of_same hsame
      cases heq
      exact .use h
    | _ => cases hsame
  | @primitives p =>
    cases he' with
    | @primitives q =>
      obtain rfl : p = q := beq_iff_eq.mp hsame
      exact .primitives
    | @array e' _ he' => cases he' <;> cases hsame
    | _ => cases hsame
  | @component _ e _ _ he₁ _ ih =>
    cases he' with
    | primitives => cases he₁ <;> cases hsame
    | array he' => exact .component he' (ih hsame he')
    | _ => cases hsame
  | array hd =>
    cases he' with
    | declared =>
      obtain ⟨_, _, _, heq, -⟩ := Ty.exists_eq_declared_of_same hsame
      cases heq
      exact .array hd
    | _ => cases hsame
  | bound hu _ ih => exact .bound hu (ih hsame he')
  | capturedUpper _ ih => exact .capturedUpper (ih hsame he')
  | wildcardUpper _ ih => exact .wildcardUpper (ih hsame he')
  | member hb _ ih => exact .member hb (ih hsame he')
  | alternatives _ _ ih => exact .alternatives he' fun a ha => ih a ha hsame he'

theorem ArraysRooted.mem_of_inherits (h : tbl.ArraysRooted) (hc : c ∈ tbl.arrayClasses)
    (hpath : Relation.ReflTransGen tbl.Inherits c d) :
    d ∈ tbl.arrayClasses := by
  induction hpath with
  | refl => exact hc
  | tail _ hstep ih =>
    rcases hstep with hextends | ⟨-, -, rfl⟩
    · exact absurd hextends (not_extends_of_nil (h.supertypeExprs _ ih) _)
    · exact mem_cons_self

/-- The erased types above an erased type are above all that is under it. -/
theorem Under.trans (harrays : tbl.ArraysRooted) (h : tbl.Under t e) (h' : tbl.Under e e') :
    tbl.Under t e' := by
  induction h generalizing e' with
  | null => exact .null h'.erased
  | use h =>
    cases h' with
    | use h₂ => exact .use (h.trans h₂)
  | primitives =>
    cases h' with
    | primitives => exact .primitives
    | component _ h₂ => cases h₂
    | array hd => exact .array hd
  | component he₁ _ ih =>
    cases h' with
    | primitives => cases he₁
    | component he₂ h₂ => exact .component he₂ (ih h₂)
    | array hd => exact .array hd
  | array hd =>
    cases h' with
    | use h₂ => exact .array (harrays.mem_of_inherits hd h₂)
  | bound hu _ ih => exact .bound hu (ih h')
  | capturedUpper _ ih => exact .capturedUpper (ih h')
  | wildcardUpper _ ih => exact .wildcardUpper (ih h')
  | member hb _ ih => exact .member hb (ih h')
  | alternatives _ _ ih => exact .alternatives h'.erased fun a ha => ih a ha h'

/-! ### Types above -/

theorem Orderly.inherits_of_declaredSupertypes (h : tbl.Orderly) {args}
    (hts : tbl.declaredSupertypes n c args owner = .ok ts) :
    ∀ s ∈ ts, ∃ d, Ty.Uses d s ∧ tbl.Inherits c d := by
  intro s hs
  by_cases hexprs : tbl.supertypeExprs c = []
  · rw [declaredSupertypes_of_nil hexprs] at hts
    cases hts
    split at hs
    · cases hs
    · rename_i hname
      rw [mem_singleton.mp hs]
      refine ⟨tbl.core.object, ⟨_, _, _, rfl⟩, .inr ⟨hexprs, ?_, rfl⟩⟩
      rintro rfl
      exact hname h.rooted.name
  · obtain ⟨ps, hps, hdenoted⟩ := h.exists_patterns c
    obtain ⟨ds, hds, hraw⟩ := h.forall₂_rawSupertypes hps
    obtain ⟨p, hp, hinherited⟩ := exists_of_forall₂_right (forall₂_inherited hexprs hps hts) hs
    obtain ⟨d, hd, hdp, -⟩ := exists_of_forall₂_right hraw hp
    exact ⟨d, hinherited.uses hdp, .inl ⟨ds, hds, hd⟩⟩

/-- The bounds that the computation finds have no more erased types above them than each of the
types that they bound. -/
def Covers (tbl : Table) (captures : Nat → Ty) (lub : List Ty → Result (List Ty)) : Prop :=
  ∀ types bs, (∀ t ∈ types, tbl.Founded captures t) → lub types = .ok bs → ∀ b ∈ bs,
    tbl.Founded captures b ∧ ∀ t ∈ types, ∀ e, tbl.Under b e → tbl.Under t e

theorem under_of_arrayRoots (harrays : tbl.ArraysRooted) (hs : s ∈ tbl.arrayRoots) :
    tbl.Founded captures s ∧ ∀ e, tbl.Under s e → tbl.Under (.array t marks) e := by
  obtain ⟨c, hc, rfl⟩ := mem_map.mp hs
  refine ⟨.use (harrays.isPrimitive c hc), fun e he => ?_⟩
  cases he with
  | use h => exact .array (harrays.mem_of_inherits hc h)

theorem founded_orUpper (h : tbl.Founded captures t) : tbl.Founded captures t.orUpper := by
  cases h with
  | wildcard h => exact h
  | null => exact .null
  | use h => exact .use h
  | primitives => exact .primitives
  | array h => exact .array h
  | var hu h => exact .var hu h
  | captured htoken h => exact .captured htoken h
  | intersection h => exact .intersection h
  | union h => exact .union h

theorem under_of_orUpper (h : tbl.Under t.orUpper e) : tbl.Under t e := by
  cases t with
  | wildcard => exact .wildcardUpper h
  | _ => exact h

theorem upperBound_cases {v u} (hts : tbl.boundsOf v = .ok ts) (hu : tbl.upperBound v = .ok u) :
    ts = [u] ∨ u = .intersection 0 ts := by
  obtain ⟨ts', hts', hu⟩ := bind_eq_ok.mp hu
  cases hts.symm.trans hts'
  split at hu
  · cases hu
    exact .inl rfl
  · exact .inr (makeIntersection_eq_ok hu).1

/-- A type is under all erased types that a type directly above it is under. -/
theorem Orderly.under_of_typesAboveWith (h : tbl.Orderly) (harrays : tbl.ArraysRooted)
    (hlub : tbl.Covers captures lub) (ht : tbl.Founded captures t)
    (hts : tbl.typesAboveWith lub n t = .ok ts) :
    ∀ s ∈ ts, tbl.Founded captures s ∧ ∀ e, tbl.Under s e → tbl.Under t e := by
  induction ht generalizing ts with
  | null =>
    cases hts
    simp
  | use hc =>
    intro s hs
    obtain ⟨d, ⟨args, owner, marks, rfl⟩, hd⟩ := h.inherits_of_declaredSupertypes hts s hs
    refine ⟨.use (h.isPrimitive_of_inherits hd), fun e he => ?_⟩
    cases he with
    | use h₂ => exact .use (.head hd h₂)
  | primitives =>
    cases hts
    exact fun s hs => under_of_arrayRoots harrays hs
  | @array t marks ht ih =>
    rw [typesAboveWith] at hts
    split_ifs at hts
    · cases hts
      exact fun s hs => under_of_arrayRoots harrays hs
    · obtain ⟨xs, hxs, hts⟩ := bind_eq_ok.mp hts
      intro s hs
      obtain ⟨x, hx, hxs'⟩ := exists_of_forall₂_right (mapM_eq_ok.mp hts) hs
      obtain ⟨rfl, -⟩ := makeArray_eq_ok hxs'
      obtain ⟨hfounded, hunder⟩ := ih hxs x hx
      refine ⟨.array (founded_orUpper hfounded), fun e he => ?_⟩
      have hprimitive := (founded_orUpper hfounded).isPrimitive
      generalize hy : x.orUpper = y at he hprimitive
      cases he with
      | primitives => cases hprimitive
      | component he h => exact .component he (hunder _ (under_of_orUpper (hy ▸ h)))
      | array hd => exact .array hd
  | @var m v u marks hu hfounded ih =>
    intro s hs
    rcases upperBound_cases hts hu with rfl | rfl
    · rw [mem_singleton.mp hs]
      exact ⟨hfounded, fun e => .bound hu⟩
    · cases hfounded with
      | intersection hbounds => exact ⟨hbounds s hs, fun e he => .bound hu (.member hs he)⟩
  | captured htoken hupper ih =>
    cases hts
    intro s hs
    rw [mem_singleton.mp hs]
    exact ⟨hupper, fun e => .capturedUpper⟩
  | wildcard hupper ih =>
    cases hts
    intro s hs
    rw [mem_singleton.mp hs]
    exact ⟨hupper, fun e => .wildcardUpper⟩
  | intersection hbounds ih =>
    cases hts
    exact fun s hs => ⟨hbounds s hs, fun e => .member hs⟩
  | @union m alternatives halternatives ih =>
    obtain ⟨bs, hbs, hts⟩ := bind_eq_ok.mp hts
    have hcovers := hlub _ _ halternatives hbs
    have hbound (b : Ty) (hb : b ∈ bs) (e : Ty) (he : tbl.Under b e) :
        tbl.Under (.union m alternatives) e :=
      .alternatives he.erased fun a ha => (hcovers b hb).2 a ha e he
    intro s hs
    split at hts
    · cases hts
      cases hs
    · cases hts
      exact ⟨(hcovers s hs).1, hbound s hs⟩
    · obtain ⟨x, hx, hts⟩ := bind_eq_ok.mp hts
      cases hts
      rw [mem_singleton.mp hs, (makeIntersection_eq_ok hx).1]
      refine ⟨.intersection fun b hb => (hcovers b hb).1, fun e he => ?_⟩
      cases he with
      | member hb h => exact hbound _ hb e h

/-- A type is under its erasure. -/
theorem under_of_eraseWith (hlub : tbl.Covers captures lub) (ht : tbl.Founded captures t)
    (he : tbl.eraseWith lub k t = .ok e) :
    e.Erased ∧ tbl.Founded captures e ∧ tbl.Under t e := by
  induction k generalizing t e with
  | zero => cases he
  | succ k ih =>
    cases ht with
    | null =>
      cases he
      exact ⟨.null, .null, .null .null⟩
    | @use c args owner marks hc =>
      cases (eraseWith_declared ..).symm.trans he
      exact ⟨.declared, .use hc, .use .refl⟩
    | primitives =>
      obtain ⟨x, hx, he⟩ := bind_eq_ok.mp he
      cases he
      cases k with
      | zero => cases hx
      | succ k =>
        cases hx
        exact ⟨.primitives, .primitives, .primitives⟩
    | array ht =>
      obtain ⟨x, hx, he⟩ := bind_eq_ok.mp he
      cases he
      obtain ⟨herased, hfounded, hunder⟩ := ih ht hx
      exact ⟨.array herased, .array hfounded, .component herased hunder⟩
    | var hu ht =>
      obtain ⟨u, hu', he⟩ := bind_eq_ok.mp he
      cases hu.symm.trans hu'
      obtain ⟨herased, hfounded, hunder⟩ := ih ht he
      exact ⟨herased, hfounded, .bound hu hunder⟩
    | captured _ ht =>
      obtain ⟨herased, hfounded, hunder⟩ := ih ht he
      exact ⟨herased, hfounded, .capturedUpper hunder⟩
    | wildcard ht =>
      obtain ⟨herased, hfounded, hunder⟩ := ih ht he
      exact ⟨herased, hfounded, .wildcardUpper hunder⟩
    | @intersection _ bounds ht =>
      cases bounds with
      | nil => cases he
      | cons b bounds =>
        obtain ⟨herased, hfounded, hunder⟩ := ih (ht b mem_cons_self) he
        exact ⟨herased, hfounded, .member mem_cons_self hunder⟩
    | @union _ alternatives ht =>
      obtain ⟨bs, hbs, he⟩ := bind_eq_ok.mp he
      cases bs with
      | nil =>
        obtain ⟨_, -, he⟩ := bind_eq_ok.mp he
        cases he
      | cons b bs =>
        obtain ⟨hb, hcovers⟩ := hlub _ _ ht hbs b mem_cons_self
        obtain ⟨herased, hfounded, hunder⟩ := ih hb he
        exact ⟨herased, hfounded, .alternatives herased fun a ha => hcovers a ha e hunder⟩

/-! ### Least upper bounds -/

theorem isIn_distinct (h : t ∈ ts) : t.isIn (Ty.distinct ts) = true := by
  induction ts using reverseRecOn with
  | nil => cases h
  | append_singleton ts x ih =>
    rw [distinct_concat]
    rcases mem_append.mp h with h | h
    · split_ifs
      · exact ih h
      · rw [Ty.isIn, any_append, Bool.or_eq_true]
        exact .inl (ih h)
    · cases mem_singleton.mp h
      split_ifs with hin
      · exact hin
      · simp [Ty.isIn, Ty.same_refl]

section Stages

variable {lub : List (List Ty) → List Ty → BoundsM Result (List Ty)}

theorem Orderly.under_of_erasedSupertypes (h : tbl.Orderly) (harrays : tbl.ArraysRooted)
    (hlub : tbl.Covers captures (leastUpperBoundsWith lub)) (ht : tbl.Founded captures t) {es}
    (hes : tbl.erasedSupertypes n lub t = .ok es) :
    ∀ e ∈ es, e.Erased ∧ tbl.Founded captures e ∧ tbl.Under t e := by
  have hdirect (x : Ty) (xs : List Ty)
      (hx : tbl.Founded captures x ∧ ∀ e, tbl.Under x e → tbl.Under t e)
      (hxs : tbl.typesAboveWith (leastUpperBoundsWith lub) n x = .ok xs) :
      ∀ y ∈ xs, tbl.Founded captures y ∧ ∀ e, tbl.Under y e → tbl.Under t e := by
    intro y hy
    obtain ⟨hfounded, hunder⟩ := h.under_of_typesAboveWith harrays hlub hx.1 hxs y hy
    exact ⟨hfounded, fun e he => hx.2 e (hunder e he)⟩
  intro e he
  obtain ⟨x, ⟨hfounded, hunder⟩, hxe⟩ :=
    exists_of_erasedSupertypes hdirect ⟨ht, fun _ => id⟩ hes he
  obtain ⟨herased, hfounded, hxe⟩ := under_of_eraseWith hlub hfounded hxe
  exact ⟨herased, hfounded, hunder e hxe⟩

/-- The erased supertypes of the first type are searched for those that each other type has. -/
theorem commonErasedSupertypes_eq_ok {cs}
    (h : (tbl.commonErasedSupertypes n lub (t :: types) : Result (List Ty)) = .ok cs) :
    ∃ es ess, (tbl.erasedSupertypes n lub t : Result (List Ty)) = .ok es ∧
      Forall₂ (fun s os => (tbl.erasedSupertypes n lub s : Result (List Ty)) = .ok os) types ess ∧
      cs = es.filter fun c => ess.all (c.isIn ·) := by
  have hfold (types kept : List Ty) (h : types.foldlM (fun kept s => do
      let others ← tbl.erasedSupertypes n lub s
      return kept.filter (·.isIn others)) kept = (.ok cs : Result (List Ty))) :
      ∃ ess, Forall₂ (fun s os => (tbl.erasedSupertypes n lub s : Result (List Ty)) = .ok os)
        types ess ∧ cs = kept.filter fun c => ess.all (c.isIn ·) := by
    induction types generalizing kept with
    | nil =>
      cases h
      exact ⟨[], .nil, by simp⟩
    | cons s types ih =>
      obtain ⟨kept', hkept, h⟩ := bind_eq_ok.mp h
      obtain ⟨os, hos, hkept⟩ := bind_eq_ok.mp hkept
      cases hkept
      obtain ⟨ess, hess, hcs⟩ := ih _ h
      refine ⟨os :: ess, .cons hos hess, hcs.trans ?_⟩
      rw [filter_filter]
      exact filter_congr fun c _ => by rw [all_cons, Bool.and_comm]
  obtain ⟨es, hes, h⟩ := bind_eq_ok.mp h
  obtain ⟨ess, hess, hcs⟩ := hfold types es h
  exact ⟨es, ess, hes, hess, hcs⟩

/-- What all the types have in common is found for one of them, and something equal for each. -/
theorem exists_erasedSupertypes {cs} (h : tbl.commonErasedSupertypes n lub types = .ok cs) {c}
    (hc : c ∈ cs) :
    (∃ t ∈ types, ∃ es, tbl.erasedSupertypes n lub t = .ok es ∧ c ∈ es) ∧
      ∀ t ∈ types, ∃ es, tbl.erasedSupertypes n lub t = .ok es ∧ ∃ e ∈ es, c.same e = true := by
  cases types with
  | nil =>
    cases h
    cases hc
  | cons t types =>
    obtain ⟨es, ess, hes, hess, rfl⟩ := commonErasedSupertypes_eq_ok h
    obtain ⟨hmem, hin⟩ := mem_filter.mp hc
    refine ⟨⟨t, mem_cons_self, es, hes, hmem⟩,
      forall_mem_cons.mpr ⟨⟨es, hes, c, hmem, Ty.same_refl c⟩, fun s hs => ?_⟩⟩
    obtain ⟨os, hos, hsos⟩ := exists_of_forall₂_left hess hs
    exact ⟨os, hsos, any_eq_true.mp (all_eq_true.mp hin os hos)⟩

theorem Fills.under {b c} (h : tbl.Fills c b) (hc : tbl.Founded captures c) :
    tbl.Founded captures b ∧ ∀ e, tbl.Under b e → tbl.Under c e := by
  rcases h with rfl | ⟨d, -, ⟨_, _, _, rfl⟩, ⟨_, _, _, rfl⟩⟩
  · exact ⟨hc, fun _ => id⟩
  · cases hc with
    | use hd =>
      refine ⟨.use hd, fun e he => ?_⟩
      cases he with
      | use h => exact .use h

/-- Bounds that fill in common erased supertypes are upper bounds up to erasure. -/
theorem Orderly.under_of_staged (h : tbl.Orderly) (harrays : tbl.ArraysRooted)
    (hlub : tbl.Covers captures (leastUpperBoundsWith lub)) {bs}
    (htypes : ∀ t ∈ types, tbl.Founded captures t) (hstaged : tbl.Staged n lub types bs) : ∀ b ∈ bs,
    tbl.Founded captures b ∧ ∀ t ∈ types, ∀ e, tbl.Under b e → tbl.Under t e := by
  obtain ⟨cs, ms, found, hcs, hms, hfills, rfl⟩ := hstaged
  intro b hb
  obtain ⟨c, hc, hcb⟩ := exists_of_forall₂_right hfills (mem_classFirst.mp hb)
  obtain ⟨⟨t, ht, es, hes, hmem⟩, hall⟩ :=
    exists_erasedSupertypes hcs ((mem_minimalTypes hms).mp hc).1
  obtain ⟨-, hfounded, -⟩ := h.under_of_erasedSupertypes harrays hlub (htypes t ht) hes c hmem
  obtain ⟨hb, hunder⟩ := hcb.under hfounded
  refine ⟨hb, fun t ht e he => ?_⟩
  obtain ⟨es, hes, x, hx, hcx⟩ := hall t ht
  obtain ⟨-, -, htx⟩ := h.under_of_erasedSupertypes harrays hlub (htypes t ht) hes x hx
  exact (htx.of_same_right (Ty.same_symm hcx)).trans harrays (hunder e he)

/-- Equal types are bounded together. -/
theorem covers_leastUpperBoundsWith
    (h : ∀ types bs, (∀ t ∈ types, tbl.Founded captures t) → (lub [] types).run' [] = .ok bs →
      ∀ b ∈ bs, tbl.Founded captures b ∧ ∀ t ∈ types, ∀ e, tbl.Under b e → tbl.Under t e) :
    tbl.Covers captures (leastUpperBoundsWith lub) := by
  intro types bs htypes hbs b hb
  have hkept (x : Ty) (hx : x ∈ Ty.distinct types) : tbl.Founded captures x :=
    htypes x (mem_of_mem_distinct hx)
  unfold leastUpperBoundsWith at hbs
  cases types with
  | nil => cases hbs
  | cons s types =>
    simp only at hbs
    split at hbs
    · cases hbs
    · split at hbs
      · rename_i x hx
        cases hbs
        rw [mem_singleton.mp hb]
        refine ⟨htypes s mem_cons_self, fun t ht e he => ?_⟩
        have hsame (y : Ty) (hy : y ∈ s :: types) : y.same x = true := by
          have hin := isIn_distinct hy
          rw [hx] at hin
          simpa [Ty.isIn] using hin
        exact he.of_same (htypes s mem_cons_self) (htypes t ht)
          (Ty.same_trans (hsame s mem_cons_self) (Ty.same_symm (hsame t ht)))
      · obtain ⟨hb, hunder⟩ := h _ bs hkept hbs b hb
        refine ⟨hb, fun t ht e he => ?_⟩
        obtain ⟨x, hx, htx⟩ := any_eq_true.mp (isIn_distinct ht)
        exact (hunder x hx e he).of_same (hkept x hx) (htypes t ht) (Ty.same_symm htx)

end Stages

/-- Least upper bounds are upper bounds up to erasure. The induction is on the number of unions that
are opened inside each other. -/
theorem Orderly.covers_leastUpperBounds (h : tbl.Orderly) (harrays : tbl.ArraysRooted) (n : Nat) :
    tbl.Covers captures (tbl.leastUpperBounds n) := by
  induction n with
  | zero =>
    refine covers_leastUpperBoundsWith fun types bs _ hbs => ?_
    cases hbs
  | succ n ih =>
    refine covers_leastUpperBoundsWith fun types bs htypes hbs => ?_
    replace hbs : (tbl.lubStep n (tbl.lub n) [] types).run' [] = (.ok bs : Result (List Ty)) := hbs
    have hmem (t : Ty) (ht : t ∈ types) :
        t = .null ∨ t ∈ types.filter fun t => !t.isNull := by
      cases t with
      | null => exact .inl rfl
      | _ => exact .inr (mem_filter.mpr ⟨ht, rfl⟩)
    rcases hfilter : types.filter fun t => !t.isNull with _ | ⟨s, _ | ⟨t, rest⟩⟩
    · unfold lubStep at hbs
      rw [hfilter] at hbs
      cases hbs
      intro b hb
      rw [mem_singleton.mp hb]
      refine ⟨.null, fun x hx e he => ?_⟩
      rcases hmem x hx with rfl | hx
      · exact he
      · rw [hfilter] at hx
        cases hx
    · unfold lubStep at hbs
      rw [hfilter] at hbs
      cases hbs
      intro b hb
      have hs : s ∈ types.filter fun t => !t.isNull := hfilter ▸ mem_cons_self
      rw [mem_singleton.mp hb]
      refine ⟨htypes s (mem_filter.mp hs).1, fun x hx e he => ?_⟩
      rcases hmem x hx with rfl | hx
      · exact .null he.erased
      · rw [hfilter] at hx
        rw [mem_singleton.mp hx]
        exact he
    · have hfounded (x : Ty) (hx : x ∈ s :: t :: rest) : tbl.Founded captures x :=
        htypes x (mem_filter.mp (hfilter ▸ hx)).1
      intro b hb
      obtain ⟨hb, hunder⟩ :=
        h.under_of_staged harrays ih hfounded (staged_of_lubStep hfilter hbs) b hb
      refine ⟨hb, fun x hx e he => ?_⟩
      rcases hmem x hx with rfl | hx
      · exact .null he.erased
      · exact hunder x (hfilter ▸ hx) e he

/-! ### The check -/

/-- All uses of classes in the type are built as the constructors build them. -/
def Constructed (t : Ty) : Prop :=
  t.Every fun x => x.kind = .declared → x.Formed

theorem constructed_of_denoted (h : t.Every tbl.Denoted) : Constructed t := by
  induction h with
  | intro top parts ih => exact .intro (formed_of_denoted (.intro top parts)) ih

/-- A use of a class, by the search for the class above it. -/
theorem Orderly.settles_checkDeclared (h : tbl.Orderly) {args}
    (hc : (tbl.cls c).isPrimitive = false) (hformed : (Ty.declared c args owner marks).Formed) :
    ∃ b, Settles (fun k => tbl.checkDeclared k (tbl.check k) .subtype (.declared c args owner marks)
      c d [] none) b ∧ (Relation.ReflTransGen tbl.Inherits c d ↔ b = true) := by
  obtain ⟨r, hr, -, hsome⟩ := h.exists_resolves (p := fun _ => True)
    (fun _ _ _ _ _ => trivial) hformed trivial d
  obtain ⟨b, hb⟩ := isSubclassOf_isOk h.exists_rawSupertypes c d
  cases b with
  | false =>
    refine ⟨false, ?_, fun hpath => ?_, nofun⟩
    · simp only [checkDeclared, hb]
      exact Settles.ok false
    · rcases Relation.reflTransGen_iff_eq_or_transGen.mp hpath with rfl | hpath
      · rw [isSubclassOf, if_pos rfl] at hb
        cases hb
      · cases hb.symm.trans (h.isSubclassOf_of_inherits hpath hc)
  | true =>
    simp only [checkDeclared, hb]
    cases r with
    | none =>
      refine ⟨false, Settles.bind (Settles.ok true) ?_, fun hpath => ?_, nofun⟩
      · simp only [if_true]
        exact Settles.bind hr.settles (Settles.ok false)
      · exact absurd rfl (hsome c ⟨_, _, _, rfl⟩ hc hpath)
    | some x =>
      obtain ⟨hreaches, hd⟩ := h.reaches_of_resolves hformed hr
      have hpath := h.inherits_of_reaches hformed hreaches ⟨_, _, _, rfl⟩ hd
      obtain ⟨args', owner', _, rfl⟩ := hd
      refine ⟨true, Settles.bind (Settles.ok true) ?_, fun _ => rfl, fun _ => hpath⟩
      refine Settles.bind hr.settles ?_
      cases args' <;> cases owner' <;> exact Settles.ok true

/-- What the check says of a type that is neither an intersection nor a union, and of an erased
type. -/
theorem settles_check_of_checkUpper {p} (hs : s.kind ≠ .intersection ∧ s.kind ≠ .union)
    (hprimitive : s.isPrimitive = false) (hnone : s.isNoType = false) (he : e.Erased)
    (h : ∃ b, Settles (fun k => tbl.checkUpper k (tbl.check k) .subtype s e) b ∧ (p → b = true)) :
    ∃ b, Settles (fun k => tbl.check k .subtype s e) b ∧ (p → b = true) := by
  obtain ⟨b, hb, hp⟩ := h
  by_cases hshort : (!s.isWildcard && s.same e) = true ∨ s.isNull = true ∨ tbl.isObject e = true
  · refine ⟨true, (Settles.ok true).step rfl fun k => ?_, fun _ => rfl⟩
    rw [check_eq_of_erased hs hprimitive hnone he, if_pos hshort]
  · refine ⟨b, hb.step rfl fun k => ?_, hp⟩
    rw [check_eq_of_erased hs hprimitive hnone he, if_neg hshort]

/-- The check of a founded type and an erased type ends, and confirms that the one is under the
other. -/
theorem Founded.settles_check (h : tbl.Orderly) (harrays : tbl.ArraysRooted)
    (ht : tbl.Founded captures t) (hbuilt : Constructed t) (he : e.Erased) :
    ∃ b, Settles (fun k => tbl.check k .subtype t e) b ∧ (tbl.Under t e → b = true) := by
  induction ht generalizing e with
  | null =>
    refine ⟨true, (Settles.ok true).step rfl fun k => ?_, fun _ => rfl⟩
    rw [check_erased_eq .null he, if_pos (.inr (.inl rfl))]
  | use hc =>
    refine settles_check_of_checkUpper (by simp [Ty.kind]) rfl rfl he ?_
    cases he with
    | declared =>
      obtain ⟨b, hb, hpath⟩ := h.settles_checkDeclared hc (hbuilt.top rfl)
      refine ⟨b, hb, fun hunder => ?_⟩
      cases hunder with
      | use h => exact hpath.mp h
    | null | primitives | array => exact ⟨false, Settles.ok false, nofun⟩
  | @primitives p =>
    refine settles_check_of_checkUpper (by simp [Ty.kind]) rfl rfl he ?_
    cases he with
    | null => exact ⟨false, Settles.ok false, nofun⟩
    | @declared d =>
      refine ⟨tbl.isArraySupertype d, Settles.ok _, fun hunder => ?_⟩
      cases hunder with
      | array hd => exact harrays.isArraySupertype d hd
    | @primitives q ms =>
      refine ⟨_, Settles.ok _, fun hunder => ?_⟩
      cases hunder with
      | primitives => exact beq_self_eq_true p
      | component _ h => cases h
    | array he =>
      refine ⟨_, Settles.ok _, fun hunder => ?_⟩
      cases hunder with
      | primitives => cases he
      | component _ h => cases h
  | array ht ih =>
    refine settles_check_of_checkUpper (by simp [Ty.kind]) rfl rfl he ?_
    cases he with
    | null => exact ⟨false, Settles.ok false, nofun⟩
    | @declared d =>
      refine ⟨tbl.isArraySupertype d, Settles.ok _, fun hunder => ?_⟩
      cases hunder with
      | array hd => exact harrays.isArraySupertype d hd
    | primitives =>
      simp only [checkUpper, checkArray, Ty.isPrimitive, Bool.or_true, if_true]
      refine ⟨_, Settles.ok _, fun hunder => ?_⟩
      cases hunder with
      | primitives => cases ht.isPrimitive
      | component he _ => cases he
    | array he =>
      simp only [checkUpper, checkArray, ht.isPrimitive, he.isPrimitive, Bool.or_self,
        Bool.false_eq_true, if_false]
      obtain ⟨b, hb, hunder⟩ := ih (hbuilt.part mem_cons_self) he
      refine ⟨b, hb, fun h => hunder ?_⟩
      cases h with
      | primitives => cases he
      | component _ h => exact h
  | @var _ v u _ hu _ ih =>
    refine settles_check_of_checkUpper (by simp [Ty.kind]) rfl rfl he ?_
    obtain ⟨b, hb, hunder⟩ := ih (constructed_of_denoted (every_denoted_upperBound hu)) he
    simp only [checkUpper, hu]
    refine ⟨b, hb, fun h => hunder ?_⟩
    cases h with
    | bound hu' h =>
      cases hu.symm.trans hu'
      exact h
  | captured _ _ ih =>
    refine settles_check_of_checkUpper (by simp [Ty.kind]) rfl rfl he ?_
    obtain ⟨b, hb, hunder⟩ := ih (hbuilt.part mem_cons_self) he
    refine ⟨b, hb, fun h => hunder ?_⟩
    cases h with
    | capturedUpper h => exact h
  | wildcard _ ih =>
    refine settles_check_of_checkUpper (by simp [Ty.kind]) rfl rfl he ?_
    obtain ⟨b, hb, hunder⟩ := ih (hbuilt.part mem_cons_self) he
    refine ⟨b, hb, fun h => hunder ?_⟩
    cases h with
    | wildcardUpper h => exact h
  | @intersection _ bounds _ ih =>
    have hmember (b : Ty) (hb : b ∈ bounds) := ih b hb (hbuilt.part hb) he
    obtain ⟨v, hv⟩ := Settles.anyM bounds fun b hb => (hmember b hb).imp fun _ h => h.1
    refine ⟨v, hv.step rfl fun k => ?_, fun h => ?_⟩
    · rw [check_intersection_left _ _ he.atomic.1, he.isSameOccurrence, if_neg Bool.false_ne_true]
    · cases h with
      | member hb h =>
        refine hv.of_yields fun k => Yields.anyM_true hb ?_ fun x hx => ?_
        · obtain ⟨w, hw, hunder⟩ := hmember _ hb
          exact hw.yields (hunder h) k
        · obtain ⟨w, hw, -⟩ := hmember x hx
          exact hw.yields trivial k
  | @union _ alternatives _ ih =>
    have halternative (a : Ty) (ha : a ∈ alternatives) := ih a ha (hbuilt.part ha) he
    obtain ⟨v, hv⟩ := Settles.allM alternatives fun a ha => (halternative a ha).imp fun _ h => h.1
    refine ⟨v, hv.step rfl fun k => ?_, fun h => ?_⟩
    · rw [check_union_left _ _ he.atomic.1, he.isSameOccurrence, if_neg Bool.false_ne_true]
    · cases h with
      | alternatives _ h =>
        refine hv.of_yields fun k => Yields.allM_true alternatives fun a ha => ?_
        obtain ⟨w, hw, hunder⟩ := halternative a ha
        exact hw.yields (hunder (h a ha)) k

/-! ### Types and their erasures -/

/-- Every type is a subtype of its erasure, whenever that is found: built from uses of classes,
variables, wildcards, intersections, unions, the null type and arrays, where going up the bounds of
variables comes to an end. -/
theorem isSubtype_of_erase (h : tbl.Orderly) (harrays : tbl.ArraysRooted)
    (ht : tbl.Founded captures t) (hbuilt : Constructed t) (he : tbl.erase n t = .ok e) :
    Settles (fun k => tbl.isSubtype k t e) true := by
  obtain ⟨herased, -, hunder⟩ := under_of_eraseWith (h.covers_leastUpperBounds harrays n) ht he
  obtain ⟨b, hb, htrue⟩ := ht.settles_check h harrays hbuilt herased
  obtain rfl := htrue hunder
  simp only [isSubtype, Ty.requireType, ht.isPseudo, herased.isPseudo]
  exact hb

set_option maxRecDepth 20000 in
/-- The array type of a union: what the alternatives have in common is a class that one of them has
as its second bound, and the other as a supertype. -/
theorem isSubtype_of_erase_alternatives :
    let tbl : Table := {
      classes := #[
        { name := "java.lang.Object", simpleName := "Object", kind := .cls },
        { name := "p.A", simpleName := "A", kind := .interface },
        { name := "p.N", simpleName := "N", kind := .interface,
          typeParameters := [{ name := "T" }] },
        { name := "p.C", simpleName := "C", kind := .cls,
          interfaces := [.applied ⟨2⟩ [.named ⟨1⟩ []] none []] },
        { name := "p.G", simpleName := "G", kind := .cls,
          typeParameters := [{ name := "T", bounds :=
            [.named ⟨1⟩ [], .applied ⟨2⟩ [.var ⟨.cls ⟨4⟩, 0⟩ []] none []] }] }] }
    let t : Ty := .array (.union 0 [.var 0 ⟨.cls ⟨4⟩, 0⟩ [], .declared ⟨3⟩ [] none []]) []
    let e : Ty := .array (.declared ⟨2⟩ [] none []) []
    tbl.Orderly ∧ tbl.ArraysRooted ∧ tbl.Founded (fun _ => .null) t ∧ Constructed t ∧
      tbl.erase 12 t = .ok e ∧ Settles (fun k => tbl.isSubtype k t e) true := by
  intro tbl t e
  have horderly : tbl.Orderly := orderly_of_isLayered (by rfl) (by rfl) (by rfl)
  have harrays : tbl.ArraysRooted := ⟨by decide, by decide, by decide⟩
  have hbounds : ∀ b ∈ [Ty.declared ⟨1⟩ [] none [],
      .declared ⟨2⟩ [.var 0 ⟨.cls ⟨4⟩, 0⟩ []] none []], tbl.Founded (fun _ => .null) b :=
    forall_mem_cons.mpr ⟨.use rfl, forall_mem_singleton.mpr (.use rfl)⟩
  have hfounded : tbl.Founded (fun _ => .null) t :=
    .array (.union (forall_mem_cons.mpr
      ⟨.var rfl (.intersection hbounds), forall_mem_singleton.mpr (.use rfl)⟩))
  have hbuilt : Constructed t := by
    refine .intro nofun (forall_mem_singleton.mpr (.intro nofun (forall_mem_cons.mpr ⟨?_, ?_⟩)))
    · exact .intro nofun nofun
    · exact forall_mem_singleton.mpr (.intro (fun _ => Ty.formed_bare_class _ _) nofun)
  have he : tbl.erase 12 t = .ok e := by rfl
  exact ⟨horderly, harrays, hfounded, hbuilt, he,
    isSubtype_of_erase horderly harrays hfounded hbuilt he⟩

set_option maxRecDepth 20000 in
/-- Both conditions matter. If a type variable is among its own bounds, the check may not end: asked
whether the variable is below its last bound, it tries the variable first. And if supertype
expressions name the classes of primitive types, a union may have a primitive erasure. -/
theorem not_isSubtype_of_erase :
    let circular : Table := {
      classes := #[
        { name := "java.lang.Object", simpleName := "Object", kind := .cls },
        { name := "p.A", simpleName := "A", kind := .interface },
        { name := "p.B", simpleName := "B", kind := .interface },
        { name := "p.X", simpleName := "X", kind := .cls, interfaces := [.named ⟨2⟩ []] },
        { name := "p.G", simpleName := "G", kind := .cls,
          typeParameters := [{ name := "T", bounds :=
            [.named ⟨1⟩ [], .var ⟨.cls ⟨4⟩, 0⟩ [], .named ⟨2⟩ []] }] }] }
    let T : Ty := .var 0 ⟨.cls ⟨4⟩, 0⟩ []
    let B : Ty := .declared ⟨2⟩ [] none []
    let t : Ty := .union 0 [T, .declared ⟨3⟩ [] none []]
    let primitive : Table := {
      classes := #[
        { name := "java.lang.Object", simpleName := "Object", kind := .cls },
        { name := "int", simpleName := "int", kind := .primitive },
        { name := "p.C", simpleName := "C", kind := .cls, superclass := some (.named ⟨1⟩ []) },
        { name := "p.D", simpleName := "D", kind := .cls, superclass := some (.named ⟨1⟩ []) }] }
    let u : Ty := .union 0 [.declared ⟨2⟩ [] none [], .declared ⟨3⟩ [] none []]
    (circular.Orderly ∧ circular.ArraysRooted ∧
      circular.boundsOf ⟨.cls ⟨4⟩, 0⟩ = .ok [.declared ⟨1⟩ [] none [], T, B] ∧
      circular.erase 12 t = .ok B ∧ ∀ k, circular.isSubtype k t B = .error .exhausted) ∧
    ((∀ c, ∃ ds, primitive.rawSupertypes c = .ok ds) ∧ primitive.ArraysRooted ∧
      primitive.erase 12 u = .ok (.primitive .int []) ∧
      primitive.isSubtype 12 u (.primitive .int []) = .ok false) := by
  intro circular T B t primitive u
  refine ⟨⟨orderly_of_isLayered (by rfl) (by rfl) (by rfl), ⟨by decide, by decide, by decide⟩, rfl,
    by rfl, fun k => ?_⟩, exists_rawSupertypes_of_isLayered (by rfl),
    ⟨by decide, by decide, by decide⟩, by rfl, by rfl⟩
  have hloop (k : Nat) : circular.check k .subtype T B = .error .exhausted ∧
      circular.check k .subtype (.intersection 0 [.declared ⟨1⟩ [] none [], T, B]) B =
        .error .exhausted := by
    induction k with
    | zero => exact ⟨rfl, rfl⟩
    | succ k ih =>
      refine ⟨ih.2, ?_⟩
      cases k with
      | zero => rfl
      | succ k =>
        change (circular.check (k + 1) .subtype T B >>= _) = _
        rw [ih.1]
        rfl
  cases k with
  | zero => rfl
  | succ k =>
    change (circular.check k .subtype T B >>= _) = _
    rw [(hloop k).1]
    rfl

end Table

end NominalTypes
