import NominalTypes.Proofs.MinimalBounds

/-!
# All supertypes of a type

Going up from a type, to its direct supertypes and theirs, may lead around in circles: the bound of
a type variable can be a variable again, and a variable can be bounded by itself. But only finitely
many types are met. Above a use of a class there are uses of the classes that it inherits; above a
variable there are bounds that the table declares, of which there are finitely many; and above an
array there are arrays of what is above its component. So the search in breadth-first order comes to
its end, and it lists what is reached, each type once and the nearest first.
-/

namespace NominalTypes

open List

variable {component : Ty} {marks : List ClassId} {ts : List Ty} {v : TypeVarId}

namespace Table

variable {tbl : Table} {captures : Nat → Ty} {s t u : Ty} {n k : Nat}

/-- The second type is one of the direct supertypes of the first. -/
def StepsUp (tbl : Table) (t s : Ty) : Prop :=
  ∃ k ts, (tbl.directSupertypes k t : Result (List Ty)) = .ok ts ∧ s ∈ ts

/-- The type is reached from `t` by the number of steps up. -/
inductive ReachedIn (tbl : Table) (t : Ty) : Nat → Ty → Prop
  | start : ReachedIn tbl t 0 t
  | step {n : Nat} {s u : Ty} (h : ReachedIn tbl t n s) (hu : tbl.StepsUp s u) :
    ReachedIn tbl t (n + 1) u

/-- The least number of steps by which a type that equals `s` is reached from `t`. -/
noncomputable def distance (tbl : Table) (t s : Ty) : Nat :=
  sInf {n | ∃ x, s.same x = true ∧ tbl.ReachedIn t n x}

theorem distance_le (h : tbl.ReachedIn t n u) (hsame : s.same u = true) : tbl.distance t s ≤ n :=
  Nat.sInf_le ⟨u, hsame, h⟩

theorem exists_reachedIn_distance (h : tbl.ReachedIn t n s) :
    ∃ x, s.same x = true ∧ tbl.ReachedIn t (tbl.distance t s) x := by
  have hne : {n | ∃ x, s.same x = true ∧ tbl.ReachedIn t n x}.Nonempty := ⟨n, s, Ty.same_refl s, h⟩
  exact Nat.sInf_mem hne

theorem ReachedIn.of_property {p : Ty → Prop} (h : tbl.ReachedIn t n s) (ht : p t)
    (hp : ∀ x y, p x → tbl.StepsUp x y → p y) : p s := by
  induction h with
  | start => exact ht
  | step _ hu ih => exact hp _ _ ih hu

/-! ### The search in breadth-first order -/

/-- Types with the property step up to types with the property, and equal ones to equal types. -/
structure Respects (tbl : Table) (p : Ty → Prop) : Prop where
  stepsUp : ∀ x y, p x → tbl.StepsUp x y → p y
  same : ∀ x y s, p x → p y → x.same y = true → tbl.StepsUp x s →
    ∃ u, tbl.StepsUp y u ∧ s.same u = true

/-- The state of a search from `t`. Each pending type stands next to the number of steps by which it
was reached. The numbers do not decrease, and differ by one at most. The types that have been met
are different, the last one comes first and is the farthest; what is directly above them has been
met, or is pending with a number that is not too large. -/
structure Searched (tbl : Table) (t : Ty) (pending : List (Nat × Ty)) (seen : List Ty) : Prop where
  start : t ∈ seen
  reached : ∀ x ∈ pending, tbl.ReachedIn t x.1 x.2
  met : ∀ x ∈ seen, ∃ n, tbl.ReachedIn t n x
  nearby : pending.Pairwise fun x y => x.1 ≤ y.1 ∧ y.1 ≤ x.1 + 1
  separate : Ty.Separate seen
  ordered : seen.Pairwise fun x y => tbl.distance t y ≤ tbl.distance t x
  before : ∀ x ∈ seen, ∀ y ∈ pending, tbl.distance t x ≤ y.1
  closed : ∀ x ∈ seen, ∀ s, tbl.StepsUp x s →
    s.isIn seen = true ∨ ∃ y ∈ pending, y.1 ≤ tbl.distance t x + 1 ∧ s.same y.2 = true

section Search

variable {p : Ty → Prop} (hp : tbl.Respects p) (ht : p t) {pending : List (Nat × Ty)}
  {seen : List Ty}

include hp ht

/-- What is nearer than all pending types has been met. -/
theorem Searched.isIn_of_lt (h : tbl.Searched t pending seen) (hs : tbl.ReachedIn t n s)
    (hlt : ∀ x ∈ pending, n < x.1) : s.isIn seen = true := by
  induction hs with
  | start => exact any_eq_true.mpr ⟨t, h.start, Ty.same_refl t⟩
  | @step n s u hs hu ih =>
    obtain ⟨x, hx, hsx⟩ := any_eq_true.mp (ih fun y hy => Nat.lt_of_succ_lt (hlt y hy))
    obtain ⟨m, hm⟩ := h.met x hx
    obtain ⟨w, hw, huw⟩ := hp.same s x u (hs.of_property ht hp.stepsUp)
      (hm.of_property ht hp.stepsUp) hsx hu
    rcases h.closed x hx w hw with hin | ⟨y, hy, hle, -⟩
    · exact isIn_of_same huw hin
    · have hx := distance_le hs (Ty.same_symm hsx)
      have := hlt y hy
      omega

/-- A pending type that has not been met is as far away as its number says. -/
theorem Searched.distance_eq (h : tbl.Searched t ((n, s) :: pending) seen)
    (hs : s.isIn seen = false) : tbl.distance t s = n := by
  have hreached := h.reached _ mem_cons_self
  refine Nat.le_antisymm (distance_le hreached (Ty.same_refl s)) (Nat.le_of_not_lt fun hlt => ?_)
  obtain ⟨x, hsx, hx⟩ := exists_reachedIn_distance hreached
  have hin : x.isIn seen = true := by
    refine h.isIn_of_lt hp ht hx (forall_mem_cons.mpr ⟨hlt, fun y hy => ?_⟩)
    exact Nat.lt_of_lt_of_le hlt ((pairwise_cons.mp h.nearby).1 y hy).1
  cases hs.symm.trans (isIn_of_same hsx hin)

omit hp ht in
/-- A pending type that has been met is dropped. -/
theorem Searched.drop (h : tbl.Searched t ((n, s) :: pending) seen) (hs : s.isIn seen = true) :
    tbl.Searched t pending seen where
  start := h.start
  reached := (forall_mem_cons.mp h.reached).2
  met := h.met
  nearby := (pairwise_cons.mp h.nearby).2
  separate := h.separate
  ordered := h.ordered
  before x hx := (forall_mem_cons.mp (h.before x hx)).2
  closed x hx u hu := by
    rcases h.closed x hx u hu with hin | ⟨y, hy, hle, hsame⟩
    · exact .inl hin
    · rcases mem_cons.mp hy with rfl | hy
      · exact .inl (isIn_of_same hsame hs)
      · exact .inr ⟨y, hy, hle, hsame⟩

/-- A pending type that has not been met gives way to the types directly above it. -/
theorem Searched.expand (h : tbl.Searched t ((n, s) :: pending) seen) (hs : s.isIn seen = false)
    {above : List Ty} (habove : ∀ x, x ∈ above ↔ tbl.StepsUp s x) :
    tbl.Searched t (pending ++ above.map (n + 1, ·)) (s :: seen) := by
  have hdistance := h.distance_eq hp ht hs
  obtain ⟨hreached, hpending⟩ := forall_mem_cons.mp h.reached
  obtain ⟨hhead, hnearby⟩ := pairwise_cons.mp h.nearby
  refine ⟨mem_cons_of_mem s h.start, ?_, ?_, ?_, ?_, ?_, ?_, ?_⟩
  · refine forall_mem_append.mpr ⟨hpending, fun y hy => ?_⟩
    obtain ⟨x, hx, rfl⟩ := mem_map.mp hy
    exact .step hreached ((habove x).mp hx)
  · exact forall_mem_cons.mpr ⟨⟨n, hreached⟩, h.met⟩
  · refine pairwise_append.mpr ⟨hnearby, ?_, fun x hx y hy => ?_⟩
    · refine pairwise_map.mpr (pairwise_of_forall fun _ _ => ?_)
      exact ⟨Nat.le_refl _, Nat.le_succ _⟩
    · obtain ⟨z, -, rfl⟩ := mem_map.mp hy
      have := hhead x hx
      omega
  · refine pairwise_cons.mpr ⟨Ty.isIn_eq_false.mp hs, h.separate⟩
  · refine pairwise_cons.mpr ⟨fun x hx => ?_, h.ordered⟩
    exact hdistance ▸ h.before x hx _ mem_cons_self
  · refine forall_mem_cons.mpr ⟨?_, fun x hx => ?_⟩
    · refine forall_mem_append.mpr ⟨fun y hy => hdistance ▸ (hhead y hy).1, fun y hy => ?_⟩
      obtain ⟨z, -, rfl⟩ := mem_map.mp hy
      exact hdistance ▸ Nat.le_succ n
    · obtain ⟨hx, hall⟩ := forall_mem_cons.mp (h.before x hx)
      refine forall_mem_append.mpr ⟨hall, fun y hy => ?_⟩
      obtain ⟨z, -, rfl⟩ := mem_map.mp hy
      exact Nat.le_succ_of_le hx
  · refine forall_mem_cons.mpr ⟨fun u hu => .inr ?_, fun x hx u hu => ?_⟩
    · refine ⟨(n + 1, u), mem_append_right _ (mem_map.mpr ⟨u, (habove u).mpr hu, rfl⟩), ?_⟩
      exact ⟨hdistance ▸ Nat.le_refl _, Ty.same_refl u⟩
    · rcases h.closed x hx u hu with hin | ⟨y, hy, hle, hsame⟩
      · exact .inl (isIn_cons_of_isIn hin s)
      · rcases mem_cons.mp hy with rfl | hy
        · exact .inl (isIn_of_same hsame (isIn_cons_self s seen))
        · exact .inr ⟨y, mem_append_left _ hy, hle, hsame⟩

/-- A search that comes to its end lists what has been met. -/
theorem Searched.of_expandSupertypes {direct : Ty → Result (List Ty)}
    (hdirect : ∀ x ts, p x → direct x = .ok ts → ∀ y, y ∈ ts ↔ tbl.StepsUp x y)
    (h : tbl.Searched t pending seen) {out : List Ty}
    (hout : expandSupertypes direct k (pending.map Prod.snd) seen = .ok out) :
    tbl.Searched t [] out.reverse := by
  revert h
  generalize hqueue : pending.map Prod.snd = queue at hout
  revert pending
  refine expandSupertypes_induction (motive := fun queue seen => ∀ {pending : List (Nat × Ty)},
    pending.map Prod.snd = queue → tbl.Searched t pending seen → tbl.Searched t [] out.reverse)
    ?_ ?_ ?_ hout
  · rintro seen rfl pending hpending h
    cases map_eq_nil_iff.mp hpending
    rwa [reverse_reverse]
  · intro s queue seen hs ih pending hpending h
    obtain ⟨⟨n, x⟩, pending, rfl, rfl, rfl⟩ := map_eq_cons_iff.mp hpending
    exact ih rfl (h.drop hs)
  · intro s queue seen above hs habove ih pending hpending h
    obtain ⟨⟨n, x⟩, pending, rfl, rfl, rfl⟩ := map_eq_cons_iff.mp hpending
    have hx := (h.reached _ mem_cons_self).of_property ht hp.stepsUp
    refine ih ?_ (h.expand hp ht hs (hdirect x above hx habove))
    rw [map_append, map_map]
    exact congrArg (_ ++ ·) (map_id _)

end Search

/-- The search ends if it meets types of a finite set only: whatever is expanded is taken out of the
set. -/
theorem exists_expandSupertypes_of_finite {direct : Nat → Ty → Result (List Ty)} {C : Set Ty}
    (hC : C.Finite)
    (hdirect : ∀ t ∈ C, ∃ ts, Settles (fun k => direct k t) ts ∧ ∀ s ∈ ts, s ∈ C)
    (queue seen : List Ty) (hqueue : ∀ t ∈ queue, t ∈ C) :
    ∃ out, ∀ φ : Nat → Nat, (∀ k, k ≤ φ k) →
      Settles (fun k => expandSupertypes (direct (φ k)) k queue seen) out := by
  generalize hcard : (C \ {t | t ∈ seen}).ncard = m
  induction m using Nat.strong_induction_on generalizing queue seen with
  | _ m ih =>
    induction queue with
    | nil =>
      refine ⟨seen.reverse, fun φ _ => ?_⟩
      simp only [expandSupertypes_nil]
      exact .ok _
    | cons t queue ihqueue =>
      obtain ⟨ht, hqueue⟩ := forall_mem_cons.mp hqueue
      cases hin : t.isIn seen with
      | true =>
        obtain ⟨out, hout⟩ := ihqueue hqueue
        refine ⟨out, fun φ hφ => ?_⟩
        simp only [expandSupertypes_of_isIn hin]
        exact hout φ hφ
      | false =>
        have hnew : t ∉ seen := fun hmem => by
          cases hin.symm.trans (any_eq_true.mpr ⟨t, hmem, Ty.same_refl t⟩)
        have hlt : (C \ {x | x ∈ t :: seen}).ncard < m := by
          rw [← hcard]
          refine Set.ncard_lt_ncard ⟨fun x hx => ⟨hx.1, fun hmem => ?_⟩, fun hsub => ?_⟩ hC.sdiff
          · exact hx.2 (mem_cons_of_mem t hmem)
          · exact (hsub ⟨ht, hnew⟩).2 mem_cons_self
        obtain ⟨ts, hsettles, hts⟩ := hdirect t ht
        obtain ⟨out, hout⟩ := ih _ hlt (queue ++ ts) (t :: seen)
          (forall_mem_append.mpr ⟨hqueue, hts⟩) rfl
        refine ⟨out, fun φ hφ => ?_⟩
        have hφ' (k : Nat) : k ≤ φ (k + 1) := Nat.le_trans (Nat.le_succ k) (hφ (k + 1))
        exact ((hsettles.comp hφ').bind (hout (fun k => φ (k + 1)) hφ')).step
          (expandSupertypes_zero hin) fun k => expandSupertypes_succ hin

/-! ### Types from which the steps are followed -/

/-- The type is built from uses of classes, type variables, captured variables, wildcards,
intersections, arrays, primitive types and the like, as the constructors build them, as far as it
matters for the ways up. A captured variable is the one that belongs to its token. -/
inductive Ascending (captures : Nat → Ty) : Ty → Prop
  | flat {t : Ty} (h : (t.isPrimitive || t.isNoType || t.isNull) = true) : Ascending captures t
  | use {t : Ty} (h : t.Formed) : Ascending captures t
  | var (n : Nat) (v : TypeVarId) (marks : List ClassId) : Ascending captures (.var n v marks)
  | captured {token site : Nat} {upper lower : Ty} {marks : List ClassId}
    (htoken : (Ty.captured token site upper lower marks).bare = captures token)
    (h : Ascending captures upper) : Ascending captures (.captured token site upper lower marks)
  | wildcard {n : Nat} {upper lower : Ty} {marks : List ClassId} (hupper : upper.isWildcard = false)
    (h : Ascending captures upper) : Ascending captures (.wildcard n upper lower marks)
  | intersection {n : Nat} {bounds : List Ty} (hne : bounds ≠ [])
    (h : ∀ b ∈ bounds, Ascending captures b) : Ascending captures (.intersection n bounds)
  | array {component : Ty} {marks : List ClassId} (hcomponent : component.isWildcard = false)
    (h : Ascending captures component) : Ascending captures (.array component marks)

theorem directSupertypes_eq (tbl : Table) (k : Nat) (t : Ty) :
    (tbl.directSupertypes k t : Result (List Ty)) =
      tbl.typesAboveWith (tbl.leastUpperBounds k) k t := by
  rw [directSupertypes, directSupertypesWith_eq_typesAboveWith]

theorem stepsUp_iff_mem (h : Settles (fun k => (tbl.directSupertypes k t : Result (List Ty))) ts) :
    tbl.StepsUp t s ↔ s ∈ ts := by
  constructor
  · rintro ⟨k, ss, hss, hs⟩
    exact h.eq_of_ok hss ▸ hs
  · intro hs
    obtain ⟨k, hk⟩ := h.1
    exact ⟨k, ts, hk k (Nat.le_refl k), hs⟩

theorem stepsUp_iff_of_eq
    (h : ∀ k, (tbl.typesAboveWith (tbl.leastUpperBounds k) k t : Result (List Ty)) = .ok ts) :
    tbl.StepsUp t s ↔ s ∈ ts := by
  refine stepsUp_iff_mem ?_
  simp only [directSupertypes_eq, h]
  exact .ok ts

theorem stepsUp_primitive {p} :
    tbl.StepsUp (.primitive p marks) s ↔ s ∈ p.next?.toList.map fun q => .primitive q [] :=
  stepsUp_iff_of_eq fun _ => rfl

theorem stepsUp_var (h : tbl.boundsOf v = .ok ts) : tbl.StepsUp (.var n v marks) s ↔ s ∈ ts :=
  stepsUp_iff_of_eq fun _ => h

theorem stepsUp_captured {token site upper lower} :
    tbl.StepsUp (.captured token site upper lower marks) s ↔ s ∈ [upper] :=
  stepsUp_iff_of_eq fun _ => rfl

theorem stepsUp_wildcard {upper lower} :
    tbl.StepsUp (.wildcard n upper lower marks) s ↔ s ∈ [upper] :=
  stepsUp_iff_of_eq fun _ => rfl

theorem stepsUp_intersection {bounds} :
    tbl.StepsUp (.intersection n bounds) s ↔ s ∈ bounds :=
  stepsUp_iff_of_eq fun _ => rfl

theorem stepsUp_arrayRoots (h : (component.isPrimitive || tbl.isObject component) = true) :
    tbl.StepsUp (.array component marks) s ↔ s ∈ tbl.arrayRoots := by
  refine stepsUp_iff_of_eq fun _ => ?_
  rw [typesAboveWith, if_pos h]
  rfl

theorem Ascending.isPseudo (h : Ascending captures t) : t.isPseudo = false := by
  cases h with
  | flat h => cases t <;> first | rfl | cases h
  | use h => cases h; rfl
  | _ => rfl

/-- What gives way to its upper bound as the component of an array is such a type again. -/
theorem Ascending.orUpper (h : Ascending captures t) :
    Ascending captures t.orUpper ∧ t.orUpper.isWildcard = false := by
  cases hwildcard : t.isWildcard with
  | false =>
    rw [Ty.orUpper_eq_self hwildcard]
    exact ⟨h, hwildcard⟩
  | true =>
    obtain ⟨n, upper, lower, marks, rfl⟩ := Ty.exists_eq_wildcard hwildcard
    cases h with
    | wildcard hupper h => exact ⟨h, hupper⟩
    | flat h => cases h
    | use h => cases h

theorem Ascending.makeArray_orUpper (h : Ascending captures t) (marks : List ClassId) :
    makeArray t.orUpper marks = .ok (.array t.orUpper marks) := by
  rw [makeArray, h.orUpper.1.isPseudo, h.orUpper.2]
  rfl

/-- Other arrays have the arrays of what is directly above their components directly above them. -/
theorem settles_directSupertypes_array
    (hroots : (component.isPrimitive || tbl.isObject component) = false)
    (hts : Settles (fun k => (tbl.directSupertypes k component : Result (List Ty))) ts)
    (hall : ∀ s ∈ ts, Ascending captures s) :
    Settles (fun k => (tbl.directSupertypes k (.array component marks) : Result (List Ty)))
      (ts.map fun s => .array s.orUpper []) := by
  simp only [directSupertypes_eq, typesAboveWith, hroots] at hts ⊢
  refine hts.bind (Settles.mapM ?_)
  refine forall₂_map_right_iff.mpr (forall₂_same.mpr fun s hs => ?_)
  simp only [(hall s hs).makeArray_orUpper]
  exact .ok _

theorem ascending_of_mem_arrayRoots (h : t ∈ tbl.arrayRoots) : Ascending captures t := by
  obtain ⟨c, -, rfl⟩ := mem_map.mp h
  exact .use (Ty.formed_bare_class c [])

theorem BoundedByUses.ascending (h : tbl.BoundedByUses)
    (hts : tbl.boundsOf v = .ok ts) : ∀ b ∈ ts, Ascending captures b := by
  intro b hb
  obtain ⟨ss, hss, hall⟩ := h v
  cases hts.symm.trans hss
  rcases hall b hb with hkind | ⟨n, w, marks, rfl⟩
  · exact .use (formed_of_denoted (boundsOf_denoted hts b hb) hkind)
  · exact .var n w marks

section Steps

variable (h : tbl.Orderly) (hbounds : tbl.BoundedByUses)

include h hbounds

/-- The direct supertypes of a type are found. -/
theorem Ascending.exists_directSupertypes (ht : Ascending captures t) :
    ∃ ts, Settles (fun k => (tbl.directSupertypes k t : Result (List Ty))) ts ∧
      ∀ s ∈ ts, Ascending captures s := by
  induction ht with
  | @flat t hflat =>
    simp only [directSupertypes_eq]
    cases t with
    | primitive p marks =>
      refine ⟨p.next?.toList.map fun q => .primitive q [], .ok _, fun x hx => ?_⟩
      obtain ⟨q, -, rfl⟩ := mem_map.mp hx
      exact .flat rfl
    | none | void _ | null => exact ⟨[], .ok _, forall_mem_nil _⟩
    | _ => cases hflat
  | use hformed =>
    obtain ⟨ts, hts⟩ := h.exists_directSupers hformed
    exact ⟨ts, hts.settles, fun s hs => .use (h.formed_of_supertype hformed (hts.supertype hs))⟩
  | var n v marks =>
    obtain ⟨ts, hts, -⟩ := hbounds v
    simp only [directSupertypes_eq, typesAboveWith, hts]
    exact ⟨ts, .ok ts, hbounds.ascending hts⟩
  | @captured _ _ upper _ _ _ hupper =>
    exact ⟨[upper], .ok _, forall_mem_singleton.mpr hupper⟩
  | @wildcard _ upper _ _ _ hupper =>
    exact ⟨[upper], .ok _, forall_mem_singleton.mpr hupper⟩
  | @intersection _ bounds _ hall =>
    simp only [directSupertypes_eq]
    exact ⟨bounds, .ok _, hall⟩
  | @array component marks _ _ ih =>
    cases hroots : component.isPrimitive || tbl.isObject component with
    | true =>
      refine ⟨tbl.arrayRoots, ?_, fun s => ascending_of_mem_arrayRoots⟩
      simp only [directSupertypes_eq, typesAboveWith, hroots]
      exact .ok _
    | false =>
      obtain ⟨ts, hts, hall⟩ := ih
      refine ⟨_, settles_directSupertypes_array hroots hts hall, fun x hx => ?_⟩
      obtain ⟨s, hs, rfl⟩ := mem_map.mp hx
      exact .array (hall s hs).orUpper.2 (hall s hs).orUpper.1

theorem Ascending.of_stepsUp (ht : Ascending captures t) (hs : tbl.StepsUp t s) :
    Ascending captures s := by
  obtain ⟨ts, hts, hall⟩ := ht.exists_directSupertypes h hbounds
  exact hall s ((stepsUp_iff_mem hts).mp hs)

theorem Ascending.stepsUp_array (ht : Ascending captures component)
    (hroots : (component.isPrimitive || tbl.isObject component) = false) :
    tbl.StepsUp (.array component marks) s ↔
      ∃ x, tbl.StepsUp component x ∧ s = .array x.orUpper [] := by
  obtain ⟨ts, hts, hall⟩ := ht.exists_directSupertypes h hbounds
  rw [stepsUp_iff_mem (settles_directSupertypes_array hroots hts hall), mem_map]
  simp only [stepsUp_iff_mem hts, eq_comm]

/-- Equal types step up to equal types. -/
theorem Ascending.same_of_stepsUp (ht : Ascending captures t) (hu : Ascending captures u)
    (hsame : t.same u = true) (hs : tbl.StepsUp t s) :
    ∃ x, tbl.StepsUp u x ∧ s.same x = true := by
  induction ht generalizing u s with
  | @flat t hflat =>
    cases t with
    | primitive p marks =>
      cases u with
      | primitive q marks' =>
        cases of_decide_eq_true hsame
        exact ⟨s, stepsUp_primitive.mpr (stepsUp_primitive.mp hs), Ty.same_refl s⟩
      | _ => cases hsame
    | none | void _ | null => cases (stepsUp_iff_of_eq fun _ => rfl).mp hs
    | _ => cases hflat
  | @use t hformed =>
    have hkind : u.kind = .declared := (Ty.kind_eq_of_same hsame).symm.trans hformed.kind
    have hformed' : u.Formed := by
      cases hu with
      | use hu => exact hu
      | flat hflat =>
        obtain ⟨_, _, _, _, rfl⟩ := Ty.exists_eq_declared hkind
        cases hflat
      | _ => cases hkind
    obtain ⟨ts, hts⟩ := h.exists_directSupers hformed
    obtain ⟨us, hus⟩ := h.exists_directSupers hformed'
    obtain ⟨x, hx, hsx⟩ := exists_of_forall₂_left (forall₂_same_of_directSupers hsame hts hus)
      ((stepsUp_iff_mem hts.settles).mp hs)
    exact ⟨x, (stepsUp_iff_mem hus.settles).mpr hx, hsx⟩
  | var n v marks =>
    cases u with
    | var n' v' marks' =>
      cases of_decide_eq_true hsame
      obtain ⟨ts, hts, -⟩ := hbounds v
      exact ⟨s, (stepsUp_var hts).mpr ((stepsUp_var hts).mp hs), Ty.same_refl s⟩
    | _ => cases hsame
  | @captured token site upper lower marks htoken _ ih =>
    cases u with
    | captured token' site' upper' lower' marks' =>
      cases of_decide_eq_true hsame
      cases hu with
      | captured htoken' =>
        cases mem_singleton.mp (stepsUp_captured.mp hs)
        refine ⟨upper', stepsUp_captured.mpr mem_cons_self, Ty.same_of_bare_eq ?_⟩
        exact (Ty.captured.inj (htoken.trans htoken'.symm)).2.2.1
      | flat hflat => cases hflat
      | use hformed => cases hformed
    | _ => cases hsame
  | wildcard hupper hasc ih =>
    cases u with
    | wildcard n' upper' lower' marks' =>
      cases mem_singleton.mp (stepsUp_wildcard.mp hs)
      refine ⟨upper', stepsUp_wildcard.mpr mem_cons_self, Ty.same_orUpper hsame⟩
    | _ => cases hsame
  | intersection _ hall ih =>
    cases u with
    | intersection n' bounds' =>
      obtain ⟨x, hx, hsx⟩ := exists_of_forall₂_left (Ty.forall₂_of_sameAll hsame)
        (stepsUp_intersection.mp hs)
      exact ⟨x, stepsUp_intersection.mpr hx, hsx⟩
    | _ => cases hsame
  | @array component marks _ hasc ih =>
    cases u with
    | array component' marks' =>
      have hasc' : Ascending captures component' := by
        cases hu with
        | array _ hasc' => exact hasc'
        | flat hflat => cases hflat
        | use hformed => cases hformed
      have hsame' : component.same component' = true := hsame
      have hkind : (component.isPrimitive || tbl.isObject component) =
          (component'.isPrimitive || tbl.isObject component') := by
        rw [Ty.isPrimitive_of_kind_eq (Ty.kind_eq_of_same hsame'), isObject_eq_of_same hsame']
      cases hroots : component.isPrimitive || tbl.isObject component with
      | true =>
        rw [stepsUp_arrayRoots hroots] at hs
        exact ⟨s, (stepsUp_arrayRoots (hkind ▸ hroots)).mpr hs, Ty.same_refl s⟩
      | false =>
        obtain ⟨x, hx, rfl⟩ := (hasc.stepsUp_array h hbounds hroots).mp hs
        obtain ⟨y, hy, hxy⟩ := ih hasc' hsame' hx
        refine ⟨.array y.orUpper [], ?_, Ty.same_orUpper hxy⟩
        exact (hasc'.stepsUp_array h hbounds (hkind ▸ hroots)).mpr ⟨y, hy, rfl⟩
    | _ => cases hsame

end Steps

/-! ### Finitely many types are reached -/

/-- What is reached from a type. -/
def above (tbl : Table) (t : Ty) : Set Ty :=
  {s | Relation.ReflTransGen tbl.StepsUp t s}

theorem finite_above_of_closed {C : Set Ty} (hC : C.Finite) (ht : t ∈ C)
    (hclosed : ∀ x ∈ C, ∀ s, tbl.StepsUp x s → s ∈ C) : (tbl.above t).Finite := by
  refine hC.subset fun s hs => ?_
  induction hs with
  | refl => exact ht
  | tail _ hs ih => exact hclosed _ ih _ hs

theorem mem_above_of_stepsUp {x} (hx : x ∈ tbl.above t) (hs : tbl.StepsUp x s) :
    s ∈ tbl.above t :=
  Relation.ReflTransGen.tail hx hs

/-- What is reached from a type is the type itself and what is reached from its direct
supertypes. -/
theorem finite_above_of_stepsUp (hts : ∀ s, tbl.StepsUp t s → s ∈ ts)
    (h : ∀ s ∈ ts, (tbl.above s).Finite) : (tbl.above t).Finite := by
  have hunion : (⋃ s ∈ {s | s ∈ ts}, tbl.above s).Finite := ts.finite_toSet.biUnion h
  refine finite_above_of_closed (hunion.insert t) (Set.mem_insert t _) ?_
  rintro x (rfl | hx) s hs
  · exact .inr (Set.mem_biUnion (hts s hs) Relation.ReflTransGen.refl)
  · obtain ⟨y, hy, hx⟩ := Set.mem_iUnion₂.mp hx
    exact .inr (Set.mem_biUnion hy (mem_above_of_stepsUp hx hs))

theorem finite_above_primitive (p : Primitive) (marks : List ClassId) :
    (tbl.above (.primitive p marks)).Finite := by
  have hfinite : {t : Ty | ∃ q : Primitive, t = .primitive q []}.Finite := by
    refine (finite_toSet ([.boolean, .byte, .short, .int, .long, .char, .float, .double].map
      fun q : Primitive => Ty.primitive q [])).subset ?_
    rintro _ ⟨q, rfl⟩
    refine mem_map.mpr ⟨q, ?_, rfl⟩
    cases q <;> decide
  refine finite_above_of_closed (hfinite.insert (.primitive p marks)) (Set.mem_insert _ _) ?_
  have hstep (q : Primitive) (ms : List ClassId) (s : Ty)
      (hs : tbl.StepsUp (.primitive q ms) s) : ∃ q : Primitive, s = .primitive q [] := by
    obtain ⟨r, -, rfl⟩ := mem_map.mp (stepsUp_primitive.mp hs)
    exact ⟨r, rfl⟩
  rintro x (rfl | ⟨q, rfl⟩) s hs
  · exact .inr (hstep _ _ s hs)
  · exact .inr (hstep _ _ s hs)

theorem Orderly.finite_above_use (h : tbl.Orderly) (ht : t.Formed) : (tbl.above t).Finite := by
  induction t using h.wellFounded_supertype.induction with
  | _ t ih =>
    obtain ⟨ts, hts⟩ := h.exists_directSupers ht
    refine finite_above_of_stepsUp (fun s hs => (stepsUp_iff_mem hts.settles).mp hs) fun s hs => ?_
    have hsupertype := hts.supertype hs
    exact ih s ⟨ht, hsupertype⟩ (h.formed_of_supertype ht hsupertype)

/-- The bounds that the table declares for its type variables, and the root class, which bounds all
others. -/
def declaredBounds (tbl : Table) : Set Ty :=
  {b | ∃ v ts, tbl.boundsOf v = .ok ts ∧ b ∈ ts}

theorem finite_declaredBounds (tbl : Table) : tbl.declaredBounds.Finite := by
  let vars := (List.range tbl.classes.size).flatMap fun i => tbl.declaredVars ⟨i⟩
  have hfinite : (⋃ v ∈ {v | v ∈ vars}, {b | ∃ ts, tbl.boundsOf v = .ok ts ∧ b ∈ ts}).Finite := by
    refine vars.finite_toSet.biUnion fun v _ => ?_
    cases hts : tbl.boundsOf v with
    | error e => exact Set.finite_empty.subset fun b hb => by obtain ⟨_, h, -⟩ := hb; cases h
    | ok ts =>
      refine ts.finite_toSet.subset ?_
      rintro b ⟨ss, hss, hb⟩
      exact Except.ok.inj hss ▸ hb
  refine (hfinite.insert tbl.objectType).subset ?_
  rintro b ⟨v, ts, hts, hb⟩
  by_cases hbounds : (tbl.typeVar v).bounds = []
  · rw [boundsOf, hbounds] at hts
    cases hts
    exact .inl (mem_singleton.mp hb)
  · obtain ⟨i, hi, hv⟩ := mem_declaredVars hbounds
    have hvars : v ∈ vars := mem_flatMap.mpr ⟨i, mem_range.mpr hi, hv⟩
    exact .inr (Set.mem_biUnion hvars ⟨ts, hts, hb⟩)

/-- Above a variable there are declared bounds, and what is above those of them that are uses of
classes. -/
theorem Orderly.finite_above_var (h : tbl.Orderly) (hbounds : tbl.BoundedByUses) (n : Nat)
    (v : TypeVarId) (marks : List ClassId) : (tbl.above (.var n v marks)).Finite := by
  let uses := {b ∈ tbl.declaredBounds | b.Formed}
  have hdeclared := finite_declaredBounds tbl
  have huses : (⋃ b ∈ uses, tbl.above b).Finite :=
    (hdeclared.subset fun b hb => hb.1).biUnion fun b hb => h.finite_above_use hb.2
  refine finite_above_of_closed ((hdeclared.union huses).insert (.var n v marks))
    (Set.mem_insert _ _) ?_
  have hvar (n : Nat) (v : TypeVarId) (marks : List ClassId) (s : Ty)
      (hs : tbl.StepsUp (.var n v marks) s) : s ∈ tbl.declaredBounds := by
    obtain ⟨ts, hts, -⟩ := hbounds v
    exact ⟨v, ts, hts, (stepsUp_var hts).mp hs⟩
  rintro x (rfl | ⟨w, ts, hts, hx⟩ | hx) s hs
  · exact .inr (.inl (hvar n v marks s hs))
  · obtain ⟨ss, hss, hall⟩ := hbounds w
    cases hts.symm.trans hss
    rcases hall x hx with hkind | ⟨n', v', marks', rfl⟩
    · have hformed := formed_of_denoted (boundsOf_denoted hts x hx) hkind
      have hmem : x ∈ uses := ⟨⟨w, ts, hts, hx⟩, hformed⟩
      exact .inr (.inr (Set.mem_biUnion hmem (Relation.ReflTransGen.single hs)))
    · exact .inr (.inl (hvar n' v' marks' s hs))
  · obtain ⟨y, hy, hx⟩ := Set.mem_iUnion₂.mp hx
    exact .inr (.inr (Set.mem_biUnion hy (mem_above_of_stepsUp hx hs)))

/-- Above an array there are arrays of what is above its component, and what is above the roots of
arrays. -/
theorem Ascending.finite_above_array (h : tbl.Orderly) (hbounds : tbl.BoundedByUses)
    (ht : Ascending captures component)
    (hfinite : (tbl.above component).Finite) : (tbl.above (.array component marks)).Finite := by
  have hroots : (⋃ r ∈ {r | r ∈ tbl.arrayRoots}, tbl.above r).Finite := by
    refine tbl.arrayRoots.finite_toSet.biUnion fun r hr => ?_
    obtain ⟨c, -, rfl⟩ := mem_map.mp hr
    exact h.finite_above_use (Ty.formed_bare_class c [])
  let arrays := (fun x : Ty => Ty.array x []) '' tbl.above component
  have hasc (x : Ty) (hx : x ∈ tbl.above component) : Ascending captures x := by
    induction hx with
    | refl => exact ht
    | tail _ hs ih => exact ih.of_stepsUp h hbounds hs
  -- A wildcard above the component gives way to its upper bound, which is above the component, too.
  have horUpper (x : Ty) (hx : x ∈ tbl.above component) : x.orUpper ∈ tbl.above component := by
    cases hwildcard : x.isWildcard with
    | false => rwa [Ty.orUpper_eq_self hwildcard]
    | true =>
      obtain ⟨n, upper, lower, ms, rfl⟩ := Ty.exists_eq_wildcard hwildcard
      exact mem_above_of_stepsUp hx (stepsUp_wildcard.mpr mem_cons_self)
  have hstep (x : Ty) (ms : List ClassId) (hx : x ∈ tbl.above component) (s : Ty)
      (hs : tbl.StepsUp (.array x ms) s) :
      s ∈ arrays ∪ ⋃ r ∈ {r | r ∈ tbl.arrayRoots}, tbl.above r := by
    cases hroots : x.isPrimitive || tbl.isObject x with
    | true =>
      refine .inr (Set.mem_biUnion ?_ Relation.ReflTransGen.refl)
      exact (stepsUp_arrayRoots hroots).mp hs
    | false =>
      obtain ⟨y, hy, rfl⟩ := ((hasc x hx).stepsUp_array h hbounds hroots).mp hs
      exact .inl ⟨_, horUpper y (mem_above_of_stepsUp hx hy), rfl⟩
  have harrays : arrays.Finite := hfinite.image _
  refine finite_above_of_closed ((harrays.union hroots).insert (.array component marks))
    (Set.mem_insert _ _) ?_
  rintro x (rfl | ⟨y, hy, rfl⟩ | hx) s hs
  · exact .inr (hstep component marks Relation.ReflTransGen.refl s hs)
  · exact .inr (hstep y [] hy s hs)
  · obtain ⟨r, hr, hx⟩ := Set.mem_iUnion₂.mp hx
    exact .inr (.inr (Set.mem_biUnion hr (mem_above_of_stepsUp hx hs)))

/-- Finitely many types are reached from a type. -/
theorem Ascending.finite_above (h : tbl.Orderly) (hbounds : tbl.BoundedByUses)
    (ht : Ascending captures t) : (tbl.above t).Finite := by
  induction ht with
  | @flat t hflat =>
    cases t with
    | primitive p marks => exact finite_above_primitive p marks
    | none | void _ | null =>
      refine finite_above_of_stepsUp (fun s hs => ?_) (forall_mem_nil _)
      exact (stepsUp_iff_of_eq fun _ => rfl).mp hs
    | _ => cases hflat
  | use hformed => exact h.finite_above_use hformed
  | var n v marks => exact h.finite_above_var hbounds n v marks
  | captured _ _ ih =>
    exact finite_above_of_stepsUp (fun s hs => stepsUp_captured.mp hs)
      (forall_mem_singleton.mpr ih)
  | wildcard _ _ ih =>
    exact finite_above_of_stepsUp (fun s hs => stepsUp_wildcard.mp hs)
      (forall_mem_singleton.mpr ih)
  | intersection _ _ ih => exact finite_above_of_stepsUp (fun s hs => stepsUp_intersection.mp hs) ih
  | array _ hasc ih => exact hasc.finite_above_array h hbounds ih

/-! ### The closure -/

/-- The outermost layer of the type is as the constructors build it. It is no union, executable or
package, and a captured variable is the one that belongs to its token. -/
def Admissible (captures : Nat → Ty) : Ty → Prop
  | .array component _ => component.isWildcard = false
  | .declared _ args owner _ =>
    (∀ a ∈ args, a.isArgument = true) ∧ ∀ o ∈ owner, o.kind = .declared
  | .wildcard _ upper lower _ => isBadBound upper = false ∧ isBadBound lower = false
  | .captured token site upper lower marks =>
    (Ty.captured token site upper lower marks).bare = captures token
  | .intersection _ bounds => bounds ≠ []
  | .union _ _ | .executable _ _ _ _ _ _ | .package _ => False
  | _ => True

theorem suits_of_admissible (h : Admissible captures t) (hargument : t.isArgument = true) :
    t.Suits := by
  cases t with
  | wildcard n upper lower marks => exact ⟨hargument, h.1, h.2⟩
  | array | declared | var | captured | null => exact ⟨hargument, rfl, rfl⟩
  | _ => cases hargument

theorem ascending_of_every (h : t.Every (Admissible captures)) : Ascending captures t := by
  induction h with
  | @intro t top parts ih =>
    cases t with
    | primitive | none | void | null => exact .flat rfl
    | var n v marks => exact .var n v marks
    | array component marks => exact .array top (ih component mem_cons_self)
    | wildcard n upper lower marks =>
      have hupper : isBadBound upper = false := top.1
      simp only [isBadBound, Bool.or_eq_false_iff] at hupper
      exact .wildcard hupper.1.1 (ih upper mem_cons_self)
    | captured token site upper lower marks => exact .captured top (ih upper mem_cons_self)
    | intersection n bounds => exact .intersection top ih
    | declared c args owner marks =>
      refine .use (.intro (fun a ha => ?_) fun o ho => ?_)
      · exact suits_of_admissible (parts a (mem_append_left _ ha)).top (top.1 a ha)
      · have hasc := ih o (mem_append_right _ (Option.mem_toList.mpr ho))
        obtain ⟨_, _, _, _, rfl⟩ := Ty.exists_eq_declared (top.2 o ho)
        cases hasc with
        | use hformed => exact hformed
        | flat hflat => cases hflat
    | _ => cases top

theorem Ascending.respects (h : tbl.Orderly) (hbounds : tbl.BoundedByUses) (captures : Nat → Ty) :
    tbl.Respects (Ascending captures) where
  stepsUp _ _ hx hy := hx.of_stepsUp h hbounds hy
  same _ _ _ hx hy hsame hs := hx.same_of_stepsUp h hbounds hy hsame hs

theorem searched_start {ss : List Ty} (h : ∀ s, s ∈ ss ↔ tbl.StepsUp t s) :
    tbl.Searched t (ss.map (1, ·)) [t] where
  start := mem_cons_self
  reached := by
    intro x hx
    obtain ⟨s, hs, rfl⟩ := mem_map.mp hx
    exact .step .start ((h s).mp hs)
  met := forall_mem_singleton.mpr ⟨0, .start⟩
  nearby := pairwise_map.mpr (pairwise_of_forall fun _ _ => ⟨Nat.le_refl 1, Nat.le_succ 1⟩)
  separate := pairwise_singleton _ _
  ordered := pairwise_singleton _ _
  before := by
    refine forall_mem_singleton.mpr fun x hx => ?_
    obtain ⟨s, -, rfl⟩ := mem_map.mp hx
    exact Nat.le_trans (distance_le .start (Ty.same_refl t)) (Nat.zero_le 1)
  closed := by
    refine forall_mem_singleton.mpr fun u hu => .inr ⟨(1, u), ?_, ?_, Ty.same_refl u⟩
    · exact mem_map.mpr ⟨u, (h u).mpr hu, rfl⟩
    · exact Nat.le_add_left 1 _

/-- A type and its proper supertypes are listed by a search that comes to its end, if finitely many
types are reached. -/
theorem Respects.exists_searched {p : Ty → Prop} (hp : tbl.Respects p)
    (hdirect : ∀ x, p x → ∃ xs, Settles (fun k => (tbl.directSupertypes k x : Result (List Ty))) xs)
    (ht : p t) (hfinite : (tbl.above t).Finite) :
    ∃ ts, Settles (fun k => (tbl.ancestorsWith (tbl.leastUpperBounds k) k t : Result (List Ty)))
        (t :: ts) ∧ tbl.Searched t [] (t :: ts).reverse := by
  have hreached (x : Ty) (hx : x ∈ tbl.above t) : p x := by
    induction hx with
    | refl => exact ht
    | tail _ hs ih => exact hp.stepsUp _ _ ih hs
  have habove (x : Ty) (hx : x ∈ tbl.above t) : ∃ xs,
      Settles (fun k => (tbl.directSupertypes k x : Result (List Ty))) xs ∧
        ∀ s ∈ xs, s ∈ tbl.above t := by
    obtain ⟨xs, hxs⟩ := hdirect x (hreached x hx)
    exact ⟨xs, hxs, fun s hs => mem_above_of_stepsUp hx ((stepsUp_iff_mem hxs).mpr hs)⟩
  obtain ⟨ss, hss, hstart⟩ := habove t .refl
  obtain ⟨out, hout⟩ := exists_expandSupertypes_of_finite hfinite habove ss [t] hstart
  obtain ⟨ts, hts, k, -, hexpand⟩ :=
    exists_ancestors_of_expand hss (hout id fun k => Nat.le_refl k)
  have hsteps (x : Ty) (xs : List Ty) (hx : p x)
      (hxs : (tbl.directSupertypes k x : Result (List Ty)) = .ok xs) (y : Ty) :
      y ∈ xs ↔ tbl.StepsUp x y := by
    obtain ⟨xs', hxs'⟩ := hdirect x hx
    rw [stepsUp_iff_mem hxs', hxs'.eq_of_ok hxs]
  have hrun : (expandSupertypes (tbl.directSupertypes k) k ((ss.map (1, ·)).map Prod.snd) [t] :
      Result (List Ty)) = .ok (t :: ts) := by
    rw [map_map]
    exact (congrArg (expandSupertypes _ k · [t]) (map_id ss)).trans hexpand
  refine ⟨ts, hts, ?_⟩
  exact (searched_start fun s => (stepsUp_iff_mem hss).symm).of_expandSupertypes hp ht hsteps hrun

theorem Ascending.exists_searched (h : tbl.Orderly) (hbounds : tbl.BoundedByUses)
    (ht : Ascending captures t) :
    ∃ ts, Settles (fun k => (tbl.ancestorsWith (tbl.leastUpperBounds k) k t : Result (List Ty)))
        (t :: ts) ∧ tbl.Searched t [] (t :: ts).reverse :=
  (Ascending.respects h hbounds captures).exists_searched
    (fun _ hx => (hx.exists_directSupertypes h hbounds).imp fun _ hxs => hxs.1) ht
    (ht.finite_above h hbounds)

/-- The proper supertypes of a type are listed, even if type variables bound each other. They are
the types other than the type itself that are reached by one step or more to direct supertypes, each
once, and the number of steps does not decrease. -/
theorem Orderly.allSupertypes_closure (h : tbl.Orderly) (hbounds : tbl.BoundedByUses)
    (ht : t.Every (Admissible captures)) :
    ∃ ts, Settles (fun k => (tbl.allSupertypes k t : Result (List Ty))) ts ∧
      (∀ s : Ty, s.isIn ts = true ↔
        s.same t = false ∧ ∃ n x, tbl.ReachedIn t (n + 1) x ∧ s.same x = true) ∧
      Ty.Separate ts ∧ ts.Pairwise fun x y => tbl.distance t x ≤ tbl.distance t y := by
  have hasc := ascending_of_every ht
  have hrespects := Ascending.respects h hbounds captures
  obtain ⟨ts, hts, hsearched⟩ := hasc.exists_searched h hbounds
  have hseparate : Ty.Separate (t :: ts) :=
    (pairwise_reverse.mp hsearched.separate).imp Ty.same_eq_false_symm
  obtain ⟨hnew, hseparate⟩ := pairwise_cons.mp hseparate
  refine ⟨ts, hts.bind (.ok ts), fun s => ⟨fun hs => ?_, ?_⟩, hseparate,
    (pairwise_cons.mp (pairwise_reverse.mp hsearched.ordered)).2⟩
  · obtain ⟨x, hx, hsx⟩ := any_eq_true.mp hs
    obtain ⟨n, hn⟩ := hsearched.met x (mem_reverse.mpr (mem_cons_of_mem t hx))
    cases n with
    | zero =>
      cases hn
      cases (hnew t hx).symm.trans (Ty.same_refl t)
    | succ n =>
      refine ⟨Bool.eq_false_iff.mpr fun hst => ?_, n, x, hn, hsx⟩
      cases (hnew x hx).symm.trans (Ty.same_trans (Ty.same_symm hst) hsx)
  · rintro ⟨hst, n, x, hx, hsx⟩
    have hin := isIn_of_same hsx (hsearched.isIn_of_lt hrespects hasc hx (forall_mem_nil _))
    rw [Ty.isIn, any_reverse, any_cons, hst, Bool.false_or] at hin
    exact hin

/-- Two type variables bound each other, and one of them also bounds itself through an interface.
The type is a wildcard whose bound is an array of a captured variable. -/
theorem allSupertypes_closure_mutual :
    let tbl : Table := {
      classes := #[
        { name := "java.lang.Object", simpleName := "Object", kind := .cls },
        { name := "p.N", simpleName := "N", kind := .interface,
          typeParameters := [{ name := "T" }] },
        { name := "p.G", simpleName := "G", kind := .cls, typeParameters :=
            [{ name := "T", bounds := [.var ⟨.cls ⟨2⟩, 1⟩ []] },
              { name := "U", bounds := [.var ⟨.cls ⟨2⟩, 0⟩ [],
                .applied ⟨1⟩ [.var ⟨.cls ⟨2⟩, 1⟩ []] none []] }] }] }
    let x : Ty := .captured 4 0 (.var 0 ⟨.cls ⟨2⟩, 0⟩ []) .null []
    let t : Ty := .wildcard 0 (.array x []) .null []
    (tbl.Orderly ∧ tbl.BoundedByUses ∧ t.Every (Admissible fun _ => x)) ∧
      ∃ ts, Settles (fun k => (tbl.allSupertypes k t : Result (List Ty))) ts ∧
        (∀ s : Ty, s.isIn ts = true ↔
          s.same t = false ∧ ∃ n y, tbl.ReachedIn t (n + 1) y ∧ s.same y = true) ∧
        Ty.Separate ts ∧ ts.Pairwise fun y z => tbl.distance t y ≤ tbl.distance t z := by
  intro tbl x t
  have h : tbl.Orderly := orderly_of_isLayered (by rfl) (by rfl) (by rfl)
  have hbounds : tbl.BoundedByUses := boundedByUses_of_testBounds (by rfl)
  have hx : x.Every (Admissible fun _ => x) :=
    .intro rfl (forall_mem_cons.mpr
      ⟨.leaf trivial rfl, forall_mem_singleton.mpr (.leaf trivial rfl)⟩)
  have ht : t.Every (Admissible fun _ => x) := .wildcard ⟨rfl, rfl⟩ (.array rfl hx)
    (.leaf trivial rfl)
  exact ⟨⟨h, hbounds, ht⟩, h.allSupertypes_closure hbounds ht⟩

set_option maxRecDepth 20000 in
/-- It is not enough that supertype expressions name classes. One with a primitive type as argument
names a class but denotes no type, so that there is no list of supertypes. -/
theorem allSupertypes_fails_for_primitive_argument :
    let tbl : Table := {
      classes := #[
        { name := "java.lang.Object", simpleName := "Object", kind := .cls },
        { name := "p.L", simpleName := "L", kind := .interface,
          typeParameters := [{ name := "E" }] },
        { name := "int", simpleName := "int", kind := .primitive },
        { name := "p.C", simpleName := "C", kind := .cls, superclass := some (.named ⟨0⟩ []),
          interfaces := [.applied ⟨1⟩ [.named ⟨2⟩ []] none []] }] }
    let t : Ty := .declared ⟨3⟩ [] none []
    (tbl.Rooted ∧ (WellFounded fun d c => tbl.Extends c d) ∧
        (∀ c, ∃ ds, tbl.rawSupertypes c = .ok ds) ∧ tbl.BoundedByUses ∧
        t.Every (Admissible fun _ => .null)) ∧
      ∀ k, (tbl.allSupertypes k t : Result (List Ty)) =
        .error (.kind (.typeArgument (.primitive .int))) := by
  intro tbl t
  have hlayered : tbl.isLayered = true := by rfl
  have ht : t.Every (Admissible fun _ => .null) := .declared ⟨nofun, nofun⟩ nofun nofun
  exact ⟨⟨rooted_of_isRooted (by rfl), acyclic_of_isLayered hlayered,
    exists_rawSupertypes_of_isLayered hlayered, boundedByUses_of_testBounds (by rfl), ht⟩,
    fun k => rfl⟩

end Table

end NominalTypes
