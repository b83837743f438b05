import NominalTypes.Proofs.ErasureBound
import NominalTypes.Proofs.Termination

/-!
# Enumerated supertypes are supertypes

The supertypes of a type are enumerated breadth first, by a rule for each kind of type
(`Table.Rises`). The subtype check goes up in another way: it looks for the one use of a class that
a type inherits and compares arguments. The two agree. A use of a class inherits at most one use of
each class, if no class inherits two; so the one that the check finds is the one that was
enumerated. All other types rise to such uses through bounds, members and components, and the check
follows them.

The ways up that do not go through supertypes of classes are described by `Table.Climbable`, and
what the check does on them by `Table.Lifts`. The check may fail to end where an intersection offers
it several ways, and where it first compares with the lower bound of a captured variable.
-/

namespace NominalTypes

open List

variable {marks : List ClassId} {c : ClassId}

/-- Members of an intersection and the upper bound of a captured variable are reference types. -/
def Ty.Joined : Ty → Prop
  | captured _ _ upper _ _ => upper.isReference = true
  | intersection _ bounds => ∀ b ∈ bounds, b.isReference = true
  | _ => True

instance Ty.decidableJoined : DecidablePred Ty.Joined
  | captured _ _ upper _ _ => inferInstanceAs (Decidable (upper.isReference = true))
  | intersection _ bounds => inferInstanceAs (Decidable (∀ b ∈ bounds, b.isReference = true))
  | primitive _ _ | none | void _ | null | array _ _ | declared _ _ _ _ | var _ _ _
  | wildcard _ _ _ _ | union _ _ | executable _ _ _ _ _ _ | package _ => isTrue trivial

namespace Table

/-- The second type is directly above the first. -/
inductive Rises (tbl : Table) : Ty → Ty → Prop
  | use {t s} (h : tbl.Supertype t s) : Rises tbl t s
  | bound {n v marks ts s} (hts : tbl.boundsOf v = .ok ts) (hs : s ∈ ts) :
    Rises tbl (.var n v marks) s
  | upper {token site upper lower marks} : Rises tbl (.captured token site upper lower marks) upper
  | member {n bounds b} (hb : b ∈ bounds) : Rises tbl (.intersection n bounds) b
  | widens {p q marks} (hq : p.next? = some q) : Rises tbl (.primitive p marks) (.primitive q [])
  | component {t s marks} (ht : t.isPrimitive = false) (h : Rises tbl t s) :
    Rises tbl (.array t marks) (.array s [])
  | array {t marks d} (hd : d ∈ tbl.arrayClasses) :
    Rises tbl (.array t marks) (.declared d [] none [])

/-- The ways up from a type through bounds of variables, members of intersections and components of
arrays end. They pass reference types only, except that a component may be of another kind. The uses
of classes, captured variables and intersections that they meet have the property `q`. -/
inductive Climbable (tbl : Table) (q : Ty → Prop) : Ty → Prop
  | flat {t} (h : (t.isPrimitive || t.isNoType) = true) : Climbable tbl q t
  | null : Climbable tbl q .null
  | use {c args owner marks} (h : q (.declared c args owner marks)) :
    Climbable tbl q (.declared c args owner marks)
  | bound {n v marks u} (hu : tbl.upperBound v = .ok u) (href : u.isReference = true)
    (h : Climbable tbl q u) : Climbable tbl q (.var n v marks)
  | upper {token site upper lower marks} (hq : q (.captured token site upper lower marks))
    (href : upper.isReference = true) (h : Climbable tbl q upper) :
    Climbable tbl q (.captured token site upper lower marks)
  | member {n bounds} (hq : q (.intersection n bounds)) (href : ∀ b ∈ bounds, b.isReference = true)
    (h : ∀ b ∈ bounds, Climbable tbl q b) : Climbable tbl q (.intersection n bounds)
  | component {t marks} (h : Climbable tbl q t) : Climbable tbl q (.array t marks)

/-- A use of a class that is not raw. -/
def NotRaw (tbl : Table) (t : Ty) : Prop :=
  ∀ c args owner marks, t = .declared c args owner marks → tbl.isRaw c args = false

/-- No class inherits two different uses of the same class, and each type parameter that a supertype
mentions has an argument on the way up. The bounds of type variables are uses of classes and type
variables, and not cyclic. There is nothing but the root class above the classes that are above all
arrays and above the stand-ins for primitive types. -/
structure Ranked (tbl : Table) : Prop where
  obeys : tbl.Obeys .full
  coherent : tbl.Coherent
  wellScoped : tbl.Scoped
  bounds : ∀ v ts, tbl.boundsOf v = .ok ts →
    ∀ b ∈ ts, b.kind = .declared ∨ ∃ n w marks, b = .var n w marks
  grounded : tbl.Grounded
  arrays : tbl.ArraysRooted
  primitives : ∀ c, (tbl.cls c).isPrimitive = true → tbl.supertypeExprs c = []

variable {tbl : Table} {S : Shape} {q : Ty → Prop} {s t : Ty}

/-! ### One step -/

theorem Climbable.mono {q'} (h : tbl.Climbable q t) (hq : ∀ x, q x → q' x) :
    tbl.Climbable q' t := by
  induction h with
  | flat h => exact .flat h
  | null => exact .null
  | use h => exact .use (hq _ h)
  | bound hu href _ ih => exact .bound hu href ih
  | upper h href _ ih => exact .upper (hq _ h) href ih
  | member h href _ ih => exact .member (hq _ h) href ih
  | component _ ih => exact .component ih

theorem climbable_of_kind (h : t.kind = .declared) (hq : q t) : tbl.Climbable q t := by
  obtain ⟨c, args, owner, marks, rfl⟩ := Ty.exists_eq_declared h
  exact .use hq

theorem Climbable.of_kind (h : tbl.Climbable q t) (hkind : t.kind = .declared) : q t := by
  obtain ⟨c, args, owner, marks, rfl⟩ := Ty.exists_eq_declared hkind
  cases h with
  | flat h => cases h
  | use h => exact h

theorem Supertype.kind (h : tbl.Supertype t s) : t.kind = .declared := by
  obtain ⟨_, _, _, _, _, _, rfl, -⟩ := h
  rfl

/-- What is above a climbable type is climbable, and of the same sort. -/
theorem Climbable.of_rises (h : tbl.Climbable q t)
    (hq : ∀ x y, q x → tbl.Supertype x y → q y)
    (hroots : ∀ d ∈ tbl.arrayClasses, q (.declared d [] none [])) (hobeys : tbl.Obeys S)
    (ht : tbl.Within S t) (hs : tbl.Rises t s) :
    tbl.Climbable q s ∧ (t.isReference = true → s.isReference = true) := by
  induction hs with
  | use hsupertype =>
    have hkind := (hobeys.invokes_of_supertype (ht.invokes hsupertype.kind).maps hsupertype).1
    have hs := hq _ _ (h.of_kind hsupertype.kind) hsupertype
    refine ⟨climbable_of_kind hkind hs, fun _ => ?_⟩
    obtain ⟨_, _, _, _, rfl⟩ := Ty.exists_eq_declared hkind
    rfl
  | bound hts hmem =>
    cases h with
    | flat h => cases h
    | bound hu href h =>
      rcases upperBound_cases hts hu with rfl | rfl
      · cases mem_singleton.mp hmem
        exact ⟨h, fun _ => href⟩
      · cases h with
        | flat h => cases h
        | member _ href h => exact ⟨h _ hmem, fun _ => href _ hmem⟩
  | upper =>
    cases h with
    | flat h => cases h
    | upper _ href h => exact ⟨h, fun _ => href⟩
  | member hb =>
    cases h with
    | flat h => cases h
    | member _ href h => exact ⟨h _ hb, fun _ => href _ hb⟩
  | widens => exact ⟨.flat rfl, nofun⟩
  | component _ _ ih =>
    cases h with
    | flat h => cases h
    | component h => exact ⟨.component (ih h ht.component).1, fun _ => rfl⟩
  | array hd => exact ⟨.use (hroots _ hd), fun _ => rfl⟩

theorem Invokes.within (h : tbl.Invokes S t) (hraw : S.raw = true) : tbl.Within S t := by
  obtain ⟨c, args, owner, marks, rfl⟩ := Ty.exists_eq_declared h.1
  refine ⟨rfl, .intro ⟨h.2.1.1.imp_right fun hnil => ⟨hnil.1, hraw⟩, h.2.1.2⟩ h.2.2⟩

theorem within_bare_class (hraw : S.raw = true) (c : ClassId) (marks : List ClassId) :
    tbl.Within S (.declared c [] none marks) :=
  (invokes_bare_class c marks).within hraw

theorem Obeys.within_of_rises (h : tbl.Obeys S) (hraw : S.raw = true) (ht : tbl.Within S t)
    (hs : tbl.Rises t s) : tbl.Within S s := by
  induction hs with
  | use hsupertype =>
    exact (h.invokes_of_supertype (ht.invokes hsupertype.kind).maps hsupertype).within hraw
  | bound hts hmem =>
    obtain ⟨ts, hts', hwithin, -⟩ := h.bounds _
    cases hts.symm.trans hts'
    exact hwithin _ hmem
  | upper => exact ht.capturedUpper
  | member hb => exact ht.member hb
  | widens => exact ⟨rfl, .leaf trivial rfl⟩
  | component _ _ ih =>
    have hs := ih ht.component
    exact ⟨rfl, .array hs.1 hs.2⟩
  | array => exact within_bare_class hraw _ _

theorem makeArray_orUpper (h : s.isProper = true) (marks : List ClassId) :
    makeArray s.orUpper marks = .ok (.array s marks) := by
  cases s <;> first | rfl | cases h

/-- The types directly above a type are found, and the type rises to them. -/
theorem Obeys.exists_typesAbove (h : tbl.Obeys S) (hraw : S.raw = true) (ht : tbl.Within S t)
    (lub : Nat → List Ty → Result (List Ty)) :
    ∃ ts, Settles (fun k => tbl.typesAboveWith (lub k) k t) ts ∧ ∀ s ∈ ts, tbl.Rises t s := by
  induction t using Ty.children_induction with
  | step t ih =>
    cases t with
    | declared c args owner marks =>
      obtain ⟨ts, hts⟩ := h.toOrderly.exists_directSupers (ht.invokes rfl).formed
      refine ⟨ts, ?_, fun s hs => .use (hts.supertype hs)⟩
      obtain ⟨_, _, _, _, heq, hsettles, -⟩ := hts
      cases heq
      exact hsettles
    | var n v marks =>
      obtain ⟨ts, hts, -⟩ := h.bounds v
      refine ⟨ts, ?_, fun s hs => .bound hts hs⟩
      simp only [typesAboveWith, hts]
      exact .ok ts
    | array component marks =>
      by_cases hroots : (component.isPrimitive || tbl.isObject component) = true
      · refine ⟨tbl.arrayRoots, ?_, fun s hs => ?_⟩
        · simp only [typesAboveWith, hroots]
          exact .ok _
        · obtain ⟨d, hd, rfl⟩ := mem_map.mp hs
          exact .array hd
      · obtain ⟨ts, hts, hrises⟩ := ih component mem_cons_self ht.component
        refine ⟨ts.map fun s => .array s [], ?_, fun x hx => ?_⟩
        · simp only [typesAboveWith, hroots]
          refine hts.bind (Settles.mapM ?_)
          refine forall₂_map_right_iff.mpr (forall₂_same.mpr fun s hs => ?_)
          have hwithin := h.within_of_rises hraw ht.component (hrises s hs)
          simp only [makeArray_orUpper hwithin.1]
          exact .ok _
        · obtain ⟨s, hs, rfl⟩ := mem_map.mp hx
          simp only [Bool.or_eq_true, not_or, Bool.not_eq_true] at hroots
          exact .component hroots.1 (hrises s hs)
    | intersection n bounds => exact ⟨bounds, .ok _, fun b hb => .member hb⟩
    | captured token site upper lower marks =>
      exact ⟨[upper], .ok _, forall_mem_singleton.mpr .upper⟩
    | primitive p marks =>
      refine ⟨p.next?.toList.map fun q => .primitive q [], .ok _, fun x hx => ?_⟩
      obtain ⟨q, hq, rfl⟩ := mem_map.mp hx
      exact .widens (Option.mem_toList.mp hq)
    | none | void _ | null => exact ⟨[], .ok _, forall_mem_nil _⟩
    | _ => cases ht.1

/-! ### All the way up -/

/-- The first type is directly above the second, which is one to be enumerated. -/
def Upward (tbl : Table) (s t : Ty) : Prop :=
  tbl.Within .full t ∧ tbl.Climbable (fun _ => True) t ∧ tbl.Rises t s

theorem Orderly.acc_upward_use (h : tbl.Orderly) (ht : t.Formed) : Acc tbl.Upward t := by
  induction t using h.wellFounded_supertype.induction with
  | _ t ih =>
    refine .intro t fun s ⟨_, _, hs⟩ => ?_
    cases hs with
    | use hs => exact ih s ⟨ht, hs⟩ (h.formed_of_supertype ht hs)
    | _ => cases ht

theorem acc_upward_primitive (p : Primitive) (marks : List ClassId) :
    Acc tbl.Upward (.primitive p marks) := by
  induction hn : p.wider.length using Nat.strong_induction_on generalizing p marks with
  | _ n ih =>
    subst hn
    refine .intro _ fun s ⟨_, _, hs⟩ => ?_
    cases hs with
    | use hs => cases hs.kind
    | widens hq =>
      refine ih _ ?_ _ [] rfl
      revert hq
      cases p <;> rintro ⟨⟩ <;> decide

theorem Orderly.acc_upward_array (h : tbl.Orderly) (ht : Acc tbl.Upward t) :
    Acc tbl.Upward (.array t marks) := by
  induction ht generalizing marks with
  | intro t _ ih =>
    refine .intro _ fun s ⟨hwithin, hclimbable, hs⟩ => ?_
    cases hs with
    | use hs => cases hs.kind
    | component _ hs =>
      cases hclimbable with
      | flat h => cases h
      | component hclimbable => exact ih _ ⟨hwithin.component, hclimbable, hs⟩
    | array => exact h.acc_upward_use (Ty.formed_bare_class _ _)

/-- There is no endless way up from a type that is climbable. -/
theorem Obeys.acc_upward (h : tbl.Obeys .full) (hclimbable : tbl.Climbable q t)
    (ht : tbl.Within .full t) : Acc tbl.Upward t := by
  induction hclimbable with
  | @flat t hflat =>
    cases t with
    | primitive p marks => exact acc_upward_primitive p marks
    | none | void _ =>
      refine .intro _ fun s ⟨_, _, hs⟩ => ?_
      cases hs with
      | use hs => cases hs.kind
    | _ => cases hflat
  | null =>
    refine .intro _ fun s ⟨_, _, hs⟩ => ?_
    cases hs with
    | use hs => cases hs.kind
  | use => exact h.toOrderly.acc_upward_use (ht.invokes rfl).formed
  | @bound n v marks u hu _ hclimbable ih =>
    obtain ⟨ts, u', hts, hu', hwithin, hcases⟩ := h.exists_upperBound v
    cases hu.symm.trans hu'
    have hacc := ih hwithin
    refine .intro _ fun s ⟨_, _, hs⟩ => ?_
    cases hs with
    | use hs => cases hs.kind
    | bound hts' hmem =>
      cases hts.symm.trans hts'
      rcases hcases with rfl | rfl
      · cases mem_singleton.mp hmem
        exact hacc
      · exact hacc.inv ⟨hwithin, hclimbable.mono fun _ _ => trivial, .member hmem⟩
  | upper _ _ _ ih =>
    refine .intro _ fun s ⟨_, _, hs⟩ => ?_
    cases hs with
    | use hs => cases hs.kind
    | upper => exact ih ht.capturedUpper
  | member _ _ _ ih =>
    refine .intro _ fun s ⟨_, _, hs⟩ => ?_
    cases hs with
    | use hs => cases hs.kind
    | member hb => exact ih _ hb (ht.member hb)
  | component _ ih => exact h.toOrderly.acc_upward_array (ih ht.component)

theorem Obeys.wellFounded_upward (h : tbl.Obeys .full) : WellFounded tbl.Upward := by
  refine ⟨fun t => .intro t fun s ⟨ht, hclimbable, hs⟩ => ?_⟩
  exact (h.acc_upward hclimbable ht).inv ⟨ht, hclimbable, hs⟩

/-- All types above a type are found, and the type rises to them. -/
theorem Obeys.exists_rises (h : tbl.Obeys .full) (ht : tbl.Within .full t)
    (hclimbable : tbl.Climbable q t) :
    ∃ ts, Settles (fun k => (tbl.allSupertypes k t : Result (List Ty))) ts ∧
      ∀ s ∈ ts, Relation.ReflTransGen tbl.Rises t s := by
  have hdirect (x : Ty) (hx : tbl.Within .full x ∧ tbl.Climbable (fun _ => True) x) : ∃ xs,
      Settles (fun k => (tbl.directSupertypes k x : Result (List Ty))) xs ∧
        ∀ s ∈ xs, (tbl.Within .full s ∧ tbl.Climbable (fun _ => True) s) ∧ tbl.Upward s x := by
    obtain ⟨xs, hxs, hrises⟩ := h.exists_typesAbove rfl hx.1 tbl.leastUpperBounds
    simp only [directSupertypes, directSupertypesWith_eq_typesAboveWith]
    refine ⟨xs, hxs, fun s hs => ⟨⟨?_, ?_⟩, hx.1, hx.2, hrises s hs⟩⟩
    · exact h.within_of_rises rfl hx.1 (hrises s hs)
    · exact (hx.2.of_rises (fun _ _ _ _ => trivial) (fun _ _ => trivial) h hx.1 (hrises s hs)).1
  obtain ⟨ts, hts, hlisted, -⟩ := exists_allSupertypes_of h.wellFounded_upward hdirect
    ⟨ht, hclimbable.mono fun _ _ => trivial⟩
  refine ⟨ts, hts, fun s hs => ?_⟩
  exact Relation.ReflTransGen.mono (fun _ _ hxy => hxy.2.2) _ _
    (hlisted s (mem_cons_of_mem _ hs)).2

/-! ### Uses of classes -/

/-- The types are equal up to annotations and occurrences, and of the shape. -/
def Coincide (tbl : Table) (S : Shape) (s t : Ty) : Prop :=
  s.bare = t.bare ∧ tbl.Within S s

theorem Coincide.sub (h : tbl.Coincide S s t) : tbl.Sub s t :=
  .refl h.1

theorem contained_of_bare_eq {a b} (ha : tbl.Admits S a) (h : a.bare = b.bare) :
    Contained (tbl.Coincide S) a b := by
  cases hb : b.isWildcard with
  | false => exact .same hb h
  | true =>
    have hadmits := ha.of_bare_eq h
    obtain ⟨n, upper, lower, marks, rfl⟩ := Ty.exists_eq_wildcard hb
    obtain ⟨_, _, _, _, rfl, hupper, hlower⟩ := Ty.eq_wildcard_of_bare_eq h
    exact .between ⟨hupper, ha.orUpper⟩ ⟨hlower.symm, hadmits.orLower⟩

/-- A type is below the use of a class that it inherits, whatever the occurrences. -/
theorem subStep_of_resolves {d args owner x} (hx : tbl.Invokes S x)
    (hr : tbl.Resolves (.declared c args owner marks) d (some x)) (hs : Ty.Uses d s)
    (heq : x.bare = s.bare) :
    tbl.SubStep (tbl.Coincide S) (.declared c args owner marks) s := by
  obtain ⟨es, o', ms', rfl⟩ := hs
  obtain ⟨ds, o, ms, rfl, hargs, howner⟩ := Ty.eq_declared_of_bare_eq heq
  refine .invocation hr ?_ (fun b a hba => ?_) fun x' hx' y hy => ?_
  · rcases es with _ | ⟨e, es⟩
    · exact .inl rfl
    · refine .inr fun hnil => ?_
      rw [hnil] at hargs
      cases hargs
  · have hall : Forall₂ (fun b a : Ty => b.bare = a.bare) es ds := by
      refine (forall₂_map_left_iff (R := fun x a : Ty => x = a.bare)).mp ?_
      refine (forall₂_map_right_iff (R := Eq)).mp ?_
      rw [hargs]
      exact forall₂_refl _
    exact contained_of_bare_eq (hx.admits (of_mem_zip hba).2)
      ((forall₂_iff_zip.mp hall).2 hba).symm
  · obtain ⟨z, hz, heq'⟩ := Ty.exists_mem_of_owner_bare_eq howner hy
    cases Option.some.inj (hx'.symm.trans hz)
    exact ⟨heq', hx.within_owner hx'⟩

/-- There is only the root class above a class that declares no supertypes. -/
theorem Rooted.eq_of_reaches (h : tbl.Rooted) (hc : Ty.Uses c t)
    (hexprs : tbl.supertypeExprs c = []) (hs : tbl.Reaches t s) : s = t ∨ s = tbl.objectType := by
  induction hs with
  | refl => exact .inl rfl
  | tail _ hsupertype ih =>
    obtain ⟨k, d, args, owner, marks, ts, rfl, hts, hmem⟩ := hsupertype
    have hexprs : tbl.supertypeExprs d = [] := by
      rcases ih with rfl | hobject
      · obtain ⟨_, _, _, hc⟩ := hc
        cases hc
        exact hexprs
      · cases hobject
        exact h.supertypeExprs
    rw [declaredSupertypes_of_nil hexprs] at hts
    cases hts
    split_ifs at hmem
    · cases hmem
    · exact .inr (mem_singleton.mp hmem)

theorem Ranked.subStep_of_primitive (h : tbl.Ranked) (hc : Ty.Uses c t)
    (hprimitive : (tbl.cls c).isPrimitive = true) (hs : tbl.Reaches t s) :
    tbl.SubStep (tbl.Coincide S) t s := by
  rcases h.obeys.rooted.eq_of_reaches hc (h.primitives c hprimitive) hs with rfl | rfl
  · exact .refl rfl
  · obtain ⟨_, _, _, rfl⟩ := hc
    exact .root rfl h.obeys.rooted.isObject_objectType

section Uses

variable {args : List Ty} {owner : Option Ty}

theorem Orderly.exists_resolves_of_reaches (h : tbl.Orderly)
    (hformed : (Ty.declared c args owner marks).Formed)
    (hprimitive : (tbl.cls c).isPrimitive = false)
    (hs : tbl.Reaches (.declared c args owner marks) s) :
    ∃ d x, Ty.Uses d s ∧ tbl.Resolves (.declared c args owner marks) d (some x) := by
  obtain ⟨d, hd⟩ := Ty.exists_uses (h.formed_of_reaches hformed hs).kind
  obtain ⟨r, hr, -, hsome⟩ := h.exists_resolves (p := fun _ => True) (fun _ _ _ _ _ => trivial)
    hformed trivial d
  cases r with
  | none =>
    refine absurd rfl (hsome c ⟨_, _, _, rfl⟩ hprimitive ?_)
    exact h.inherits_of_reaches hformed hs ⟨_, _, _, rfl⟩ hd
  | some x => exact ⟨d, x, hd, hr⟩

/-- A use of a class that is not raw is below all uses of classes that it inherits. -/
theorem Ranked.subStep_of_reaches (h : tbl.Ranked) (hpatterned : tbl.Patterned S)
    (ht : tbl.Invokes .full (.declared c args owner marks))
    (ht' : tbl.Invokes S (.declared c args owner marks)) (hraw : tbl.isRaw c args = false)
    (hs : tbl.Reaches (.declared c args owner marks) s) :
    tbl.SubStep (tbl.Coincide S) (.declared c args owner marks) s := by
  cases hprimitive : (tbl.cls c).isPrimitive with
  | true => exact h.subStep_of_primitive ⟨_, _, _, rfl⟩ hprimitive hs
  | false =>
    have horderly := h.obeys.toOrderly
    obtain ⟨d, x, hd, hr⟩ := horderly.exists_resolves_of_reaches ht.formed hprimitive hs
    obtain ⟨hx, hdx⟩ := horderly.reaches_of_resolves ht.formed hr
    exact subStep_of_resolves (horderly.invokes_of_reaches hpatterned ht' hx) hr hd
      (h.obeys.bare_eq_of_reaches h.wellScoped h.coherent ht hraw hx hs hdx hd)

/-- A raw use of a class is below its direct supertypes, which are erased. -/
theorem Ranked.subStep_of_raw (h : tbl.Ranked)
    (ht : tbl.Invokes .full (.declared c args owner marks)) (hraw : tbl.isRaw c args = true)
    (hs : tbl.Supertype (.declared c args owner marks) s) :
    tbl.SubStep (tbl.Coincide S) (.declared c args owner marks) s := by
  cases hprimitive : (tbl.cls c).isPrimitive with
  | true => exact h.subStep_of_primitive ⟨_, _, _, rfl⟩ hprimitive (.single hs)
  | false =>
    have horderly := h.obeys.toOrderly
    obtain ⟨d, x, hd, hr⟩ := horderly.exists_resolves_of_reaches ht.formed hprimitive (.single hs)
    obtain ⟨ts, ⟨_, _, _, _, heq, -, hsupers⟩, hmem⟩ := horderly.exists_of_supertype ht.formed hs
    cases heq
    cases hsupers with
    | root => cases hmem
    | top =>
      rw [mem_singleton.mp hmem]
      exact .root rfl h.obeys.rooted.isObject_objectType
    | erased _ hps =>
      obtain ⟨p, hp, rfl⟩ := mem_map.mp hmem
      obtain ⟨e, es, o, ms, rfl⟩ := Ty.exists_eq_declared (h.obeys.invokes_pattern hps p hp).1
      cases hd.unique ⟨_, _, _, rfl⟩
      obtain ⟨-, ds, o', ms', rfl⟩ := horderly.reaches_of_resolves ht.formed hr
      exact .invocation hr (.inl rfl) (fun _ _ hmem => by cases hmem) fun _ _ _ hy => by cases hy
    | replaced _ _ hreplaced =>
      rw [hraw] at hreplaced
      cases hreplaced

theorem Ranked.subStep_of_supertype (h : tbl.Ranked) (hpatterned : tbl.Patterned S)
    (ht : tbl.Invokes .full (.declared c args owner marks))
    (ht' : tbl.Invokes S (.declared c args owner marks))
    (hs : tbl.Supertype (.declared c args owner marks) s) :
    tbl.SubStep (tbl.Coincide S) (.declared c args owner marks) s := by
  cases hraw : tbl.isRaw c args with
  | true => exact h.subStep_of_raw ht hraw hs
  | false => exact h.subStep_of_reaches hpatterned ht ht' hraw (.single hs)

end Uses

/-! ### Following the ways up -/

/-- The check confirms that the first type is below the second: it goes up through bounds, members
and components, and takes one step from there. -/
inductive Lifts (tbl : Table) (S : Shape) : Ty → Ty → Prop
  | step {t s : Ty} (h : tbl.SubStep (tbl.Coincide S) t s) : Lifts tbl S t s
  | bound {n : Nat} {v : TypeVarId} {marks : List ClassId} {u s : Ty}
    (hu : tbl.upperBound v = .ok u)
    (href : s.isReference = true) (h : Lifts tbl S u s) : Lifts tbl S (.var n v marks) s
  | upper {token site : Nat} {upper lower s : Ty} {marks : List ClassId}
    (href : s.isReference = true) (h : Lifts tbl S upper s) :
    Lifts tbl S (.captured token site upper lower marks) s
  | member {n : Nat} {bounds : List Ty} {b s : Ty} (hb : b ∈ bounds) (h : Lifts tbl S b s) :
    Lifts tbl S (.intersection n bounds) s
  | component {t s : Ty} {marks marks' : List ClassId} (ht : t.isPrimitive = false)
    (hs : s.isPrimitive = false) (h : Lifts tbl S t s) :
    Lifts tbl S (.array t marks) (.array s marks')

theorem Lifts.refl : tbl.Lifts S t t :=
  .step (.refl rfl)

theorem isReference_of_rises (h : tbl.Rises t s) (ht : t.isPrimitive = false) :
    t.isReference = true := by
  cases h with
  | use h =>
    obtain ⟨_, _, _, _, rfl⟩ := Ty.exists_eq_declared h.kind
    rfl
  | widens => cases ht
  | _ => rfl

theorem isPrimitive_of_isReference (h : t.isReference = true) : t.isPrimitive = false := by
  cases t <;> first | rfl | cases h

/-- The check follows one step up. -/
theorem Ranked.lifts_of_rises (h : tbl.Ranked) (hpatterned : tbl.Patterned S)
    (ht : tbl.Within .full t) (hclimbable : tbl.Climbable (tbl.Within S) t) (hs : tbl.Rises t s) :
    tbl.Lifts S t s := by
  have hs' := (hclimbable.mono fun _ _ => trivial).of_rises (fun _ _ _ _ => trivial)
    (fun _ _ => trivial) h.obeys ht hs
  induction hs with
  | use hs =>
    have hwithin := hclimbable.of_kind hs.kind
    obtain ⟨c, args, owner, marks, rfl⟩ := Ty.exists_eq_declared hs.kind
    exact .step (h.subStep_of_supertype hpatterned (ht.invokes rfl) (hwithin.invokes rfl) hs)
  | bound hts hmem =>
    obtain ⟨_, u, hts', hu, -, hcases⟩ := h.obeys.exists_upperBound _
    cases hts.symm.trans hts'
    refine .bound hu (hs'.2 rfl) ?_
    rcases hcases with rfl | rfl
    · cases mem_singleton.mp hmem
      exact .refl
    · exact .member hmem .refl
  | upper => exact .upper (hs'.2 rfl) .refl
  | member hb => exact .member hb .refl
  | @widens p q _ hq =>
    refine .step (.widens ?_)
    cases p <;> cases hq <;> rfl
  | component hprimitive hs ih =>
    cases hclimbable with
    | flat hflat => cases hflat
    | component hclimbable =>
      have hrises := (hclimbable.mono fun _ _ => trivial).of_rises (fun _ _ _ _ => trivial)
        (fun _ _ => trivial) h.obeys ht.component hs
      have href := hrises.2 (isReference_of_rises hs hprimitive)
      exact .component hprimitive (isPrimitive_of_isReference href)
        (ih ht.component hclimbable hrises)
  | array hd => exact .step (.array (h.arrays.isArraySupertype _ hd))

theorem Climbable.of_reflTransGen (h : tbl.Climbable q t)
    (hq : ∀ x y, q x → tbl.Supertype x y → q y)
    (hroots : ∀ d ∈ tbl.arrayClasses, q (.declared d [] none [])) (hobeys : tbl.Obeys S)
    (hraw : S.raw = true) (ht : tbl.Within S t) (hs : Relation.ReflTransGen tbl.Rises t s) :
    tbl.Within S s ∧ tbl.Climbable q s ∧ (t.isReference = true → s.isReference = true) := by
  induction hs with
  | refl => exact ⟨ht, h, id⟩
  | tail _ hrises ih =>
    obtain ⟨hwithin, hclimbable, href⟩ := ih
    obtain ⟨hclimbable', href'⟩ := hclimbable.of_rises hq hroots hobeys hwithin hrises
    exact ⟨hobeys.within_of_rises hraw hwithin hrises, hclimbable', fun h => href' (href h)⟩

/-- Reference types rise to reference types. -/
theorem Obeys.isReference_of_reflTransGen (h : tbl.Obeys .full) (ht : tbl.Within .full t)
    (hclimbable : tbl.Climbable q t) (href : t.isReference = true)
    (hs : Relation.ReflTransGen tbl.Rises t s) : s.isReference = true :=
  ((hclimbable.mono fun _ _ => trivial).of_reflTransGen (fun _ _ _ _ => trivial)
    (fun _ _ => trivial) h rfl ht hs).2.2 href

theorem Orderly.reaches_of_reflTransGen (h : tbl.Orderly) (ht : t.Formed)
    (hs : Relation.ReflTransGen tbl.Rises t s) : tbl.Reaches t s := by
  induction hs with
  | refl => exact .refl
  | tail _ hrises ih =>
    have hformed := h.formed_of_reaches ht ih
    cases hrises with
    | use h => exact ih.tail h
    | _ => cases hformed

theorem widensTo_of_reflTransGen {p} (hs : Relation.ReflTransGen tbl.Rises (.primitive p marks) s) :
    ∃ q ms, s = .primitive q ms ∧ p.widensTo q = true := by
  induction hs with
  | refl => exact ⟨p, marks, rfl, by simp [Primitive.widensTo]⟩
  | tail _ hrises ih =>
    obtain ⟨q, ms, rfl, hq⟩ := ih
    cases hrises with
    | use h => cases h.kind
    | widens hnext =>
      refine ⟨_, _, rfl, ?_⟩
      cases p <;> cases q <;> cases hnext <;> first | rfl | cases hq

theorem eq_of_reflTransGen (hs : Relation.ReflTransGen tbl.Rises t s) (h : ∀ x, ¬ tbl.Rises t x) :
    s = t := by
  rcases hs.cases_head with rfl | ⟨x, hx, -⟩
  · rfl
  · exact absurd hx (h x)

theorem not_rises_of_isNoType (h : t.isNoType = true) (x : Ty) : ¬ tbl.Rises t x := by
  intro hx
  cases hx with
  | use hx =>
    obtain ⟨_, _, _, _, rfl⟩ := Ty.exists_eq_declared hx.kind
    cases h
  | _ => cases h

theorem not_rises_null (x : Ty) : ¬ tbl.Rises .null x := by
  intro hx
  cases hx with
  | use hx => cases hx.kind

/-- An array rises to arrays of what its component rises to, and to what is above all arrays. -/
theorem ArraysRooted.cases_of_reflTransGen (h : tbl.ArraysRooted) (hrooted : tbl.Rooted)
    (hs : Relation.ReflTransGen tbl.Rises (.array t marks) s) :
    (∃ x ms, s = .array x ms ∧ Relation.ReflTransGen tbl.Rises t x ∧
        (x = t ∨ t.isPrimitive = false)) ∨
      ∃ d ∈ tbl.arrayClasses, s = .declared d [] none [] := by
  induction hs with
  | refl => exact .inl ⟨t, marks, rfl, .refl, .inl rfl⟩
  | tail _ hrises ih =>
    rcases ih with ⟨x, ms, rfl, hx, hcases⟩ | ⟨d, hd, rfl⟩
    · cases hrises with
      | use h => cases h.kind
      | component hprimitive hrises =>
        refine .inl ⟨_, _, rfl, hx.tail hrises, .inr ?_⟩
        rcases hcases with rfl | hcases
        · exact hprimitive
        · exact hcases
      | array hd => exact .inr ⟨_, hd, rfl⟩
    · cases hrises with
      | use hsupertype =>
        rcases hrooted.eq_of_reaches ⟨_, _, _, rfl⟩ (h.supertypeExprs d hd)
          (.single hsupertype) with
          rfl | rfl
        · exact .inr ⟨d, hd, rfl⟩
        · exact .inr ⟨_, mem_cons_self, rfl⟩

/-- The check follows all steps up, if the uses of classes from which they start are not raw. -/
theorem Ranked.lifts_of_reflTransGen (h : tbl.Ranked) (hpatterned : tbl.Patterned S)
    (ht : tbl.Within .full t)
    (hclimbable : tbl.Climbable (fun x => tbl.NotRaw x ∧ tbl.Within S x) t)
    (hs : Relation.ReflTransGen tbl.Rises t s) : tbl.Lifts S t s := by
  induction hclimbable generalizing s with
  | @flat t hflat =>
    cases t with
    | primitive p marks =>
      obtain ⟨q, ms, rfl, hq⟩ := widensTo_of_reflTransGen hs
      exact .step (.widens hq)
    | none | void _ =>
      rw [eq_of_reflTransGen hs (not_rises_of_isNoType rfl)]
      exact .refl
    | _ => cases hflat
  | null =>
    rw [eq_of_reflTransGen hs not_rises_null]
    exact .refl
  | use hq =>
    exact .step (h.subStep_of_reaches hpatterned (ht.invokes rfl) (hq.2.invokes rfl)
      (hq.1 _ _ _ _ rfl) (h.obeys.toOrderly.reaches_of_reflTransGen (ht.invokes rfl).formed hs))
  | @bound _ v _ u hu href hclimbable ih =>
    rcases hs.cases_head with rfl | ⟨x, hx, hxs⟩
    · exact .refl
    obtain ⟨ts, _, hts, hu', hwithin, hcases⟩ := h.obeys.exists_upperBound v
    cases hu.symm.trans hu'
    have hus : Relation.ReflTransGen tbl.Rises u s := by
      cases hx with
      | use hx => cases hx.kind
      | bound hts' hmem =>
        cases hts.symm.trans hts'
        rcases hcases with rfl | rfl
        · cases mem_singleton.mp hmem
          exact hxs
        · exact hxs.head (.member hmem)
    exact .bound hu (h.obeys.isReference_of_reflTransGen hwithin hclimbable href hus)
      (ih hwithin hus)
  | upper _ href hclimbable ih =>
    rcases hs.cases_head with rfl | ⟨x, hx, hxs⟩
    · exact .refl
    cases hx with
    | use hx => cases hx.kind
    | upper =>
      exact .upper (h.obeys.isReference_of_reflTransGen ht.capturedUpper hclimbable href hxs)
        (ih ht.capturedUpper hxs)
  | member _ _ _ ih =>
    rcases hs.cases_head with rfl | ⟨x, hx, hxs⟩
    · exact .refl
    cases hx with
    | use hx => cases hx.kind
    | member hb => exact .member hb (ih _ hb (ht.member hb) hxs)
  | @component t marks hclimbable ih =>
    rcases h.arrays.cases_of_reflTransGen h.obeys.rooted hs
      with ⟨x, ms, rfl, hx, hcases⟩ | ⟨d, hd, rfl⟩
    · rcases hx.cases_head with rfl | ⟨y, hy, -⟩
      · exact .step (.refl rfl)
      rcases hcases with rfl | hprimitive
      · exact .step (.refl rfl)
      have href := h.obeys.isReference_of_reflTransGen ht.component hclimbable
        (isReference_of_rises hy hprimitive) hx
      exact .component hprimitive (isPrimitive_of_isReference href) (ih ht.component hx)
    · exact .step (.array (h.arrays.isArraySupertype _ hd))

/-- If a type is below whatever single type its upper bound is below, then also below intersections
of such types. -/
theorem Climbable.sub_of_upper {u} (hstep : ∀ x, x.isSingle = true → tbl.Sub u x → tbl.Sub t x)
    (h : tbl.Climbable q s) (href : s.isReference = true) (hsub : tbl.Sub u s) :
    tbl.Sub t s := by
  induction h with
  | @flat s hflat => cases s <;> cases hflat <;> cases href
  | member _ hrefs _ ih =>
    exact .of_step (.meet fun b hb => ih b hb (hrefs b hb) (hsub.of_meet hb))
  | null | use | bound | upper | component => exact hstep _ rfl hsub

theorem Lifts.sub (h : tbl.Lifts S t s) (hs : tbl.Climbable q s) : tbl.Sub t s := by
  induction h with
  | step h => exact .of_step (h.mono fun _ _ => Coincide.sub)
  | bound hu href _ ih =>
    exact hs.sub_of_upper (fun _ hsingle hx => .of_step (.bound hsingle hu hx)) href (ih hs)
  | upper href _ ih =>
    exact hs.sub_of_upper (fun _ hsingle hx => .of_step (.upper hsingle hx)) href (ih hs)
  | member hb _ ih => exact .of_step (.member hb (ih hs))
  | component hprimitive hprimitive' _ ih =>
    cases hs with
    | flat hflat => cases hflat
    | component hs => exact .of_step (.component hprimitive hprimitive' (ih hs))

/-! ### The check comes to an end -/

theorem Layer.of_linear (h : tbl.Layer S.linear t) : tbl.Layer S t := by
  cases t with
  | captured token site upper lower marks =>
    exact ⟨h.1, h.2.1, h.2.2.1, .inr (h.2.2.2.resolve_left Bool.false_ne_true)⟩
  | intersection n bounds => exact absurd h.1 Bool.false_ne_true
  | _ => exact h

theorem Within.of_linear (h : tbl.Within S.linear t) : tbl.Within S t :=
  ⟨h.1, h.2.mono fun _ => Layer.of_linear⟩

theorem Climbable.kind_ne (h : tbl.Climbable (tbl.Within S.linear) t) : t.kind ≠ .intersection := by
  cases h with
  | @flat t hflat => cases t <;> cases hflat <;> exact TypeKind.noConfusion
  | member h => exact h.kind_ne_intersection rfl
  | null | use | bound | upper | component => exact TypeKind.noConfusion

theorem Climbable.lower_eq_null {token site upper lower}
    (h : tbl.Climbable (tbl.Within S.linear) (.captured token site upper lower marks)) :
    lower = .null := by
  cases h with
  | flat hflat => cases hflat
  | upper h => exact h.2.top.2.2.2.resolve_left Bool.false_ne_true

theorem isSingle_of_isReference (href : t.isReference = true) (hkind : t.kind ≠ .intersection) :
    t.isSingle = true := by
  cases t with
  | intersection => exact absurd rfl hkind
  | _ => first | rfl | cases href

theorem Ranked.settles_of_coincide (h : tbl.Ranked) (hst : tbl.Coincide Shape.full.linear s t) :
    Settles (fun k => tbl.check k .subtype s t) true := by
  obtain ⟨heq, hs⟩ := hst
  have ht := hs.of_bare_eq heq
  have hstep : tbl.SubStep (fun _ _ => False) s t := .refl heq
  refine hstep.settles_check h.obeys hs.of_linear ht.of_linear (hs.kind_ne_intersection rfl)
    (ht.kind_ne_intersection rfl) ?_ fun _ _ hfalse => hfalse.elim
  rintro token site upper lower marks rfl
  rw [ht.2.top.2.2.2.resolve_left Bool.false_ne_true]
  exact h.obeys.settles_check_of_null h.grounded hs.of_linear

/-- Without intersections and lower bounds of captured variables on the way, the check ends. -/
theorem Ranked.settles_of_lifts (h : tbl.Ranked) (hlifts : tbl.Lifts Shape.full.linear t s)
    (ht : tbl.Within .full t) (hs : tbl.Within .full s)
    (ht' : tbl.Climbable (tbl.Within Shape.full.linear) t)
    (hs' : tbl.Climbable (tbl.Within Shape.full.linear) s) :
    Settles (fun k => tbl.check k .subtype t s) true := by
  have hstep {R : Ty → Ty → Prop} {x y : Ty} (hxy : tbl.SubStep R x y) (hx : tbl.Within .full x)
      (hy : tbl.Within .full y) (hx' : tbl.Climbable (tbl.Within Shape.full.linear) x)
      (hy' : tbl.Climbable (tbl.Within Shape.full.linear) y)
      (hR : ∀ x y, R x y → Settles (fun k => tbl.check k .subtype x y) true) :
      Settles (fun k => tbl.check k .subtype x y) true := by
    refine hxy.settles_check h.obeys hx hy hx'.kind_ne hy'.kind_ne ?_ fun x y hxy _ _ => hR x y hxy
    rintro token site upper lower marks rfl
    rw [hy'.lower_eq_null]
    exact h.obeys.settles_check_of_null h.grounded hx
  induction hlifts with
  | step hlift => exact hstep hlift ht hs ht' hs' fun _ _ => h.settles_of_coincide
  | @bound _ v _ u s hu href _ ih =>
    obtain ⟨-, _, -, hu', hwithin, -⟩ := h.obeys.exists_upperBound v
    cases hu.symm.trans hu'
    have hsettles : Settles (fun k => tbl.check k .subtype u s) true := by
      cases ht' with
      | flat hflat => cases hflat
      | bound hu' _ ht' =>
        cases hu.symm.trans hu'
        exact ih hwithin hs ht' hs'
    refine hstep (R := fun x y => x = u ∧ y = s)
      (.bound (isSingle_of_isReference href hs'.kind_ne) hu ⟨rfl, rfl⟩) ht hs ht' hs' ?_
    rintro x y ⟨rfl, rfl⟩
    exact hsettles
  | @upper _ _ u _ s _ href _ ih =>
    have hsettles : Settles (fun k => tbl.check k .subtype u s) true := by
      cases ht' with
      | flat hflat => cases hflat
      | upper _ _ ht' => exact ih ht.capturedUpper hs ht' hs'
    refine hstep (R := fun x y => x = u ∧ y = s)
      (.upper (isSingle_of_isReference href hs'.kind_ne) ⟨rfl, rfl⟩) ht hs ht' hs' ?_
    rintro x y ⟨rfl, rfl⟩
    exact hsettles
  | member hb _ ih => exact absurd rfl ht'.kind_ne
  | @component t s _ _ hprimitive hprimitive' _ ih =>
    have hsettles : Settles (fun k => tbl.check k .subtype t s) true := by
      cases ht' with
      | flat hflat => cases hflat
      | component ht' =>
        cases hs' with
        | flat hflat => cases hflat
        | component hs' => exact ih ht.component hs.component ht' hs'
    refine hstep (R := fun x y => x = t ∧ y = s) (.component hprimitive hprimitive' ⟨rfl, rfl⟩)
      ht hs ht' hs' ?_
    rintro x y ⟨rfl, rfl⟩
    exact hsettles

/-! ### Supertypes are supertypes -/

theorem Climbable.and {q'} (h : tbl.Climbable q t) (h' : tbl.Climbable q' t) :
    tbl.Climbable (fun x => q x ∧ q' x) t := by
  induction h with
  | flat h => exact .flat h
  | null => exact .null
  | use hq => exact .use ⟨hq, h'.of_kind rfl⟩
  | bound hu href _ ih =>
    cases h' with
    | flat hflat => cases hflat
    | bound hu' _ h' =>
      cases hu.symm.trans hu'
      exact .bound hu href (ih h')
  | upper hq href _ ih =>
    cases h' with
    | flat hflat => cases hflat
    | upper hq' _ h' => exact .upper ⟨hq, hq'⟩ href (ih h')
  | member hq href _ ih =>
    cases h' with
    | flat hflat => cases hflat
    | member hq' _ h' => exact .member ⟨hq, hq'⟩ href fun b hb => ih b hb (h' b hb)
  | component _ ih =>
    cases h' with
    | flat hflat => cases hflat
    | component h' => exact .component (ih h')

theorem Obeys.climbable_within (h : tbl.Obeys S) (hclimbable : tbl.Climbable q t)
    (ht : tbl.Within S t) : tbl.Climbable (tbl.Within S) t := by
  induction hclimbable with
  | flat h => exact .flat h
  | null => exact .null
  | use => exact .use ht
  | bound hu href _ ih =>
    obtain ⟨-, _, -, hu', hwithin, -⟩ := h.exists_upperBound _
    cases hu.symm.trans hu'
    exact .bound hu href (ih hwithin)
  | upper _ href _ ih => exact .upper ht href (ih ht.capturedUpper)
  | member _ href _ ih => exact .member ht href fun b hb => ih b hb (ht.member hb)
  | component _ ih => exact .component (ih ht.component)

/-- In a table whose bounds are not cyclic, the ways up from type variables end. -/
theorem Ranked.climbable_var (h : tbl.Ranked) (v : TypeVarId) (n : Nat) (marks : List ClassId) :
    tbl.Climbable (fun _ => True) (.var n v marks) := by
  induction v using h.grounded.induction generalizing n marks with
  | _ v ih =>
    obtain ⟨ts, u, hts, hu, -, hcases⟩ := h.obeys.exists_upperBound v
    have hmem (b : Ty) (hb : b ∈ ts) :
        b.isReference = true ∧ tbl.Climbable (fun _ => True) b := by
      rcases h.bounds v ts hts b hb with hkind | ⟨m, w, ms, rfl⟩
      · obtain ⟨c, args, owner, ms, rfl⟩ := Ty.exists_eq_declared hkind
        exact ⟨rfl, .use trivial⟩
      · exact ⟨rfl, ih w ⟨ts, m, ms, hts, hb⟩ m ms⟩
    rcases hcases with rfl | rfl
    · exact .bound hu (hmem u mem_cons_self).1 (hmem u mem_cons_self).2
    · exact .bound hu rfl (.member trivial (fun b hb => (hmem b hb).1) fun b hb => (hmem b hb).2)

theorem Ranked.climbable (h : tbl.Ranked) (ht : tbl.Within .full t) (hjoined : t.Every Ty.Joined) :
    tbl.Climbable (fun _ => True) t := by
  induction t using Ty.children_induction with
  | step t ih =>
    cases t with
    | primitive | none | void => exact .flat rfl
    | null => exact .null
    | declared => exact .use trivial
    | var n v marks => exact h.climbable_var v n marks
    | array component marks =>
      exact .component (ih component mem_cons_self ht.component hjoined.component)
    | captured token site upper lower marks =>
      exact .upper trivial hjoined.top
        (ih upper mem_cons_self ht.capturedUpper hjoined.capturedUpper)
    | intersection n bounds =>
      exact .member trivial hjoined.top fun b hb => ih b hb (ht.member hb) (hjoined.part hb)
    | _ => cases ht.1

/-- The subtype check does not deny that the first type is below the second. It confirms it if the
table declares no lower bounds of wildcards, or if there are no intersections and no captured
variables with lower bounds on the ways up from the first type. -/
def Upholds (tbl : Table) (t s : Ty) : Prop :=
  (∀ n, Yields (tbl.isSubtype n t s) (· = true)) ∧
    (tbl.Obeys Shape.full.covariant ∨
        tbl.Patterned Shape.full.linear ∧ tbl.Climbable (tbl.Within Shape.full.linear) t →
      Settles (fun n => tbl.isSubtype n t s) true)

theorem Ranked.upholds (h : tbl.Ranked) (ht : tbl.Within .full t) (hclimbable : tbl.Climbable q t)
    (hs : Relation.ReflTransGen tbl.Rises t s) (hlifts : tbl.Lifts .full t s)
    (hlinear : tbl.Patterned Shape.full.linear → tbl.Climbable (tbl.Within Shape.full.linear) t →
      tbl.Lifts Shape.full.linear t s) : tbl.Upholds t s := by
  obtain ⟨hwithin, hclimbable', -⟩ := (hclimbable.mono fun _ _ => trivial).of_reflTransGen
    (fun _ _ _ _ => trivial) (fun _ _ => trivial) h.obeys rfl ht hs
  have hsub := hlifts.sub hclimbable'
  simp only [Upholds, isSubtype_eq_check ht hwithin]
  refine ⟨fun n => hsub.yields_check h.obeys ht hwithin n, ?_⟩
  rintro (hcovariant | ⟨hpatterned, ht'⟩)
  · obtain ⟨b, hb⟩ := hcovariant.settles_check_of_covariant h.grounded ht hwithin
    cases hb.of_yields (hsub.yields_check h.obeys ht hwithin)
    exact hb
  · refine h.settles_of_lifts (hlinear hpatterned ht') ht hwithin ht' ?_
    refine (ht'.of_reflTransGen (fun x y hx hxy => ?_) (fun d _ => within_bare_class rfl d [])
      h.obeys rfl ht hs).2.1
    exact (h.obeys.toOrderly.invokes_of_supertype hpatterned (hx.invokes hxy.kind).maps hxy).within
      rfl

/-! ### Criteria -/

/-- Two uses of one class are equal. -/
def concordant : Ty → Ty → Bool
  | .declared c args owner marks, .declared d args' owner' marks' =>
    c != d || (Ty.declared c args owner marks).same (.declared d args' owner' marks')
  | _, _ => true

theorem same_of_concordant {d} (h : concordant s t = true) (hs : Ty.Uses d s) (ht : Ty.Uses d t) :
    s.same t = true := by
  obtain ⟨_, _, _, rfl⟩ := hs
  obtain ⟨_, _, _, rfl⟩ := ht
  rw [concordant, bne_self_eq_false, Bool.false_or] at h
  exact h

/-- A table is coherent if the supertypes that are listed for each class are. -/
theorem Orderly.coherent_of_lists (h : tbl.Orderly) {n}
    (hlists : (List.range tbl.classes.size).all (fun i =>
      match (tbl.allSupertypes n (tbl.selfType ⟨i⟩) : Result (List Ty)) with
      | .ok ts => (tbl.selfType ⟨i⟩ :: ts).all fun s => (tbl.selfType ⟨i⟩ :: ts).all (concordant s)
      | .error _ => false) = true) : tbl.Coherent := by
  intro c d s t hs ht hds hdt
  by_cases hsize : c.index < tbl.classes.size
  · have hself := tbl.selfTypeIn_denoted c (tbl.enclosers c)
    obtain ⟨ts, hts, -, hlisted⟩ := h.exists_allSupertypes (formed_of_denoted hself.1 hself.2)
    have hall := all_eq_true.mp hlists c.index (mem_range.mpr hsize)
    split at hall
    · rename_i us hus
      cases hts.eq_of_ok hus
      obtain ⟨x, hx, hsx⟩ := any_eq_true.mp (hlisted s hs)
      obtain ⟨y, hy, hty⟩ := any_eq_true.mp (hlisted t ht)
      have hxy := same_of_concordant (all_eq_true.mp (all_eq_true.mp hall x hx) y hy)
        (uses_of_same hsx hds) (uses_of_same hty hdt)
      exact Ty.same_trans hsx (Ty.same_trans hxy (Ty.same_symm hty))
    · cases hall
  · -- A class that is not there has only the root class above it.
    have hdefault := cls_eq_default (Nat.le_of_not_lt hsize)
    have hexprs : tbl.supertypeExprs c = [] := by
      rw [supertypeExprs, hdefault]
      rfl
    obtain ⟨owner, hself⟩ := tbl.selfType_eq c
    have hc : Ty.Uses c (tbl.selfType c) := ⟨_, owner, _, hself⟩
    have hne : ¬Ty.Uses c tbl.objectType := by
      intro hobject
      have hname := h.rooted.name
      rw [← hobject.unique ⟨_, _, _, rfl⟩, hdefault] at hname
      exact absurd hname (by decide)
    rcases h.rooted.eq_of_reaches hc hexprs hs with rfl | rfl <;>
      rcases h.rooted.eq_of_reaches hc hexprs ht with rfl | rfl
    · exact Ty.same_refl _
    · cases hds.unique hc
      exact absurd hdt hne
    · cases hdt.unique hc
      exact absurd hds hne
    · exact Ty.same_refl _

theorem Obeys.ranked_of_tests (h : tbl.Obeys .full) (hcoherent : tbl.Coherent)
    (hscoped : tbl.Scoped) (hgrounded : tbl.Grounded) (harrays : tbl.ArraysRooted)
    (hbounds : tbl.testBounds (fun _ ts =>
      ts.all fun b => b.kind == .declared || b.asVar.isSome) = true)
    (hprimitives : tbl.testPatterns (fun c _ => !(tbl.cls c).isPrimitive) = true) :
    tbl.Ranked where
  obeys := h
  coherent := hcoherent
  wellScoped := hscoped
  bounds v ts hts b hb := by
    obtain ⟨us, hus, hall⟩ := boundedByUses_of_testBounds hbounds v
    cases hts.symm.trans hus
    exact hall b hb
  grounded := hgrounded
  arrays := harrays
  primitives := h.toOrderly.supertypeExprs_eq_nil hprimitives

/-- The direct and the proper supertypes of a type are found, and the type is a subtype of them: of
the direct supertypes in any case, of all supertypes if there are no raw types on the ways up
through bounds, members and components. -/
theorem isSubtype_of_supertypes (h : tbl.Ranked) (ht : tbl.Within .full t)
    (hjoined : t.Every Ty.Joined) :
    (∃ ts, Settles (fun n => (tbl.directSupertypes n t : Result (List Ty))) ts ∧
        ∀ s ∈ ts, tbl.Upholds t s) ∧
      (tbl.Climbable tbl.NotRaw t →
        ∃ ts, Settles (fun n => (tbl.allSupertypes n t : Result (List Ty))) ts ∧
          ∀ s ∈ ts, tbl.Upholds t s) := by
  have hclimbable := h.climbable ht hjoined
  have hwithin := h.obeys.climbable_within hclimbable ht
  constructor
  · obtain ⟨ts, hts, hrises⟩ := h.obeys.exists_typesAbove rfl ht tbl.leastUpperBounds
    simp only [directSupertypes, directSupertypesWith_eq_typesAboveWith]
    refine ⟨ts, hts, fun s hs => h.upholds ht hclimbable (.single (hrises s hs)) ?_ ?_⟩
    · exact h.lifts_of_rises h.obeys.patterned ht hwithin (hrises s hs)
    · exact fun hpatterned ht' => h.lifts_of_rises hpatterned ht ht' (hrises s hs)
  · intro hraw
    obtain ⟨ts, hts, hrises⟩ := h.obeys.exists_rises ht hclimbable
    refine ⟨ts, hts, fun s hs => h.upholds ht hclimbable (hrises s hs) ?_ ?_⟩
    · exact h.lifts_of_reflTransGen h.obeys.patterned ht (hraw.and hwithin) (hrises s hs)
    · exact fun hpatterned ht' =>
        h.lifts_of_reflTransGen hpatterned ht (hraw.and ht') (hrises s hs)

set_option maxRecDepth 20000 in
/-- An array of a variable that is bounded by another one. What bounds that one inherits a lower
bound of a wildcard. -/
theorem isSubtype_of_supertypes_array :
    let tbl : Table := {
      classes := #[
        { name := "java.lang.Object", simpleName := "Object", kind := .cls },
        { name := "p.N", simpleName := "N", kind := .interface,
          typeParameters := [{ name := "T" }] },
        { name := "p.D", simpleName := "D", kind := .cls, typeParameters := [{ name := "T" }],
          interfaces := [.applied ⟨1⟩ [.applied ⟨1⟩
            [.wildcard [] [.var ⟨.cls ⟨2⟩, 0⟩ []] []] none []] none []] },
        { name := "p.G", simpleName := "G", kind := .cls, typeParameters :=
            [{ name := "T", bounds := [.applied ⟨2⟩ [.var ⟨.cls ⟨3⟩, 0⟩ []] none []] },
              { name := "U", bounds := [.var ⟨.cls ⟨3⟩, 0⟩ []] }] }] }
    let t : Ty := .array (.var 0 ⟨.cls ⟨3⟩, 1⟩ []) []
    (tbl.Ranked ∧ tbl.Within .full t ∧ t.Every Ty.Joined ∧ tbl.Climbable tbl.NotRaw t ∧
        tbl.Patterned Shape.full.linear ∧ tbl.Climbable (tbl.Within Shape.full.linear) t) ∧
      (∃ ts, Settles (fun n => (tbl.directSupertypes n t : Result (List Ty))) ts ∧
        ∀ s ∈ ts, Settles (fun n => tbl.isSubtype n t s) true) ∧
      ∃ ts, Settles (fun n => (tbl.allSupertypes n t : Result (List Ty))) ts ∧
        ∀ s ∈ ts, Settles (fun n => tbl.isSubtype n t s) true := by
  intro tbl t
  have hordered : tbl.Orderly := orderly_of_isLayered (by rfl) (by rfl) (by rfl)
  have hobeys : tbl.Obeys .full := hordered.obeys_of_tests (by rfl) (by rfl)
  have hranked : tbl.Ranked :=
    hobeys.ranked_of_tests (hordered.coherent_of_all (by rfl))
      (hobeys.scoped_of_testPatterns (by rfl)) (grounded_of_testBounds (by rfl))
      ⟨by decide, by decide, by decide⟩ (by rfl) (by rfl)
  have hpatterned : tbl.Patterned Shape.full.linear :=
    (hordered.obeys_of_tests (S := Shape.full.linear) (by rfl) (by rfl)).patterned
  have ht : tbl.Within .full t := by decide
  have hjoined : t.Every Ty.Joined := by decide
  have hraw : tbl.Climbable tbl.NotRaw t :=
    .component (.bound rfl rfl (.bound rfl rfl (.use fun c args owner marks heq => by
      cases heq
      rfl)))
  have hlinear : tbl.Climbable (tbl.Within Shape.full.linear) t :=
    .component (.bound rfl rfl (.bound rfl rfl (.use (by decide))))
  obtain ⟨⟨ts, hts, hdirect⟩, hall⟩ := isSubtype_of_supertypes hranked ht hjoined
  obtain ⟨us, hus, hproper⟩ := hall hraw
  exact ⟨⟨hranked, ht, hjoined, hraw, hpatterned, hlinear⟩,
    ⟨ts, hts, fun s hs => (hdirect s hs).2 (.inr ⟨hpatterned, hlinear⟩)⟩,
    us, hus, fun s hs => (hproper s hs).2 (.inr ⟨hpatterned, hlinear⟩)⟩

/-- A class `C<T>` that implements `N<T>`, once itself and once as a class that extends its inner
class `I`, which implements `N<T>`. The owner of `I` is not given. -/
def unscoped : Table where
  classes := #[
    { name := "java.lang.Object", simpleName := "Object", kind := .cls },
    { name := "p.A", simpleName := "A", kind := .cls },
    { name := "p.N", simpleName := "N", kind := .interface, typeParameters := [{ name := "T" }] },
    { name := "p.C$I", simpleName := "I", kind := .cls, nesting := .member, enclosing := some ⟨5⟩,
      interfaces := [.applied ⟨2⟩ [.var ⟨.cls ⟨5⟩, 0⟩ []] none []] },
    { name := "p.K", simpleName := "K", kind := .cls, superclass := some (.named ⟨3⟩ []) },
    { name := "p.C", simpleName := "C", kind := .cls, typeParameters := [{ name := "T" }],
      superclass := some (.named ⟨4⟩ []),
      interfaces := [.applied ⟨2⟩ [.var ⟨.cls ⟨5⟩, 0⟩ []] none []] }]

set_option maxRecDepth 20000 in
/-- The conditions matter. An inner class that is named without its owner hands on a type parameter
that has no argument, so that the check finds another use of the interface than the enumeration. An
intersection may lead the check away from the supertype in question, for ever. And arrays of
primitive types are compared by equality. -/
theorem not_isSubtype_of_supertypes :
    let A : Ty := .declared ⟨1⟩ [] none []
    let N : Ty := .declared ⟨2⟩ [A] none []
    let K : Ty := .declared ⟨4⟩ [] none []
    let C : Ty := .declared ⟨5⟩ [A] none []
    let both : Ty := .intersection 0 [turningClass, turningTarget]
    let int : Ty := .primitive .int []
    let mixed : Ty := .array (.intersection 0 [int, turningClass]) []
    (unscoped.Obeys .full ∧ unscoped.Coherent ∧ unscoped.Grounded ∧ unscoped.Within .full C ∧
        (unscoped.directSupertypes 8 C : Result (List Ty)) = .ok [K, N] ∧
        unscoped.isSubtype 8 C N = .ok false) ∧
      (turning.Ranked ∧ turning.Within .full both ∧ both.Every Ty.Joined ∧
        (turning.directSupertypes 8 both : Result (List Ty)) =
          .ok [turningClass, turningTarget] ∧
        ∀ n, turning.isSubtype n both turningTarget = .error .exhausted) ∧
      turning.Within .full mixed ∧
      (turning.directSupertypes 8 mixed : Result (List Ty)) =
        .ok [.array int [], .array turningClass []] ∧
      turning.isSubtype 8 mixed (.array int []) = .ok false := by
  intro A N K C both int mixed
  have hordered : unscoped.Orderly := orderly_of_isLayered (by rfl) (by rfl) (by rfl)
  have hturning : turning.Orderly := orderly_of_isLayered (by rfl) (by rfl) (by rfl)
  have hobeys : turning.Obeys .full := hturning.obeys_of_tests (by rfl) (by rfl)
  refine ⟨⟨hordered.obeys_of_tests (by rfl) (by rfl), hordered.coherent_of_lists (n := 8) (by rfl),
    grounded_of_testBounds (by rfl), by decide, by rfl, by rfl⟩,
    ⟨?_, by decide, by decide, by rfl, ?_⟩,
    by decide, by rfl, by rfl⟩
  · exact hobeys.ranked_of_tests (hturning.coherent_of_all (by rfl))
      (hobeys.scoped_of_testPatterns (by rfl)) (grounded_of_testBounds (by rfl))
      ⟨by decide, by decide, by decide⟩ (by rfl) (by rfl)
  · rintro (_ | n)
    · rfl
    · change (turning.check n .subtype turningClass turningTarget >>= _) = _
      rw [check_turning]
      rfl

end Table

end NominalTypes
