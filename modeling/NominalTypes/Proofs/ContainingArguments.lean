import NominalTypes.Proofs.LeastUpperBounds
import NominalTypes.Proofs.LowerBounds

/-!
# The least argument that contains two others

Where the computation of least upper bounds meets two type arguments, it looks for one that contains
both. If neither has a lower bound, that is a wildcard whose upper bound lies above the two.
Otherwise it is a wildcard whose lower bound is the greatest lower bound of the two, which has to be
below both then; and if only one of them is bounded from below and the other one from above only,
then it is the wildcard that contains everything, unless the two bounds are equal: then the bound
itself is the answer, which contains neither of the two.
-/

namespace NominalTypes

open List

variable {lub : List (List Ty) → List Ty → BoundsM Result (List Ty)} {active : List (List Ty)}

namespace Ty

/-- Whether the type is a wildcard with a lower bound. -/
def isSuper : Ty → Bool
  | wildcard _ _ lower _ => !lower.isNull
  | _ => false

/-- Whether the type is a wildcard without a lower bound. -/
def isExtends : Ty → Bool
  | wildcard _ _ lower _ => lower.isNull
  | _ => false

theorem isExtends_of_isSuper {t : Ty} (h : t.isSuper = true) : t.isExtends = false := by
  cases t with
  | wildcard n upper lower marks => exact (Bool.not_eq_true' _).mp h
  | _ => rfl

end Ty

namespace Table

variable {tbl : Table} {captures : Nat → Ty} {s t a a' r : Ty} {n k : Nat}

/-- The argument equals the other one, or contains it. -/
def Spans (tbl : Table) (r a : Ty) : Prop :=
  r.same a = true ∨ Settles (fun k => tbl.contains k r a) true

/-- The type is a type argument, and its parts are reference types. It may be a wildcard with a
lower bound, but it has no such parts. -/
inductive Argument (tbl : Table) (captures : Nat → Ty) : Ty → Prop
  | covariant {a : Ty} (h : tbl.FineArgument captures a) : Argument tbl captures a
  | lower {n : Nat} {lower : Ty} {marks : List ClassId} (h : tbl.Fine captures lower)
    (hnull : lower.isNull = false) : Argument tbl captures (.wildcard n tbl.objectType lower marks)

/-- One of the types is below the other, or one of their members at most is no interface and
subtyping orders them. -/
def Meets (tbl : Table) (s t : Ty) : Prop :=
  tbl.Confirmed s t ∨ tbl.Confirmed t s ∨
    (∀ b ∈ s.members ++ t.members, b.isSingle = true) ∧ tbl.OneClass (s.members ++ t.members) ∧
      tbl.Ordered (s.members ++ t.members)

/-! ### Containment -/

theorem settles_contains {upper lower marks} (ha : a.isPseudo = false)
    (hupper : tbl.Confirmed a.orUpper upper) (hlower : tbl.Confirmed lower a.orLower) :
    Settles (fun k => tbl.contains k (.wildcard n upper lower marks) a) true := by
  have hsecond :
      Settles (fun k => if true then tbl.isSubtype k lower a.orLower else .ok false) true :=
    hlower
  have hboth := Settles.bind (g := fun b k => if b then tbl.isSubtype k lower a.orLower
    else .ok false) hupper hsecond
  cases a with
  | executable | package => cases ha
  | _ => exact hboth

theorem Fine.isPseudo (h : tbl.Fine captures t) : t.isPseudo = false := by
  have hreference := h.isReference
  cases t <;> first | rfl | cases hreference

theorem FineArgument.isPseudo (h : tbl.FineArgument captures a) : a.isPseudo = false := by
  have hargument := h.admits.1
  cases a <;> first | rfl | cases hargument

theorem Joinable.confirmed_of_sub (h : tbl.Joinable captures) (hs : tbl.Fine captures s)
    (ht : tbl.Fine captures t) (hst : tbl.Sub s t) : tbl.Confirmed s t := by
  simp only [Confirmed, isSubtype_eq_of_isPseudo hs.isPseudo ht.isPseudo]
  exact hst.settles_check h.obeys rfl h.grounded hs.within ht.within

theorem fine_null : tbl.Fine captures .null :=
  ⟨⟨rfl, .leaf trivial rfl⟩, rfl, .leaf trivial rfl⟩

theorem FineArgument.orLower (h : tbl.FineArgument captures a) : tbl.Fine captures a.orLower where
  within := h.admits.orLower
  isReference := h.isReference_orLower
  solid := h.solid.orLower

/-- The rules for containment are those of the check. -/
theorem Joinable.spans_of_contained (h : tbl.Joinable captures) (hr : tbl.FineArgument captures r)
    (ha : tbl.FineArgument captures a) (hra : Contained tbl.Sub a r) : tbl.Spans r a := by
  cases hra with
  | same _ hbare => exact .inl (Ty.same_of_bare_eq hbare.symm)
  | between hupper hlower =>
    refine .inr (settles_contains ha.isPseudo ?_ ?_)
    · exact h.confirmed_of_sub ha.orUpper hr.orUpper hupper
    · exact h.confirmed_of_sub hr.orLower ha.orLower hlower

namespace Argument

theorem orUpper (h : tbl.Joinable captures) (ha : tbl.Argument captures a) :
    tbl.Fine captures a.orUpper := by
  cases ha with
  | covariant ha => exact ha.orUpper
  | lower => exact h.fine_objectType

theorem orLower (ha : tbl.Argument captures a) : tbl.Fine captures a.orLower := by
  cases ha with
  | covariant ha => exact ha.orLower
  | lower ha => exact ha

theorem isPseudo (ha : tbl.Argument captures a) : a.isPseudo = false := by
  cases ha with
  | covariant ha => exact ha.isPseudo
  | lower => rfl

/-- A wildcard without upper bound contains the arguments that its lower bound is below. -/
theorem spans (h : tbl.Joinable captures) (ha : tbl.Argument captures a)
    (hlower : tbl.Confirmed s a.orLower) : tbl.Spans (.wildcard 0 tbl.objectType s []) a := by
  have hupper := h.confirmed_of_sub (ha.orUpper h) h.fine_objectType
    (h.sub_objectType (ha.orUpper h))
  exact .inr (settles_contains ha.isPseudo hupper hlower)

end Argument

/-! ### The lower bound -/

theorem greatestLowerBound_eq_ok {g} (h : (tbl.greatestLowerBound n s t : Result Ty) = .ok g) :
    (tbl.isSubtype n s t = .ok true ∧ g = s) ∨
      (tbl.isSubtype n s t = .ok false ∧
        (tbl.isSubtype n t s = .ok true ∧ g = t ∨ tbl.isSubtype n t s = .ok false)) := by
  obtain ⟨b, hb, h⟩ := bind_eq_ok.mp h
  cases b with
  | true =>
    cases h
    exact .inl ⟨hb, rfl⟩
  | false =>
    obtain ⟨b', hb', h⟩ := bind_eq_ok.mp h
    cases b' with
    | true =>
      cases h
      exact .inr ⟨hb, .inl ⟨hb', rfl⟩⟩
    | false => exact .inr ⟨hb, .inr hb'⟩

/-- A greatest lower bound that is found is below both types. -/
theorem Joinable.confirmed_of_greatestLowerBound (h : tbl.Joinable captures)
    (hs : tbl.Fine captures s) (ht : tbl.Fine captures t) (hmeets : tbl.Meets s t) {g}
    (hg : (tbl.greatestLowerBound n s t : Result Ty) = .ok g) :
    tbl.Confirmed g s ∧ tbl.Confirmed g t := by
  have hsettles {x y : Ty} (hx : tbl.Fine captures x) (hy : tbl.Fine captures y) :
      ∃ b, Settles (fun k => tbl.isSubtype k x y) b := by
    simp only [isSubtype_eq_of_isPseudo hx.isPseudo hy.isPseudo]
    exact h.obeys.settles_check rfl h.grounded hx.within hy.within
  have hrefl {x : Ty} (hx : tbl.Fine captures x) : tbl.Confirmed x x :=
    h.confirmed_of_sub hx hx (.refl rfl)
  have hmember {x b : Ty} (hx : tbl.Fine captures x) (hb : b ∈ x.members) :
      tbl.Fine captures b := by
    cases x with
    | intersection => exact hx.member hb
    | _ => exact mem_singleton.mp hb ▸ hx
  obtain ⟨b, hst⟩ := hsettles hs ht
  obtain ⟨b', hts⟩ := hsettles ht hs
  rcases greatestLowerBound_eq_ok hg with ⟨htrue, rfl⟩ | ⟨hfalse, ⟨htrue, rfl⟩ | hfalse'⟩
  · cases hst.eq_of_ok htrue
    exact ⟨hrefl hs, hst⟩
  · cases hts.eq_of_ok htrue
    exact ⟨hts, hrefl ht⟩
  · cases hst.eq_of_ok hfalse
    cases hts.eq_of_ok hfalse'
    obtain ⟨hsingle, hone, hordered⟩ :=
      (hmeets.resolve_left fun h => by cases h.eq hst).resolve_left fun h => by cases h.eq hts
    have hall (b : Ty) (hb : b ∈ s.members ++ t.members) : tbl.Fine captures b :=
      (mem_append.mp hb).elim (hmember hs) (hmember ht)
    obtain ⟨g', hg', hbelow⟩ := exists_greatestLowerBound_of_apart hsingle
      (fun x hx y hy => hsettles (hall x hx) (hall y hy)) hone hordered hst hts
    exact hg'.eq_of_ok hg ▸ hbelow

/-- The wildcard above the greatest lower bound of two types is bounded by a type below both. -/
theorem Joinable.keeps_superBound (h : tbl.Joinable captures) (hs : tbl.Fine captures s)
    (ht : tbl.Fine captures t) (hmeets : tbl.Meets s t) :
    Keeps (tbl.Known captures) (tbl.superBound n (tbl.lub n) s t) fun w =>
      ∃ g, w = .wildcard 0 tbl.objectType g [] ∧ tbl.Confirmed g s ∧ tbl.Confirmed g t := by
  refine (Keeps.lift _).bind fun g hg => (Keeps.lift _).bind fun w hw => ?_
  obtain ⟨u, l, rfl, -, -, -, hu, hl⟩ := makeWildcard_eq_ok hw
  obtain rfl : u = tbl.objectType := hu.resolve_right nofun
  refine Keeps.pure ⟨l, rfl, ?_⟩
  rcases hl with rfl | hl
  · exact ⟨h.confirmed_of_sub fine_null hs hs.null_sub, h.confirmed_of_sub fine_null ht ht.null_sub⟩
  · cases hl
    exact h.confirmed_of_greatestLowerBound hs ht hmeets hg

/-! ### All combinations of bounds -/

/-- The conditions under which the argument that is found contains both. The lower bounds have a
greatest lower bound below both, and an argument that is bounded from below differs from the bound
of one that is bounded from above only. -/
structure Spannable (tbl : Table) (a a' : Ty) : Prop where
  meets : (a.isSuper || a'.isSuper) = true → a.isExtends = false → a'.isExtends = false →
    tbl.Meets a.orLower a'.orLower
  differ : a.isSuper = true → a'.isExtends = true → a.orLower.same a'.orUpper = false
  differ' : a'.isSuper = true → a.isExtends = true → a'.orLower.same a.orUpper = false

theorem Meets.symm (h : tbl.Meets s t) : tbl.Meets t s := by
  rcases h with hst | hts | ⟨hsingle, hone, hordered⟩
  · exact .inr (.inl hst)
  · exact .inl hts
  · have hmem {x : Ty} (hx : x ∈ t.members ++ s.members) : x ∈ s.members ++ t.members :=
      mem_append.mpr (mem_append.mp hx).symm
    refine .inr (.inr ⟨fun b hb => hsingle b (hmem hb),
      fun x hx y hy => hone x (hmem hx) y (hmem hy),
      fun x hx y hy z hz => hordered.trans x (hmem hx) y (hmem hy) z (hmem hz),
      fun x hx y hy => hordered.antisymm x (hmem hx) y (hmem hy)⟩)

/-- The wildcard that contains everything contains both arguments. -/
theorem Joinable.keeps_sameOrUnbounded (h : tbl.Joinable captures) (ha : tbl.Argument captures a)
    (ha' : tbl.Argument captures a') (hne : s.same t = false) :
    Keeps (tbl.Known captures) (tbl.sameOrUnbounded s t : BoundsM Result Ty) fun w =>
      tbl.Spans w a ∧ tbl.Spans w a' := by
  have hnull {x : Ty} (hx : tbl.Argument captures x) : tbl.Confirmed .null x.orLower :=
    h.confirmed_of_sub fine_null hx.orLower hx.orLower.null_sub
  unfold sameOrUnbounded
  rw [hne, if_neg Bool.false_ne_true]
  refine (Keeps.lift _).bind fun w hw => ?_
  cases hw
  exact Keeps.pure ⟨ha.spans h (hnull ha), ha'.spans h (hnull ha')⟩

theorem containingArgument_of_super (ha : a.isSuper = true) :
    tbl.containingArgument n lub active a a' =
      if a'.isExtends then tbl.sameOrUnbounded a.orLower a'.orUpper
      else tbl.superBound n lub a.orLower a'.orLower := by
  cases a with
  | wildcard m upper lower marks =>
    have hlower : lower.isNull = false := (Bool.not_eq_true' _).mp ha
    cases a' with
    | wildcard m' upper' lower' marks' =>
      cases hlower' : lower'.isNull <;>
        simp [containingArgument, Ty.isExtends, Ty.orLower, Ty.orUpper, hlower, hlower']
    | _ => simp [containingArgument, Ty.isExtends, Ty.orLower, hlower]
  | _ => cases ha

theorem containingArgument_of_super_right (ha : a.isSuper = false) (ha' : a'.isSuper = true) :
    tbl.containingArgument n lub active a a' =
      if a.isExtends then tbl.sameOrUnbounded a'.orLower a.orUpper
      else tbl.superBound n lub a'.orLower a.orLower := by
  cases a' with
  | wildcard m' upper' lower' marks' =>
    have hlower' : lower'.isNull = false := (Bool.not_eq_true' _).mp ha'
    cases a with
    | wildcard m upper lower marks =>
      have hlower : lower.isNull = true := by simpa [Ty.isSuper] using ha
      simp [containingArgument, Ty.isExtends, Ty.orLower, Ty.orUpper, hlower, hlower']
    | _ => simp [containingArgument, Ty.isExtends, Ty.orLower, hlower']
  | _ => cases ha'

/-- What is found for an argument that is bounded from below contains both. -/
theorem Joinable.keeps_of_super (h : tbl.Joinable captures) (ha : tbl.Argument captures a)
    (ha' : tbl.Argument captures a')
    (hmeets : a'.isExtends = false → tbl.Meets a.orLower a'.orLower)
    (hdiffer : a'.isExtends = true → a.orLower.same a'.orUpper = false) :
    Keeps (tbl.Known captures) (if a'.isExtends then tbl.sameOrUnbounded a.orLower a'.orUpper
      else tbl.superBound n (tbl.lub n) a.orLower a'.orLower) fun w =>
        tbl.Spans w a ∧ tbl.Spans w a' := by
  split_ifs with hextends
  · exact h.keeps_sameOrUnbounded ha ha' (hdiffer hextends)
  · rw [Bool.not_eq_true] at hextends
    refine (h.keeps_superBound ha.orLower ha'.orLower (hmeets hextends)).mono fun w hw => ?_
    obtain ⟨g, rfl, hg, hg'⟩ := hw
    exact ⟨ha.spans h hg, ha'.spans h hg'⟩

/-- The argument that is found for two others contains both, and the known bounds remain upper
bounds. -/
theorem Joinable.spans_containingArgument (h : tbl.Joinable captures) {active : List (List Ty)}
    (ha : tbl.Argument captures a) (ha' : tbl.Argument captures a')
    (hspannable : tbl.Spannable a a')
    {known known' : KnownBounds} (hknown : tbl.Known captures known)
    (hr : (tbl.containingArgument n (tbl.lub n) active a a').run known =
      (.ok (r, known') : Result (Ty × KnownBounds))) :
    tbl.Spans r a ∧ tbl.Spans r a' ∧ tbl.Known captures known' := by
  have hkeeps : Keeps (tbl.Known captures) (tbl.containingArgument n (tbl.lub n) active a a')
      fun w => tbl.Spans w a ∧ tbl.Spans w a' := by
    cases hsuper : a.isSuper with
    | true =>
      rw [containingArgument_of_super hsuper]
      refine h.keeps_of_super ha ha' (fun hextends => ?_) (hspannable.differ hsuper)
      exact hspannable.meets (by rw [hsuper, Bool.true_or])
        (Ty.isExtends_of_isSuper hsuper) hextends
    | false =>
      cases hsuper' : a'.isSuper with
      | true =>
        rw [containingArgument_of_super_right hsuper hsuper']
        refine (h.keeps_of_super ha' ha (fun hextends => ?_) (hspannable.differ' hsuper')).mono
          fun w hw => hw.symm
        exact (hspannable.meets (by rw [hsuper', Bool.or_true]) hextends
          (Ty.isExtends_of_isSuper hsuper')).symm
      | false =>
        cases ha with
        | lower _ hnull => simp [Ty.isSuper, hnull] at hsuper
        | covariant ha =>
          cases ha' with
          | lower _ hnull => simp [Ty.isSuper, hnull] at hsuper'
          | covariant ha' =>
            refine (h.keeps_containingArgument (h.joins_lub n) ha ha').mono fun w hw => ?_
            exact ⟨h.spans_of_contained hw.1 ha hw.2.1, h.spans_of_contained hw.1 ha' hw.2.2⟩
  obtain ⟨⟨hspans, hspans'⟩, hknown'⟩ := hkeeps known hknown (r, known') hr
  exact ⟨hspans, hspans', hknown'⟩

theorem nestedUses_joinable : nestedUses.Joinable (fun _ => .null) := by
  have horderly : nestedUses.Orderly := orderly_of_isLayered (by rfl) (by rfl) (by rfl)
  have hobeys : nestedUses.Obeys .unowned := horderly.obeys_of_tests (by rfl) (by rfl)
  exact hobeys.joinable_of_tests ⟨by decide, by decide, by decide⟩ (by rfl) (by rfl)

set_option maxRecDepth 20000 in
/-- A wildcard that is bounded from below by a class and an interface, and a subinterface. -/
theorem Joinable.spans_containingArgument_meet :
    let lower := Ty.intersection 0 [bareClass 1, bareClass 2]
    let a := Ty.wildcard 0 nestedUses.objectType lower []
    let r := Ty.wildcard 0 nestedUses.objectType (.intersection 0 [bareClass 1, bareClass 3]) []
    (nestedUses.Joinable (fun _ => .null) ∧ nestedUses.Argument (fun _ => .null) a ∧
      nestedUses.Argument (fun _ => .null) (bareClass 3) ∧ nestedUses.Spannable a (bareClass 3) ∧
      nestedUses.Known (fun _ => .null) [] ∧
      (nestedUses.containingArgument 5 (nestedUses.lub 5) [] a (bareClass 3)).run [] =
        (.ok (r, []) : Result (Ty × KnownBounds))) ∧
      nestedUses.Spans r a ∧ nestedUses.Spans r (bareClass 3) ∧
        nestedUses.Known (fun _ => .null) [] := by
  intro lower a r
  have htest : nestedUses.testOrder 5 (lower.members ++ (bareClass 3).members) = true := by rfl
  have hone : nestedUses.OneClass (lower.members ++ (bareClass 3).members) := by
    unfold OneClass
    decide
  have hclass (i : Nat) (hi : (nestedUses.cls ⟨i⟩).isPrimitive = false) :
      nestedUses.Fine (fun _ => .null) (bareClass i) := fine_bare_class hi []
  have hlower : nestedUses.Fine (fun _ => .null) lower := by
    refine ⟨⟨rfl, .intro ⟨rfl, nofun, by decide⟩ ?_⟩, rfl,
      .intro (forall_mem_cons.mpr ⟨rfl, forall_mem_singleton.mpr rfl⟩) ?_⟩
    · exact forall_mem_cons.mpr
        ⟨(hclass 1 rfl).within.2, forall_mem_singleton.mpr (hclass 2 rfl).within.2⟩
    · exact forall_mem_cons.mpr
        ⟨(hclass 1 rfl).solid, forall_mem_singleton.mpr (hclass 2 rfl).solid⟩
  have ha : nestedUses.Argument (fun _ => .null) a := .lower hlower rfl
  have ha' : nestedUses.Argument (fun _ => .null) (bareClass 3) :=
    .covariant ⟨⟨rfl, (hclass 3 rfl).within.2⟩, (hclass 3 rfl).solid⟩
  have hspannable : nestedUses.Spannable a (bareClass 3) :=
    ⟨fun _ _ _ => .inr (.inr ⟨isSingle_of_testOrder htest, hone, ordered_of_testOrder htest⟩),
      nofun, nofun⟩
  have hknown : nestedUses.Known (fun _ => .null) [] := forall_mem_nil _
  have hr : (nestedUses.containingArgument 5 (nestedUses.lub 5) [] a (bareClass 3)).run [] =
      (.ok (r, []) : Result (Ty × KnownBounds)) := by rfl
  exact ⟨⟨nestedUses_joinable, ha, ha', hspannable, hknown, hr⟩,
    nestedUses_joinable.spans_containingArgument ha ha' hspannable hknown hr⟩

set_option maxRecDepth 20000 in
/-- Equal bounds from above and from below give the bound itself, and the lower bounds of two
classes are merged to an upper bound. What is found does not contain the first argument then. -/
theorem containingArgument_not_spans :
    let lower (i : Nat) : Ty := .wildcard 0 siblings.objectType (bareClass i) []
    let upper : Ty := .wildcard 0 (bareClass 4) .null []
    let r : Ty := .wildcard 0 siblings.objectType (.intersection 0 [bareClass 3, bareClass 1,
      .declared ⟨2⟩ [.wildcard 0 siblings.objectType .null []] none []]) []
    siblings.Joinable (fun _ => .null) ∧
      ((siblings.containingArgument 9 (siblings.lub 9) [] (lower 4) upper).run [] =
          (.ok (bareClass 4, []) : Result (Ty × KnownBounds)) ∧
        ¬siblings.Spans (bareClass 4) (lower 4)) ∧
      (siblings.containingArgument 9 (siblings.lub 9) [] (lower 4) (lower 5)).run [] =
          (.ok (r, []) : Result (Ty × KnownBounds)) ∧ ¬siblings.Spans r (lower 4) := by
  have horderly : siblings.Orderly := orderly_of_isLayered (by rfl) (by rfl) (by rfl)
  have hobeys : siblings.Obeys .unowned := horderly.obeys_of_tests (by rfl) (by rfl)
  have hjoinable : siblings.Joinable (fun _ => .null) :=
    hobeys.joinable_of_tests ⟨by decide, by decide, by decide⟩ (by rfl) (by rfl)
  have hspans {r a : Ty} (hsame : r.same a = false)
      (hcontains : siblings.contains 9 r a = .ok false) : ¬siblings.Spans r a := by
    rintro (h | h)
    · cases hsame.symm.trans h
    · cases h.eq_of_ok hcontains
  exact ⟨hjoinable, ⟨by rfl, hspans (by rfl) (by rfl)⟩, by rfl, hspans (by rfl) (by rfl)⟩

end Table

end NominalTypes
