import NominalTypes.Proofs.Overriding
import NominalTypes.Proofs.Reflexivity
import NominalTypes.Ty.Apply

/-!
# Members of inner classes

An inner class can be applied with any owner whose class is the enclosing class or a subclass of it.
A member of the inner class is seen with the arguments of the inner class and with those that the
owner and the types around the owner have as they are written. The owner is not taken up to the
enclosing class first: what a subclass puts for the type parameters of the enclosing class is not
looked at.

So two owners that parameterize the enclosing class alike need not show the same member. They do if
they put the same types for the type parameters that the type of the member mentions, apart from
those of the inner class.
-/

namespace NominalTypes.Table

open List

variable {tbl : Table} {occurrences : Nat → TypeKind → Ty} {c d i o : ClassId} {args : List Ty}
  {t w : Ty} {n : Nat} {owner : Option Ty} {marks : List ClassId}

/-! ### The way up -/

/-- Whatever is above a type as the program builds it is such a type. -/
theorem Orderly.genuine_of_reaches (h : tbl.Orderly) (hplain : tbl.PlainlyRooted) (hw : w.Formed)
    (hgenuine : tbl.Genuine occurrences w) (ht : tbl.Reaches w t) :
    t.Formed ∧ tbl.Genuine occurrences t := by
  induction ht with
  | refl => exact ⟨hw, hgenuine⟩
  | tail _ hstep ih =>
    rcases h.bare_or_realizes hplain ih.1 ih.2 hstep with ⟨d, ms, rfl⟩ | ⟨p, hformed, -, -, hreal⟩
    · have hviewed : tbl.Viewed occurrences (.declared d [] none ms) :=
        viewed_bare_class h.rooted d ms
      exact ⟨hviewed.formed, hviewed.genuine⟩
    · exact ⟨hformed, hreal.2⟩

theorem Orderly.genuine_of_resolves (h : tbl.Orderly) (hplain : tbl.PlainlyRooted) (hw : w.Formed)
    (hgenuine : tbl.Genuine occurrences w) {r} (hr : tbl.Resolves w o (some r)) :
    r.Formed ∧ tbl.Genuine occurrences r ∧ Ty.Uses o r := by
  obtain ⟨hreaches, huses⟩ := h.reaches_of_resolves hw hr
  obtain ⟨hformed, hgenuine⟩ := h.genuine_of_reaches hplain hw hgenuine hreaches
  exact ⟨hformed, hgenuine, huses⟩

theorem Orderly.resolves_of_resolveSupertype (h : tbl.Orderly) (hw : w.Formed) {k r}
    (hr : (tbl.resolveSupertype k w o : Result (Option Ty)) = .ok r) : tbl.Resolves w o r := by
  obtain ⟨r', hr', -⟩ := h.exists_resolves (p := fun _ => True)
    (fun _ _ _ _ _ => trivial) hw trivial o
  rwa [← hr'.settles.eq_of_ok hr] at hr'

/-! ### Owners that are given -/

/-- An owner is kept if its class is the enclosing class or below it. -/
theorem applicationOwner_eq (henclosing : (tbl.cls i).enclosing = some o)
    (hstatic : tbl.isStatic i = false) (hd : tbl.isSubclassOf d o = .ok true) :
    tbl.applicationOwner i (some (.declared d args owner marks)) =
      .ok (some (.declared d args owner marks)) := by
  simp [applicationOwner, henclosing, hd, hstatic, bind, Except.bind, pure, Except.pure]

theorem isSubclassOf_of_applicationOwner (henclosing : (tbl.cls i).enclosing = some o) {r}
    (hr : tbl.applicationOwner i (some (.declared d args owner marks)) = .ok r) :
    tbl.isSubclassOf d o = .ok true := by
  simp only [applicationOwner, henclosing] at hr
  obtain ⟨fits, hfits, hr⟩ := bind_eq_ok.mp hr
  cases fits with
  | true => exact hfits
  | false =>
    obtain ⟨name, -, hr⟩ := bind_eq_ok.mp hr
    cases hr

/-- What a class is applied to is checked without regard to the owner. -/
theorem apply_of_applicationOwner {w'} (hw : tbl.applicationOwner c (some w) = .ok (some w))
    (hw' : tbl.applicationOwner c (some w') = .ok (some w'))
    (ht : tbl.apply n c args (some w) = .ok t) :
    t = .declared c args (some w) [] ∧ tbl.Checked (.declared c args none []) ∧
      tbl.apply n c args (some w') = .ok (.declared c args (some w') []) := by
  rw [apply, hw] at ht
  obtain ⟨owner, howner, ht⟩ := bind_eq_ok.mp ht
  cases howner
  obtain ⟨made, hmade, ht⟩ := bind_eq_ok.mp ht
  obtain ⟨rfl, hcount, harguments⟩ := makeDeclared_eq_ok hmade
  obtain ⟨checked, hchecked, ht⟩ := bind_eq_ok.mp ht
  cases ht
  refine ⟨rfl, ⟨hcount, harguments⟩, ?_⟩
  rw [apply, hw']
  refine bind_eq_ok.mpr ⟨some w', rfl, bind_eq_ok.mpr
    ⟨_, makeDeclared_ok (some w') [] hcount harguments, bind_eq_ok.mpr ⟨checked, hchecked, rfl⟩⟩⟩

/-! ### Members of inner classes -/

/-- An inner class with arguments and an owner, as the program builds it. -/
theorem genuine_inner (hroot : tbl.Rooted) (hplain : tbl.PlainlyRooted)
    (henclosing : (tbl.cls i).enclosing = some o)
    (hargs : ∀ a ∈ args, tbl.GenuineArgument occurrences a)
    (hchecked : tbl.Checked (.declared i args none [])) (hw : w.Formed)
    (hgenuine : tbl.Genuine occurrences w) :
    (Ty.declared i args (some w) []).Formed ∧
      tbl.Genuine occurrences (.declared i args (some w) []) := by
  refine ⟨.intro (fun a ha => (hargs a ha).suits) fun x hx => ?_,
    .declared ⟨hchecked, fun h => absurd rfl h, fun hobject => ?_⟩ (fun a ha => (hargs a ha).2)
      fun x hx => ?_⟩
  · cases hx
    exact hw
  · -- The root class is not nested.
    have hname : (tbl.cls i).name = "java.lang.Object" := by simpa [isObject] using hobject
    rw [hroot.unique i hname, hplain.1] at henclosing
    cases henclosing
  · cases hx
    exact hgenuine

/-- What an inner class with its owner puts for a type parameter is an argument of the class, or
what the owner puts for it. -/
theorem bare_image_owner (hchecked : tbl.Checked (.declared i args none [])) {w' v}
    (h : v ∈ tbl.typeVars (.cls i) ∧ args ≠ [] ∨
      (Ty.image (tbl.assignment w) v).bare = (Ty.image (tbl.assignment w') v).bare) :
    (Ty.image (tbl.assignment (.declared i args (some w) [])) v).bare =
      (Ty.image (tbl.assignment (.declared i args (some w') [])) v).bare := by
  rw [Ty.image, Ty.image, Ty.subst, Ty.subst, assignment, assignment]
  cases hown : (if v ∈ tbl.typeVars (.cls i) then args[v.index]? else none) with
  | some a => rfl
  | none =>
    refine h.elim (fun hv => ?_) id
    have hindex : v.index < args.length := by
      rw [hchecked.1.resolve_left hv.2]
      exact (mem_typeVars.mp hv.1).2
    rw [if_pos hv.1, getElem?_eq_getElem hindex] at hown
    cases hown

/-- A member of an inner class is seen with the arguments of the inner class and with what its
owner, as it is written, puts for the other type parameters. So it is seen alike through an owner
and through what the owner is for the enclosing class, if the two put the same for the type
parameters that the member mentions and that have no argument of their own. -/
theorem Orderly.exists_memberType_of_owner (h : tbl.Orderly) (hplain : tbl.PlainlyRooted)
    (henclosing : (tbl.cls i).enclosing = some o) (hstatic : tbl.isStatic i = false)
    (hargs : ∀ a ∈ args, tbl.GenuineArgument occurrences a) (hw : w.Formed)
    (hgenuine : tbl.Genuine occurrences w) (ht : tbl.apply n i args (some w) = .ok t)
    {k : Nat} {w' : Ty}
    (hw' : (tbl.resolveSupertype k w o : Result (Option Ty)) = .ok (some w')) {x : Element} {p : Ty}
    (hx : .cls i ∈ x.generics) (hp : tbl.typeOf x = .ok p)
    (hconfined : tbl.Confined (fun _ => True) p) :
    ∃ t' y y', tbl.apply n i args (some w') = .ok t' ∧
      Settles (fun k => tbl.memberType k t x) y ∧ Settles (fun k => tbl.memberType k t' x) y' ∧
      y.bare = (p.replace (tbl.assignment (.declared i args (some w) []))).bare ∧
      y'.bare = (p.replace (tbl.assignment (.declared i args (some w') []))).bare ∧
      (p.Every (Ty.Over fun v => v ∈ tbl.typeVars (.cls i) ∧ args ≠ [] ∨
        (Ty.image (tbl.assignment w) v).bare = (Ty.image (tbl.assignment w') v).bare) →
        y.same y' = true) := by
  obtain ⟨d, ds, owner, marks, rfl⟩ := Ty.exists_eq_declared hw.kind
  have hd : tbl.isSubclassOf d o = .ok true := by
    rw [apply] at ht
    obtain ⟨r, hr, -⟩ := bind_eq_ok.mp ht
    exact isSubclassOf_of_applicationOwner henclosing hr
  have ho : tbl.isSubclassOf o o = .ok true := by simp [isSubclassOf]
  obtain ⟨hformed', hgenuine', ds', owner', marks', rfl⟩ :=
    h.genuine_of_resolves hplain hw hgenuine (h.resolves_of_resolveSupertype hw hw')
  obtain ⟨rfl, hchecked, ht'⟩ := apply_of_applicationOwner
    (applicationOwner_eq henclosing hstatic hd) (applicationOwner_eq henclosing hstatic ho) ht
  obtain ⟨hinner, hgenuineInner⟩ :=
    genuine_inner h.rooted hplain henclosing hargs hchecked hw hgenuine
  obtain ⟨hinner', hgenuineInner'⟩ :=
    genuine_inner h.rooted hplain henclosing hargs hchecked hformed' hgenuine'
  obtain ⟨y, hy, hreal⟩ := h.exists_memberType hinner hx hp hconfined resolves_self hinner
    hgenuineInner
  obtain ⟨y', hy', hreal'⟩ := h.exists_memberType hinner' hx hp hconfined resolves_self hinner'
    hgenuineInner'
  refine ⟨_, y, y', ht', hy, hy', hreal.1, hreal'.1, fun hagree => ?_⟩
  refine Ty.same_of_bare_eq (hreal.1.trans ((Ty.bare_replace_congr_of_over ?_).trans hreal'.1.symm))
  exact hagree.mono fun z hz m v ms hv => bare_image_owner hchecked (hz m v ms hv)

/-- A generic class with an inner class, which has a field of the type of each type parameter, and a
subclass that gives the generic class an argument. -/
def innerFields : Table where
  classes := #[
    { name := "java.lang.Object", simpleName := "Object", kind := .cls },
    { name := "p.A", simpleName := "A", kind := .cls, superclass := some (.named ⟨0⟩ []) },
    { name := "p.O", simpleName := "O", kind := .cls, typeParameters := [{ name := "T" }],
      superclass := some (.named ⟨0⟩ []), memberClasses := [⟨3⟩] },
    { name := "p.O.I", simpleName := "I", kind := .cls, nesting := .member, enclosing := some ⟨2⟩,
      typeParameters := [{ name := "U" }], superclass := some (.named ⟨0⟩ []),
      fields := [{ name := "f", type := .var ⟨.cls ⟨2⟩, 0⟩ [] },
        { name := "g", type := .array (.var ⟨.cls ⟨3⟩, 0⟩ []) [] }] },
    { name := "p.Sub", simpleName := "Sub", kind := .cls,
      superclass := some (.applied ⟨2⟩ [.named ⟨1⟩ []] none []) }]

theorem Orderly.exists_memberType_of_owner_array :
    let A : Ty := .declared ⟨1⟩ [] none []
    let w : Ty := .declared ⟨4⟩ [] none []
    let w' : Ty := .declared ⟨2⟩ [A] none []
    let t : Ty := .declared ⟨3⟩ [A] (some w) []
    let g : Element := .field ⟨⟨3⟩, 1⟩
    innerFields.apply 5 ⟨3⟩ [A] (some w) = .ok t ∧
      (innerFields.resolveSupertype 5 w ⟨2⟩ : Result (Option Ty)) = .ok (some w') ∧
      ∃ t' y y', innerFields.apply 5 ⟨3⟩ [A] (some w') = .ok t' ∧
        Settles (fun k => innerFields.memberType k t g) y ∧
        Settles (fun k => innerFields.memberType k t' g) y' ∧ y.same y' = true := by
  intro A w w' t g
  have h : innerFields.Orderly := orderly_of_isLayered (by rfl) (by rfl) (by rfl)
  have hplain : innerFields.PlainlyRooted := ⟨rfl, fun c ps hps p hp => of_decide_eq_true
    (forall_of_testPatterns (p := fun _ p => decide (innerFields.Confined (fun _ => True) p))
      (by rfl) hps p hp)⟩
  have hA : innerFields.Viewed (fun _ _ => .null) A := viewed_bare_class h.rooted _ _
  have hw : innerFields.Viewed (fun _ _ => .null) w := viewed_bare_class h.rooted _ _
  have ht : innerFields.apply 5 ⟨3⟩ [A] (some w) = .ok t := by rfl
  have hw' : (innerFields.resolveSupertype 5 w ⟨2⟩ : Result (Option Ty)) = .ok (some w') := by rfl
  obtain ⟨t', y, y', ht', hy, hy', -, -, hsame⟩ := h.exists_memberType_of_owner hplain
    (by rfl) (by rfl)
    (forall_mem_singleton.mpr ⟨rfl, hA.genuine⟩) hw.formed hw.genuine ht hw' (x := g)
    mem_cons_self (by rfl) (by decide)
  have hown : (Ty.array (.var 0 ⟨.cls ⟨3⟩, 0⟩ []) []).Every
      (Ty.Over (· ∈ innerFields.typeVars (.cls ⟨3⟩))) := by decide
  exact ⟨ht, hw', t', y, y', ht', hy, hy', hsame (hown.mono fun z hz m v ms hv =>
    .inl ⟨hz m v ms hv, cons_ne_nil _ _⟩)⟩

/-- The type parameter of the enclosing class is left in place where the owner is a subclass, though
the owner is a subtype of the enclosing class with an argument. -/
theorem memberType_of_owner_ne :
    let A : Ty := .declared ⟨1⟩ [] none []
    let w : Ty := .declared ⟨4⟩ [] none []
    let w' : Ty := .declared ⟨2⟩ [A] none []
    let inner (owner : Ty) : Ty := .declared ⟨3⟩ [A] (some owner) []
    let f : Element := .field ⟨⟨3⟩, 0⟩
    (∀ x ∈ [w, w'], innerFields.apply 5 ⟨3⟩ [A] (some x) = .ok (inner x)) ∧
      (innerFields.resolveSupertype 5 w ⟨2⟩ : Result (Option Ty)) = .ok (some w') ∧
      innerFields.isSubtype 5 (inner w) (inner w') = .ok true ∧
      innerFields.memberType 5 (inner w) f = .ok (.var 0 ⟨.cls ⟨2⟩, 0⟩ []) ∧
      innerFields.memberType 5 (inner w') f = .ok A ∧
      (Ty.var 0 ⟨.cls ⟨2⟩, 0⟩ []).same A = false := by
  intro A w w' inner f
  refine ⟨?_, by rfl, by rfl, by rfl, by rfl, rfl⟩
  simp only [forall_mem_cons]
  exact ⟨by rfl, by rfl, forall_mem_nil _⟩

/-! ### Subtypes without an owner -/

/-- A use of a class without arguments and without an owner is below each use of it without
arguments: an owner that only one side has is not compared with anything. -/
theorem isSubtype_of_absent_owner (tbl : Table) (c : ClassId) (o : Option Ty)
    (marks marks' : List ClassId) (k : Nat) :
    tbl.isSubtype (k + 2) (.declared c [] none marks) (.declared c [] o marks') = .ok true := by
  have hresolve :
      (tbl.resolveSupertype (k + 1) (.declared c [] none marks) c : Result (Option Ty)) =
        .ok (some (.declared c [] none marks)) := by
    rw [resolveSupertype_eq_climb]
    simp [climb, ascend, bind, Except.bind, pure, Except.pure]
  have hupper : tbl.checkUpper (k + 1) (tbl.check (k + 1)) .subtype (.declared c [] none marks)
      (.declared c [] o marks') = .ok true := by
    simp only [checkUpper, checkDeclared, isSubclassOf, if_pos, hresolve]
    rfl
  rw [isSubtype_eq_of_isPseudo rfl rfl]
  by_cases hocc : (Ty.declared c [] none marks).isSameOccurrence (.declared c [] o marks') = true
  · unfold check checkStep
    rw [if_pos hocc]
    rfl
  · rw [check_simple (by simp [Ty.kind]) (by simp [Ty.kind]) (Bool.eq_false_iff.mpr hocc),
      checkSimple, hupper]
    split_ifs with _ hprimitive hnone
    · rfl
    · cases hprimitive
    · cases hnone
    · rfl
    · rfl

/-- So an inner class whose owner was erased is below the inner class of every parameterization,
though the inner classes of different parameterizations are unrelated. -/
theorem isSubtype_erased_owner :
    let tbl : Table := {
      classes := #[
        { name := "java.lang.Object", simpleName := "Object", kind := .cls },
        { name := "p.A", simpleName := "A", kind := .cls },
        { name := "p.B", simpleName := "B", kind := .cls },
        { name := "p.Outer", simpleName := "Outer", kind := .cls,
          typeParameters := [{ name := "T" }] },
        { name := "p.Outer.Inner", simpleName := "Inner", kind := .cls, nesting := .member,
          enclosing := some ⟨3⟩ }] }
    let outer (c : Nat) : Ty := .declared ⟨3⟩ [.declared ⟨c⟩ [] none []] none []
    let inner (o : Option Ty) : Ty := .declared ⟨4⟩ [] o []
    tbl.isSubtype 6 (inner (some (outer 1))) (inner (some (outer 2))) = .ok false ∧
      tbl.erase 6 (inner (some (outer 1))) = .ok (inner none) ∧
      tbl.isSubtype 6 (inner none) (inner (some (outer 2))) = .ok true := by
  intro tbl outer inner
  exact ⟨by rfl, by rfl, by rfl⟩

end NominalTypes.Table
