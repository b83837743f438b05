import NominalTypes.Proofs.Cutoff
import NominalTypes.Proofs.Instantiation

/-!
# Assignability and subtyping

The two relations are one recursion with a flag. The flag is read where one of two types is
primitive, for boxing and unboxing, and where a raw type meets a parameterization of its class. It
is handed on to all other comparisons, except that type arguments are always compared strictly.

Each step is weaker with the flag than without it, so a subtype is assignable. Conversely, where
neither a primitive type nor a raw type can come up on the left, the flag is never read. What comes
up there is found by going up: in the owners, components, bounds and alternatives of a type, in the
bounds of its variables, and in what its class inherits. The arguments do not come up by themselves,
and substitution makes no raw type of a type that has arguments.
-/

namespace NominalTypes

open List

variable {c target : ClassId} {args args' : List Ty} {owner owner' : Option Ty}

theorem anyM_congr {α : Type} {f g : α → Result Bool} {xs : List α} (h : ∀ x ∈ xs, f x = g x) :
    xs.anyM f = xs.anyM g := by
  induction xs with
  | nil => rfl
  | cons x xs ih =>
    rw [forall_mem_cons] at h
    rw [anyM_cons, anyM_cons, h.1, ih h.2]

/-! ### A subtype is assignable -/

/-- If the first test holds, then the second does not answer that it fails. -/
def Weaker (r r' : Result Bool) : Prop :=
  r = .ok true → ∀ b, r' = .ok b → b = true

theorem comparison_weaker : Comparison Weaker where
  refl r h b hb := by
    cases h.symm.trans hb
    rfl
  bind hr hf h b hb := by
    obtain ⟨a, ha, h⟩ := bind_eq_ok.mp h
    obtain ⟨a', ha', hb⟩ := bind_eq_ok.mp hb
    cases (hr.eq_ok ha).symm.trans ha'
    exact hf a h b hb
  or hr htrue htrue' hfalse h b hb := by
    obtain ⟨x, hx, h⟩ := bind_eq_ok.mp h
    obtain ⟨x', hx', hb⟩ := bind_eq_ok.mp hb
    cases x' with
    | true => exact Except.ok.inj (hb.symm.trans htrue')
    | false =>
      cases x with
      | true => exact absurd (hr hx false hx') (by decide)
      | false => exact hfalse h b hb
  and hr htrue hfalse hfalse' h b hb := by
    obtain ⟨x, hx, h⟩ := bind_eq_ok.mp h
    obtain ⟨x', hx', hb⟩ := bind_eq_ok.mp hb
    cases x with
    | false => cases hfalse.symm.trans h
    | true =>
      cases hr hx x' hx'
      exact htrue h b hb

namespace Table

variable {tbl : Table}

/-- Where the strict check holds, the check of assignability does not answer that it fails. -/
theorem weaker_check (k : Nat) (s t : Ty) :
    Weaker (tbl.check k .subtype s t) (tbl.check k .assignable s t) := by
  have hfalse (r : Result Bool) : Weaker (.ok false) r := fun h => nomatch h
  induction k generalizing s t with
  | zero => exact comparison_weaker.refl _
  | succ k ih =>
    refine compare_checkStep comparison_weaker ih (fun _ _ => .refl _) (hfalse _) (Nat.le_refl k)
      (fun s t => ?_) s t
    unfold checkPrimitive
    split
    · exact comparison_weaker.refl _
    · exact hfalse _
    · exact hfalse _
    · exact hfalse _

end Table

/-! ### What comes up on the way -/

/-- The type is not primitive, and primitive types occur in it only as components of arrays. -/
def Ty.Referential (t : Ty) : Prop :=
  t.isPrimitive = false ∧
    t.Every fun x => x.kind = .array ∨ ∀ y ∈ x.children, y.isPrimitive = false

theorem Ty.Referential.part {t x : Ty} (h : t.Referential) (hx : x ∈ t.children)
    (harray : t.kind ≠ .array) : x.Referential :=
  ⟨h.2.top.resolve_left harray x hx, h.2.part hx⟩

namespace Table

section Definitions

variable (tbl : Table)

/-- Whether the type is a use of a generic class without arguments. -/
def isRawUse : Ty → Bool
  | .declared c args _ _ => tbl.isRaw c args
  | _ => false

/-- No raw type occurs in the type. -/
def RawFree (t : Ty) : Prop :=
  t.Every (tbl.isRawUse · = false)

/-- If the type is a use of a class, then of a class of the table, without arguments or with one for
each type parameter. -/
def Applies : Ty → Prop
  | .declared c args _ _ =>
    c.index < tbl.classes.size ∧ (args = [] ∨ args.length = (tbl.cls c).typeParameters.length)
  | _ => True

/-- No class inherits a raw type: none occurs in a supertype expression, and the root class, which
stands for a missing one, has no type parameters. Classes without a superclass are known by name. -/
structure InheritsNoRaw : Prop where
  supertypes : ∀ c ts, tbl.descriptors (tbl.supertypeExprs c) = .ok ts → ∀ t ∈ ts, tbl.RawFree t
  object : (tbl.cls tbl.core.object).typeParameters = []
  roots : ∀ c, c.index < tbl.classes.size → (tbl.cls c).superclass = none →
    (tbl.cls c).isInterface = true ∨ (tbl.cls c).isPrimitive = true ∨
      (tbl.cls c).name = "java.lang.Object"

/-- Nothing that is met in going up from the type, as far as its own variables, is primitive or
raw: the type itself, its owners, bounds and alternatives, and the components of arrays unless these
are primitive. -/
inductive Upright (V : TypeVarId → Prop) : Ty → Prop
  | declared {c args owner marks} (hraw : tbl.isRaw c args = false)
    (howner : ∀ o ∈ owner, Upright V o) : Upright V (.declared c args owner marks)
  | array {component marks} (hcomponent : component.isPrimitive = false → Upright V component) :
    Upright V (.array component marks)
  | var {n v marks} (hv : V v) : Upright V (.var n v marks)
  | captured {token site upper lower marks} (hupper : Upright V upper) :
    Upright V (.captured token site upper lower marks)
  | wildcard {n upper lower marks} (hupper : Upright V upper) :
    Upright V (.wildcard n upper lower marks)
  | intersection {n bounds} (hbounds : ∀ b ∈ bounds, Upright V b) :
    Upright V (.intersection n bounds)
  | union {n alternatives} (halternatives : ∀ a ∈ alternatives, Upright V a) :
    Upright V (.union n alternatives)
  | other {t} (ht : t.isNoType || t.isNull || t.isPseudo) : Upright V t

end Definitions

section Upright

variable {tbl : Table} {V : TypeVarId → Prop} {s t : Ty}

theorem Upright.isPrimitive_eq_false (h : tbl.Upright V t) : t.isPrimitive = false := by
  cases h with
  | other ht => cases t <;> first | rfl | cases ht
  | _ => rfl

theorem upright_of_rawFree (href : t.Referential) (hraw : tbl.RawFree t)
    (hV : t.Every (Ty.Over V)) : tbl.Upright V t := by
  induction t using Ty.children_induction with
  | step t ih =>
    have hpart (x : Ty) (hx : x ∈ t.children) (harray : t.kind ≠ .array) : tbl.Upright V x :=
      ih x hx (href.part hx harray) (hraw.part hx) (hV.part hx)
    cases t with
    | primitive p marks => cases href.1
    | declared c args owner marks =>
      refine .declared hraw.top fun o ho => hpart o ?_ (by simp [Ty.kind])
      exact mem_append_right _ (Option.mem_toList.mpr ho)
    | array component marks =>
      have hx : component ∈ (Ty.array component marks).children := mem_cons_self
      exact .array fun hc => ih component hx ⟨hc, href.2.part hx⟩ (hraw.part hx) (hV.part hx)
    | var n v marks => exact .var (hV.top n v marks rfl)
    | captured token site upper lower marks =>
      exact .captured (hpart upper mem_cons_self (by simp [Ty.kind]))
    | wildcard n upper lower marks =>
      exact .wildcard (hpart upper mem_cons_self (by simp [Ty.kind]))
    | intersection n bounds => exact .intersection fun b hb => hpart b hb (by simp [Ty.kind])
    | union n alternatives => exact .union fun a ha => hpart a ha (by simp [Ty.kind])
    | none | void | null | executable | package => exact .other rfl

/-- What a supertype expression that names a class denotes: a use of the class that is not raw, as a
member of such uses. -/
inductive Spine (tbl : Table) : Ty → Prop
  | intro {c args owner marks} (hraw : tbl.isRaw c args = false)
    (howner : ∀ o ∈ owner, Spine tbl o) : Spine tbl (.declared c args owner marks)

theorem Spine.upright (h : tbl.Spine t) : tbl.Upright V t := by
  induction h with
  | intro hraw _ ih => exact .declared hraw ih

theorem spine_of_rawFree (hdenoted : t.Every tbl.Denoted) (hraw : tbl.RawFree t)
    (hkind : t.kind = .declared) : tbl.Spine t := by
  induction t using Ty.children_induction with
  | step t ih =>
    cases t with
    | declared c args owner marks =>
      refine .intro hraw.top fun o ho => ?_
      have hx : o ∈ (Ty.declared c args owner marks).children :=
        mem_append_right _ (Option.mem_toList.mpr ho)
      exact ih o hx (hdenoted.part hx) (hraw.part hx) (hdenoted.top.2.2 o ho)
    | _ => cases hkind

/-- Substitution keeps the number of arguments, so it makes no raw type. -/
theorem Spine.instantiate {m} (h : tbl.Spine s) (hs : tbl.instantiate m s = .ok t) :
    tbl.Spine t := by
  induction h generalizing t with
  | @intro c args owner marks hraw howner ih =>
    rcases remakes_of_instantiate hs with ⟨-, rfl⟩ | ⟨_, _, _, heq, -⟩ | ⟨-, -, hparts, rfl, -⟩
    · exact .intro hraw howner
    · cases heq
    · refine .intro (by rwa [isRaw, isEmpty_map]) fun o' ho' => ?_
      obtain ⟨o, rfl, rfl⟩ := Option.map_eq_some_iff.mp ho'
      exact ih o rfl (hparts o (mem_append_right args mem_cons_self))

theorem Spine.substitute {m} (h : tbl.Spine s) (hs : tbl.substitute m s = .ok t) :
    tbl.Spine t := by
  rw [Table.substitute] at hs
  split at hs
  · cases hs
    exact h
  · exact h.instantiate hs

/-! ### Going up to a class -/

/-- A class that inherits another one, which is no root class, has supertype expressions that name
classes. -/
theorem InheritsNoRaw.exists_rawSupertypes (h : tbl.InheritsNoRaw) (hne : c ≠ target)
    (hsize : target.index < tbl.classes.size) (hobject : (tbl.cls target).name ≠ "java.lang.Object")
    (hbelow : tbl.isSubclassOf c target = .ok true) : ∃ ds, tbl.rawSupertypes c = .ok ds := by
  rw [isSubclassOf, if_neg hne] at hbelow
  split at hbelow
  · cases hbelow
  rename_i hprimitive
  split at hbelow
  · rename_i hroot
    simp only [Bool.or_eq_true, not_or, Bool.and_eq_true, Option.isNone_iff_eq_none,
      Bool.not_eq_true'] at hprimitive hroot
    rcases h.roots target hsize hroot.1 with hinterface | hprim | hname
    · rw [hroot.2] at hinterface
      cases hinterface
    · exact absurd hprim hprimitive.2
    · exact absurd hname hobject
  · obtain ⟨ds, hds, -⟩ := bind_eq_ok.mp hbelow
    exact ⟨ds, hds⟩

/-- The direct supertypes of a type that is not raw, on the way to a class that is no root class. -/
theorem InheritsNoRaw.forall_declaredSupertypes (h : tbl.InheritsNoRaw) {n ts ds}
    (hds : tbl.rawSupertypes c = .ok ds) (hraw : tbl.isRaw c args = false)
    (hts : tbl.declaredSupertypes n c args owner = .ok ts) :
    ∀ t ∈ ts, tbl.Spine t ∨ (t.isPrimitive || t.isNoType) = true := by
  have hspine (ts : List Ty) (hts : tbl.descriptors (tbl.supertypeExprs c) = .ok ts) :
      ∀ t ∈ ts, tbl.Spine t ∨ (t.isPrimitive || t.isNoType) = true := by
    intro t ht
    obtain ⟨e, he, hte⟩ := exists_of_forall₂_right (mapM_eq_ok.mp (descriptors_eq_mapM _ ▸ hts)) ht
    obtain ⟨d, -, hd⟩ := exists_of_forall₂_left (mapM_eq_ok.mp hds) he
    refine (kind_of_rawClass hd hte).imp_left fun hkind => ?_
    exact spine_of_rawFree (descriptor_denoted e hte) (h.supertypes c ts hts t ht) hkind
  unfold declaredSupertypes at hts
  split at hts
  · cases hts
    split
    · intro t ht
      cases ht
    · intro t ht
      cases mem_singleton.mp ht
      exact .inl (.intro (by simp [isRaw, h.object]) (by simp))
  · obtain ⟨supertypes, hsupertypes, hts⟩ := bind_eq_ok.mp hts
    rw [if_neg (by simp [hraw])] at hts
    obtain ⟨m, -, hts⟩ := bind_eq_ok.mp hts
    intro t ht
    obtain ⟨s, hs, hst⟩ := exists_of_forall₂_right (mapM_eq_ok.mp hts) ht
    rcases hspine supertypes hsupertypes s hs with hs | hs
    · exact .inl (hs.substitute hst)
    · rw [substitute_eq_self hs] at hst
      cases hst
      exact .inr hs

/-- What is found in going up from a type that is not raw, to a class that is no root class. -/
theorem InheritsNoRaw.upright_of_climb (h : tbl.InheritsNoRaw) {n k}
    (hsize : target.index < tbl.classes.size) (hobject : (tbl.cls target).name ≠ "java.lang.Object")
    {r} (hs : s.kind = .declared ∧ tbl.Upright V s ∨ (s.isPrimitive || s.isNoType) = true)
    (hr : climb (tbl.ascend n target) k s = .ok (some r)) :
    ∃ args owner marks, r = .declared target args owner marks ∧ tbl.Upright V r := by
  induction k generalizing s with
  | zero => cases hr
  | succ k ih =>
    obtain ⟨a, ha, hr⟩ := bind_eq_ok.mp hr
    rcases hs with ⟨hkind, hs⟩ | hs
    · cases s with
      | declared c args owner marks =>
        rw [ascend] at ha
        split at ha
        · rename_i htarget
          cases ha
          cases hr
          exact ⟨args, owner, marks, by rw [htarget], hs⟩
        rename_i hne
        obtain ⟨below, hbelow, ha⟩ := bind_eq_ok.mp ha
        cases below with
        | false =>
          cases ha
          cases hr
        | true =>
          obtain ⟨ts, hts, ha⟩ := bind_eq_ok.mp ha
          cases ha
          obtain ⟨ds, hds⟩ := h.exists_rawSupertypes hne hsize hobject hbelow
          have hraw : tbl.isRaw c args = false := by
            cases hs with
            | declared hraw _ => exact hraw
            | other ht => cases ht
          have hall := h.forall_declaredSupertypes hds hraw hts
          obtain ⟨t, ht, hfound⟩ := exists_of_firstFound hr
          refine ih ((hall t ht).imp_left fun hspine => ?_) hfound
          exact ⟨by cases hspine; rfl, hspine.upright⟩
      | _ => cases hkind
    · have habove : a = .above [] := by
        cases s <;> first | exact (Except.ok.inj ha).symm | cases hs
      subst habove
      cases hr

end Upright

/-! ### Assignability without boxing and raw types -/

section Agreement

variable {tbl : Table} {V : TypeVarId → Prop} {s t : Ty} {k : Nat}

/-- The bounds of variables lead to variables of the same set only, and to nothing primitive or
raw. -/
def BoundedWithin (tbl : Table) (V : TypeVarId → Prop) : Prop :=
  ∀ v, V v → ∀ bs, tbl.boundsOf v = .ok bs →
    ∀ b ∈ bs, b.Referential ∧ tbl.RawFree b ∧ b.Every (Ty.Over V)

theorem BoundedWithin.upperBound (h : tbl.BoundedWithin V) {v} (hv : V v)
    (hb : tbl.upperBound v = .ok t) : tbl.Upright V t := by
  obtain ⟨bs, hbs, hb⟩ := bind_eq_ok.mp hb
  have hall (b : Ty) (hb : b ∈ bs) : tbl.Upright V b :=
    let ⟨href, hraw, hover⟩ := h v hv bs hbs b hb
    upright_of_rawFree href hraw hover
  split at hb
  · cases hb
    exact hall t mem_cons_self
  · obtain ⟨rfl, -⟩ := makeIntersection_eq_ok hb
    exact .intersection hall

/-- The comparison that the flag is handed on to. -/
theorem checkParameterization_assignable {check} (hraw : tbl.isRaw c args = false)
    (hargs' : args' = [] ∨ args'.length = (tbl.cls c).typeParameters.length)
    (howner : ∀ o ∈ owner, ∀ o' ∈ owner', check .assignable o o' = check .subtype o o') :
    checkParameterization check .assignable args owner args' owner' =
      checkParameterization check .subtype args owner args' owner' := by
  have hnot : ¬ (!args'.isEmpty && args.isEmpty) = true := by
    intro hempty
    rw [Bool.and_eq_true, Bool.not_eq_true'] at hempty
    rw [isRaw, hempty.2, Bool.true_and, Bool.not_eq_false'] at hraw
    rcases hargs' with rfl | hlength
    · cases hempty.1
    · rw [List.isEmpty_iff.mp hraw] at hlength
      rw [length_eq_zero_iff.mp hlength] at hempty
      cases hempty.1
  unfold checkParameterization
  rw [if_neg hnot, if_neg hnot]
  refine bind_congr (m := Result) fun holds => ?_
  cases holds with
  | false => rfl
  | true =>
    cases owner with
    | none => rfl
    | some o =>
      cases owner' with
      | none => rfl
      | some o' => exact howner o rfl o' rfl

section Upper

variable {check : Relation → Ty → Ty → Result Bool}

theorem checkArray_assignable {component}
    (hcheck : ∀ target marks, t = .array target marks →
      component.isPrimitive = false → target.isPrimitive = false →
        check .assignable component target = check .subtype component target) :
    tbl.checkArray check .assignable component t = tbl.checkArray check .subtype component t := by
  cases t with
  | array target marks =>
    rw [checkArray, checkArray]
    split
    · rfl
    · rename_i hneither
      rw [Bool.or_eq_true, not_or, Bool.not_eq_true, Bool.not_eq_true] at hneither
      exact hcheck target marks rfl hneither.1 hneither.2
  | _ => rfl

theorem InheritsNoRaw.checkDeclared_assignable (h : tbl.InheritsNoRaw) {c' marks}
    (hs : tbl.Upright V (.declared c args owner marks)) (hsize : c'.index < tbl.classes.size)
    (hargs' : args' = [] ∨ args'.length = (tbl.cls c').typeParameters.length)
    (hobject : (tbl.cls c').name ≠ "java.lang.Object")
    (howner : ∀ o, tbl.Upright V o → ∀ o' ∈ owner', check .assignable o o' = check .subtype o o') :
    tbl.checkDeclared k check .assignable (.declared c args owner marks) c c' args' owner' =
      tbl.checkDeclared k check .subtype (.declared c args owner marks) c c' args' owner' := by
  refine bind_congr (m := Result) fun below => ?_
  cases below with
  | false => rfl
  | true =>
    rw [if_pos rfl, if_pos rfl, resolveSupertype_eq_climb]
    cases hclimb : climb (tbl.ascend k c') k (.declared c args owner marks) with
    | error e => rfl
    | ok found =>
      cases found with
      | none => rfl
      | some r =>
        obtain ⟨args, owner, marks, rfl, hr⟩ :=
          h.upright_of_climb hsize hobject (.inl ⟨rfl, hs⟩) hclimb
        cases hr with
        | declared hraw hupright =>
          exact checkParameterization_assignable hraw hargs' fun o ho => howner o (hupright o ho)
        | other hother => cases hother

end Upper

/-- Where nothing primitive or raw comes up, assignability is subtyping: the two checks do the same,
also if they fail. By induction on the budget, with one case for each form of the two types. -/
theorem check_assignable_eq_subtype (h : tbl.InheritsNoRaw) (hV : tbl.BoundedWithin V)
    (hs : tbl.Upright V s) (ht : t.Referential) (happlies : t.Every tbl.Applies) :
    tbl.check k .assignable s t = tbl.check k .subtype s t := by
  induction k generalizing s t with
  | zero => rfl
  | succ k ih =>
    have hpart {s x : Ty} (hs : tbl.Upright V s) (hx : x ∈ t.children) (hkind : t.kind ≠ .array) :
        tbl.check k .assignable s x = tbl.check k .subtype s x :=
      ih hs (ht.part hx hkind) (happlies.part hx)
    have hup {s : Ty} (hs : tbl.Upright V s) :
        tbl.check k .assignable s t = tbl.check k .subtype s t := ih hs ht happlies
    have hlower : checkLower (tbl.check k) .assignable s t =
        checkLower (tbl.check k) .subtype s t := by
      cases t with
      | captured token site upper lower marks =>
        exact hpart hs (mem_cons_of_mem _ mem_cons_self) (by simp [Ty.kind])
      | wildcard m upper lower marks =>
        exact hpart hs (mem_cons_of_mem _ mem_cons_self) (by simp [Ty.kind])
      | _ => rfl
    have hupper (hobject : tbl.isObject t = false) :
        tbl.checkUpper k (tbl.check k) .assignable s t =
          tbl.checkUpper k (tbl.check k) .subtype s t := by
      cases hs with
      | @var n v marks hv =>
        rw [checkUpper, checkUpper]
        cases hbound : tbl.upperBound v with
        | error e => rfl
        | ok upper => exact hup (hV.upperBound hv hbound)
      | captured hs => exact hup hs
      | wildcard hs => exact hup hs
      | array hcomponent =>
        refine checkArray_assignable fun target marks hmk hc htarget => ?_
        subst hmk
        have hx : target ∈ (Ty.array target marks).children := mem_cons_self
        exact ih (hcomponent hc) ⟨htarget, ht.2.part hx⟩ (happlies.part hx)
      | declared hraw howner =>
        cases t with
        | declared c' args' owner' marks' =>
          obtain ⟨hsize, hargs'⟩ := happlies.top
          refine h.checkDeclared_assignable (.declared hraw howner) hsize hargs' ?_ ?_
          · simpa [isObject] using hobject
          · intro o ho o' ho'
            exact hpart ho (mem_append_right _ (Option.mem_toList.mpr ho')) (by simp [Ty.kind])
        | _ => rfl
      | intersection hbounds => rfl
      | union halternatives => rfl
      | other hother => cases s <;> first | rfl | cases hother
    unfold check checkStep
    split
    · rfl
    split
    · exact allM_congr fun b hb => hpart hs hb (by simp [Ty.kind])
    · cases hs with
      | union halternatives => exact allM_congr fun a ha => hup (halternatives a ha)
      | other hother => cases hother
    · cases hs with
      | intersection hbounds => exact anyM_congr fun b hb => hup (hbounds b hb)
      | other hother => cases hother
    · exact anyM_congr fun a ha => hpart hs ha (by simp [Ty.kind])
    · unfold checkSimple
      rw [hs.isPrimitive_eq_false, ht.1, hlower]
      split
      · rfl
      split
      · rename_i hprimitive
        cases hprimitive
      split
      · rfl
      split
      · rfl
      rename_i hobject
      rw [Bool.or_eq_true, not_or, Bool.not_eq_true, Bool.not_eq_true] at hobject
      rw [hupper hobject.2]

end Agreement

/-- Assignability is a conservative extension of subtyping. A subtype is assignable. Conversely, a
type is assignable to its supertypes only, if it and the bounds of its variables are reference types
without raw types, and no class inherits a raw type. -/
theorem isAssignable_conservative (tbl : Table) (s t : Ty) :
    (∀ n k b, tbl.isSubtype n s t = .ok true → tbl.isAssignable k s t = .ok b → b = true) ∧
    ∀ V, tbl.InheritsNoRaw → tbl.BoundedWithin V →
      s.Referential → tbl.RawFree s → s.Every (Ty.Over V) → t.Referential → t.Every tbl.Applies →
      ∀ n k b, tbl.isAssignable n s t = .ok true → tbl.isSubtype k s t = .ok b → b = true := by
  constructor
  · intro n k b hsub hassign
    have hsub := (cut_check (Nat.le_max_left n k) _ s t).eq_ok (isSubtype_eq_ok hsub)
    have hassign := (cut_check (Nat.le_max_right n k) _ s t).eq_ok (isAssignable_eq_ok hassign)
    exact weaker_check _ s t hsub b hassign
  · intro V h hV hs hraw hover ht happlies n k b hassign hsub
    have hassign := isAssignable_eq_ok hassign
    rw [check_assignable_eq_subtype h hV (upright_of_rawFree hs hraw hover) ht happlies] at hassign
    exact check_eq_of_ok (isSubtype_eq_ok hsub) hassign

set_option maxRecDepth 20000 in
/-- A variable that is bounded by a class applied to itself is assignable to its bound, and hence a
subtype of it. -/
theorem isAssignable_conservative_bound :
    let tbl : Table := {
      classes := #[
        { name := "java.lang.Object", simpleName := "Object", kind := .cls },
        { name := "p.I", simpleName := "I", kind := .interface,
          typeParameters := [{ name := "E" }] },
        { name := "p.C", simpleName := "C", kind := .cls, superclass := some (.named ⟨0⟩ []),
          typeParameters :=
            [{ name := "E", bounds := [.applied ⟨1⟩ [.var ⟨.cls ⟨2⟩, 0⟩ []] none []] }],
          interfaces := [.applied ⟨1⟩ [.var ⟨.cls ⟨2⟩, 0⟩ []] none []] }] }
    let s : Ty := .var 0 ⟨.cls ⟨2⟩, 0⟩ []
    let t : Ty := .declared ⟨1⟩ [s] none []
    tbl.InheritsNoRaw ∧ tbl.isAssignable 5 s t = .ok true ∧
      ∀ k b, tbl.isSubtype k s t = .ok b → b = true := by
  intro tbl s t
  have hall (p : Ty → Prop) (hs : p s) (ht : p t) : t.Every p :=
    .declared ht (by simpa using Ty.Every.leaf hs rfl) (by simp)
  have hraw : tbl.RawFree t := hall _ (by rfl) (by rfl)
  have href : t.Referential :=
    ⟨rfl, hall _ (.inr (by simp [s, Ty.children]))
      (.inr (by simp [s, t, Ty.children, Ty.isPrimitive]))⟩
  have hover : t.Every (Ty.Over (· = ⟨.cls ⟨2⟩, 0⟩)) := by
    refine hall _ (fun n v marks heq => ?_) fun n v marks heq => by injection heq
    injection heq with _ hv
    exact hv.symm
  have h : tbl.InheritsNoRaw := by
    refine ⟨?_, by rfl, ?_⟩
    · rintro ⟨_ | _ | _ | i⟩ ts hts
      · cases hts
        simp
      · cases hts
        simp
      · cases hts
        exact forall_mem_cons.mpr ⟨.leaf rfl rfl, forall_mem_singleton.mpr hraw⟩
      · cases hts
        simp
    · rintro ⟨i⟩ hi
      revert i
      decide
  have hV : tbl.BoundedWithin (· = ⟨.cls ⟨2⟩, 0⟩) := by
    rintro v rfl bs hbs
    cases hbs
    exact forall_mem_singleton.mpr ⟨href, hraw, hover⟩
  have hassign : tbl.isAssignable 5 s t = .ok true := by cbv
  refine ⟨h, hassign, fun k b => ?_⟩
  exact (isAssignable_conservative tbl s t).2 _ h hV ⟨rfl, href.2.arg mem_cons_self⟩
    (hraw.arg mem_cons_self) (hover.arg mem_cons_self) href
    (hall _ trivial ⟨by decide, .inr rfl⟩) 5 k b hassign

set_option maxRecDepth 20000 in
/-- It matters that the bounds of variables are reference types. A variable that is bounded by a
primitive type is assignable to the class that the primitive type is boxed to, but no subtype. -/
theorem isAssignable_of_primitive_bound :
    let tbl : Table := {
      classes := #[
        { name := "java.lang.Object", simpleName := "Object", kind := .cls },
        { name := "int", simpleName := "int", kind := .primitive },
        { name := "java.lang.Integer", simpleName := "Integer", kind := .cls,
          superclass := some (.named ⟨0⟩ []) },
        { name := "p.C", simpleName := "C", kind := .cls, superclass := some (.named ⟨0⟩ []),
          typeParameters := [{ name := "T", bounds := [.named ⟨1⟩ []] }] }],
      core := { box := fun _ => ⟨2⟩ } }
    let s : Ty := .var 0 ⟨.cls ⟨3⟩, 0⟩ []
    let t : Ty := .declared ⟨2⟩ [] none []
    tbl.InheritsNoRaw ∧ (tbl.boundsOf ⟨.cls ⟨3⟩, 0⟩ = .ok [.primitive .int []]) ∧
      s.Referential ∧ tbl.RawFree s ∧ t.Referential ∧ t.Every tbl.Applies ∧
      tbl.isAssignable 3 s t = .ok true ∧ tbl.isSubtype 3 s t = .ok false := by
  intro tbl s t
  have h : tbl.InheritsNoRaw := by
    refine ⟨?_, by rfl, ?_⟩
    · have hobject : tbl.RawFree tbl.objectType := .leaf rfl rfl
      rintro ⟨_ | _ | _ | _ | i⟩ ts hts
      all_goals cases hts
      all_goals first | exact forall_mem_nil _ | exact forall_mem_singleton.mpr hobject
    · rintro ⟨i⟩ hi
      revert i
      decide
  have href (x : Ty) (hx : x.isPrimitive = false) (hleaf : x.children = []) : x.Referential :=
    ⟨hx, .leaf (.inr (by simp [hleaf])) hleaf⟩
  exact ⟨h, rfl, href s rfl rfl, .leaf rfl rfl, href t rfl rfl, .leaf ⟨by decide, .inl rfl⟩ rfl,
    rfl, rfl⟩

end Table

end NominalTypes
