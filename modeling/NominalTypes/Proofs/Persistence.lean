import NominalTypes.Proofs.Checking

/-!
# What passes to supertypes

Going up from a type leads to erased types, to types that the table declares, with arguments put for
their type parameters, and to bounds. So a property of the layers of types passes to all supertypes
if erased types have it, if the types that the table declares have it, and if substitution keeps it.

Erasure goes from a type to a bound of it until it comes to a class, whose arguments and owner it
drops, or to a type that is nothing but itself. What is left is in normal form.
-/

namespace NominalTypes

open List

namespace Ty

/-- Whether the type is primitive, the null type, or stands for the lack of a type. -/
def isBasic : Ty → Bool
  | primitive _ _ | none | void _ | null => true
  | _ => false

/-- No type of an executable or a package occurs in the type. -/
def Valued (t : Ty) : Prop :=
  t.Every fun x => x.isPseudo = false

/-- A primitive type, the null type or a type of no values, a class without arguments and owner, or
an array of such a type. -/
inductive Normal : Ty → Prop
  | basic {t} (h : t.isBasic = true) : Normal t
  | declared {c marks} : Normal (declared c [] .none marks)
  | array {t marks} (h : Normal t) : Normal (array t marks)

variable {t : Ty} {p : Ty → Prop}

/-- All layers of a normal form are of these kinds. -/
theorem Normal.every (h : t.Normal) (hbasic : ∀ x : Ty, x.isBasic = true → p x)
    (hdeclared : ∀ c marks, p (Ty.declared c [] .none marks))
    (harray : ∀ x marks, p (Ty.array x marks)) : t.Every p := by
  induction h with
  | @basic t h =>
    refine .leaf (hbasic t h) ?_
    cases t with
    | primitive | none | void | null => rfl
    | _ => cases h
  | declared => exact .leaf (hdeclared _ _) rfl
  | array _ ih => exact .array (harray _ _) ih

theorem Normal.isWildcard (h : t.Normal) : t.isWildcard = false := by
  cases h with
  | @basic t h =>
    cases t with
    | wildcard => cases h
    | _ => rfl
  | _ => rfl

theorem Normal.every_kind (h : t.Normal) :
    t.Every fun x => x.kind ∉ [.typevar, .wildcard, .intersection, .union] := by
  refine h.every (fun x hx => ?_) (fun _ _ => by simp [kind]) fun _ _ => by simp [kind]
  cases x with
  | primitive | none | void | null => simp [kind]
  | _ => cases hx

end Ty

/-- What a step on the way up finds is made of layers with the property. -/
def Ascent.Every (q : Ty → Prop) : Ascent → Prop
  | .arrived t => t.Every q
  | .above ts => ∀ t ∈ ts, t.Every q

namespace Table

variable {tbl : Table} {n : Nat} {s t : Ty}

/-! ### Erasure -/

/-- Upper bounds of types without executables and packages are such types. -/
def KeepsValues (lub : List Ty → Result (List Ty)) : Prop :=
  ∀ ts bs, (∀ t ∈ ts, t.Valued) → lub ts = .ok bs → ∀ b ∈ bs, b.Valued

theorem valued_of_denoted (h : t.Every tbl.Denoted) : t.Valued := by
  refine h.mono fun x hx => ?_
  cases x with
  | executable | package => cases hx
  | _ => rfl

/-- What is erased is in normal form. By induction on the budget, as the way to a bound does not
follow the structure of the type. -/
theorem normal_of_eraseWith {lub} (hlub : KeepsValues lub) (ht : t.Valued) {e}
    (h : tbl.eraseWith lub n t = .ok e) : e.Normal := by
  induction n generalizing t e with
  | zero => cases h
  | succ n ih =>
    cases t with
    | primitive | none | void | null =>
      cases h
      exact .basic rfl
    | executable | package => cases ht.top
    | declared c args owner marks =>
      cases (eraseWith_declared ..).symm.trans h
      exact .declared
    | array component marks =>
      obtain ⟨e', he', h⟩ := bind_eq_ok.mp h
      cases h
      exact .array (ih ht.component he')
    | var k v marks =>
      obtain ⟨u, hu, h⟩ := bind_eq_ok.mp h
      exact ih (valued_of_denoted (every_denoted_upperBound hu)) h
    | captured token site upper lower marks => exact ih ht.capturedUpper h
    | wildcard k upper lower marks => exact ih ht.upper h
    | intersection k bounds =>
      cases bounds with
      | nil => cases h
      | cons b bounds => exact ih (ht.part mem_cons_self) h
    | union k alternatives =>
      obtain ⟨bs, hbs, h⟩ := bind_eq_ok.mp h
      cases bs with
      | nil =>
        obtain ⟨_, -, h⟩ := bind_eq_ok.mp h
        cases h
      | cons b bs => exact ih (hlub _ _ (fun _ ha => ht.part ha) hbs b mem_cons_self) h

/-- The second type is the erasure of the first, which is found by following first bounds. No union
is met on the way. -/
inductive Erases (tbl : Table) : Ty → Ty → Prop
  | basic {t : Ty} (h : t.isBasic = true) : Erases tbl t t
  | declared {c args owner marks} :
    Erases tbl (.declared c args owner marks) (.declared c [] none marks)
  | array {t e marks} (h : Erases tbl t e) : Erases tbl (.array t marks) (.array e marks)
  | var {u e n} {v : TypeVarId} {marks} (hu : tbl.upperBound v = .ok u) (h : Erases tbl u e) :
    Erases tbl (.var n v marks) e
  | captured {token site upper lower e marks} (h : Erases tbl upper e) :
    Erases tbl (.captured token site upper lower marks) e
  | wildcard {n upper lower e marks} (h : Erases tbl upper e) :
    Erases tbl (.wildcard n upper lower marks) e
  | intersection {n bound e bounds} (h : Erases tbl bound e) :
    Erases tbl (.intersection n (bound :: bounds)) e

theorem Erases.of_normal (h : t.Normal) : tbl.Erases t t := by
  induction h with
  | basic h => exact .basic h
  | declared => exact .declared
  | array _ ih => exact .array ih

namespace Erases

variable {e e' : Ty}

theorem normal (h : tbl.Erases t e) : e.Normal := by
  induction h with
  | basic h => exact .basic h
  | declared => exact .declared
  | array _ ih => exact .array ih
  | var _ _ ih | captured _ ih | wildcard _ ih | intersection _ ih => exact ih

/-- This is what erasure computes. Least upper bounds, which may take any budget, are not needed. -/
theorem settles_eraseWith (h : tbl.Erases t e) (lub : Nat → List Ty → Result (List Ty)) :
    Settles (fun k => tbl.eraseWith (lub k) k t) e := by
  induction h generalizing lub with
  | @basic t h =>
    refine (Settles.ok _).step rfl fun k => ?_
    cases t <;> first | rfl | cases h
  | declared => exact (Settles.ok _).step rfl fun k => eraseWith_declared ..
  | @array t e marks _ ih =>
    have hcomponent := ih fun k => lub (k + 1)
    exact (hcomponent.bind (g := fun x _ => .ok (.array x marks)) (.ok _)).step rfl fun k => rfl
  | var hu _ ih =>
    refine (ih fun k => lub (k + 1)).step rfl fun k => ?_
    rw [eraseWith, hu]
    rfl
  | captured _ ih | wildcard _ ih | intersection _ ih =>
    exact (ih fun k => lub (k + 1)).step rfl fun k => rfl

theorem unique (h : tbl.Erases t e) (h' : tbl.Erases t e') : e = e' := by
  obtain ⟨k, hk⟩ := (h.settles_eraseWith fun _ => pure).1
  exact (h'.settles_eraseWith fun _ => pure).eq_of_ok (hk k (Nat.le_refl k))

/-- Types that differ in annotations and numbers only have erasures that differ in annotations
only. -/
theorem exists_of_bare_eq (h : tbl.Erases s e) (hst : s.bare = t.bare) :
    ∃ e', tbl.Erases t e' ∧ e'.bare = e.bare := by
  induction h generalizing t with
  | @basic s h =>
    refine ⟨t, .basic ?_, hst.symm⟩
    cases s <;> cases t <;> first | exact h | cases hst
  | declared =>
    obtain ⟨_, _, _, rfl, -, -⟩ := Ty.eq_declared_of_bare_eq hst.symm
    exact ⟨_, .declared, rfl⟩
  | array _ ih =>
    obtain ⟨_, _, rfl, hcomponent⟩ := Ty.eq_array_of_bare_eq hst.symm
    obtain ⟨e', he', hbare⟩ := ih hcomponent.symm
    exact ⟨_, .array he', congrArg (Ty.array · []) hbare⟩
  | var hu h _ =>
    obtain ⟨_, _, rfl⟩ := Ty.eq_var_of_bare_eq hst.symm
    exact ⟨_, .var hu h, rfl⟩
  | captured _ ih =>
    obtain ⟨_, _, _, _, rfl, hupper, -⟩ := Ty.eq_captured_of_bare_eq hst.symm
    obtain ⟨e', he', hbare⟩ := ih hupper.symm
    exact ⟨_, .captured he', hbare⟩
  | wildcard _ ih =>
    obtain ⟨_, _, _, _, rfl, hupper, -⟩ := Ty.eq_wildcard_of_bare_eq hst.symm
    obtain ⟨e', he', hbare⟩ := ih hupper.symm
    exact ⟨_, .wildcard he', hbare⟩
  | intersection _ ih =>
    obtain ⟨_, bounds, rfl, hbounds⟩ := Ty.eq_intersection_of_bare_eq hst.symm
    cases bounds with
    | nil => cases hbounds
    | cons bound bounds =>
      obtain ⟨e', he', hbare⟩ := ih (List.cons.inj hbounds).1.symm
      exact ⟨_, .intersection he', hbare⟩

end Erases

/-! ### Supertypes -/

theorem exists_of_firstFound {find : Ty → Result (Option Ty)} {ts r}
    (h : firstFound find ts = .ok (some r)) : ∃ t ∈ ts, find t = .ok (some r) := by
  induction ts with
  | nil => cases h
  | cons t ts ih =>
    obtain ⟨found, hfound, h⟩ := bind_eq_ok.mp h
    cases found with
    | some s =>
      cases h
      exact ⟨t, mem_cons_self, hfound⟩
    | none =>
      obtain ⟨t', ht', hr⟩ := ih h
      exact ⟨t', mem_cons_of_mem _ ht', hr⟩

/-- A property of layers that erased types and the types which the table declares have, and that
substitution in what expressions denote keeps. -/
structure Persists (tbl : Table) (q : Ty → Prop) : Prop where
  unmarked {c : ClassId} {args : List Ty} {owner : Option Ty} {marks : List ClassId}
    (h : q (.declared c args owner marks)) : q (.declared c args owner [])
  normal {t : Ty} (h : t.Normal) : t.Every q
  supertypes (c : ClassId) (ts : List Ty) (h : tbl.descriptors (tbl.supertypeExprs c) = .ok ts) :
    ∀ t ∈ ts, t.Every q
  upperBound {v : TypeVarId} {t : Ty} (h : tbl.upperBound v = .ok t) : t.Every q
  instantiate {m : Mapping} {t t' : Ty} (hm : ∀ v x, m.lookup v = some x → x.Every q)
    (hdenoted : t.Every tbl.Denoted) (ht : t.Every q) (h : tbl.instantiate m t = .ok t') :
    t'.Every q

namespace Persists

variable {q : Ty → Prop} (h : tbl.Persists q)
include h

theorem declaredSupertypes {c args owner marks} (ht : (Ty.declared c args owner marks).Every q) {ts}
    (hts : tbl.declaredSupertypes n c args owner = .ok ts) : ∀ t ∈ ts, t.Every q := by
  rw [Table.declaredSupertypes] at hts
  split at hts
  · cases hts
    split
    · exact forall_mem_nil _
    · exact forall_mem_singleton.mpr (h.normal .declared)
  · obtain ⟨patterns, hpatterns, hts⟩ := bind_eq_ok.mp hts
    have hdenoted := descriptors_denoted _ hpatterns
    have hevery := h.supertypes c patterns hpatterns
    intro s hs
    split at hts
    · obtain ⟨p, hp, hs⟩ := exists_of_forall₂_right (mapM_eq_ok.mp hts) hs
      refine h.normal (normal_of_eraseWith (fun _ bs _ hbs => ?_)
        (valued_of_denoted (hdenoted p hp)) hs)
      cases hbs
      exact forall_mem_nil _
    · obtain ⟨m, hm, hts⟩ := bind_eq_ok.mp hts
      obtain ⟨p, hp, hs⟩ := exists_of_forall₂_right (mapM_eq_ok.mp hts) hs
      rcases substitute_eq_ok hs with ⟨-, rfl⟩ | hs
      · exact hevery _ hp
      · refine h.instantiate (fun v x hx => ?_) (hdenoted p hp) (hevery p hp) hs
        exact every_assignment (.intro (h.unmarked ht.top) fun x hx => ht.part hx) v x
          ((lookup_typeMapping hm v).symm.trans hx)

theorem upperBounds (ht : t.Every q) {ts} (hts : tbl.upperBounds t = .ok ts) :
    ∀ s ∈ ts, s.Every q := by
  cases t with
  | var k v marks =>
    obtain ⟨s, hs, hts⟩ := bind_eq_ok.mp hts
    cases hts
    exact forall_mem_singleton.mpr (h.upperBound hs)
  | captured token site upper lower marks =>
    cases hts
    exact forall_mem_singleton.mpr ht.capturedUpper
  | wildcard k upper lower marks =>
    cases hts
    exact forall_mem_singleton.mpr ht.upper
  | intersection k bounds =>
    cases hts
    exact fun b hb => ht.part hb
  | _ =>
    cases hts
    exact forall_mem_nil _

theorem ascend {target a} (ht : t.Every q) (ha : tbl.ascend n target t = .ok a) :
    a.Every q := by
  unfold Table.ascend at ha
  split at ha
  · split_ifs at ha
    · cases ha
      exact ht
    · obtain ⟨b, -, ha⟩ := bind_eq_ok.mp ha
      split_ifs at ha
      · obtain ⟨ts, hts, ha⟩ := bind_eq_ok.mp ha
        cases ha
        exact h.declaredSupertypes ht hts
      · cases ha
        exact forall_mem_nil _
  · split_ifs at ha
    · cases ha
      exact h.normal .declared
    · cases ha
      exact forall_mem_nil _
  · obtain ⟨ts, hts, ha⟩ := bind_eq_ok.mp ha
    cases ha
    exact h.upperBounds ht hts

theorem climb {k target r} (ht : t.Every q)
    (hr : Table.climb (tbl.ascend n target) k t = .ok (some r)) : r.Every q := by
  induction k generalizing t with
  | zero => cases hr
  | succ k ih =>
    obtain ⟨a, ha, hr⟩ := bind_eq_ok.mp hr
    have hfound := h.ascend ht ha
    cases a with
    | arrived s =>
      cases hr
      exact hfound
    | above ts =>
      obtain ⟨s, hs, hr⟩ := exists_of_firstFound hr
      exact ih (hfound s hs) hr

end Persists

end Table

end NominalTypes
