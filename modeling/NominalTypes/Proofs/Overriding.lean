import NominalTypes.Member.Overriding
import NominalTypes.Proofs.Signatures

/-!
# Overriding in subclasses

Whether a method overrides another is asked with a class in mind that has both, and a subclass of it
may see them differently. Both methods are seen from the subclass as from the class, with the
arguments put in that the subclass gives to the class (`Table.Orderly.bare_image_views`). So the
answer stays the same where signatures do not change under such a substitution, and these are the
exceptions: a subclass that sees the class raw or with wildcards, and methods that agree by erasure
only.
-/

namespace NominalTypes

open List

variable {e : ExecutableId} {σ : TypeVarId → Option Ty} {v : TypeVarId} {args : List Ty}
  {owner : Option Ty} {marks : List ClassId}

namespace Ty

theorem mem_children_executable {vars ps ts r x q} (h : q ∈ ps) :
    q ∈ children (executable e vars r ps x ts) := by
  simp [children, h]

theorem every_conjuncts_replace {t : Ty} (hσ : ∀ v x, σ v = some x → x.Suits)
    (hparts : ∀ v x, σ v = some x → x.Every fun y => ∀ b ∈ y.conjuncts, b.isWildcard = false)
    (ht : t.Every fun y => ∀ b ∈ y.conjuncts, b.isWildcard = false) :
    (t.replace σ).Every fun y => ∀ b ∈ y.conjuncts, b.isWildcard = false := by
  refine every_replace hparts (fun t h hnone => ?_) ht
  cases t with
  | var n v marks =>
    rw [replace, hnone n v marks rfl]
    exact h
  | intersection n bounds =>
    intro b hb
    rw [replace, replaceAll_eq_map, conjuncts] at hb
    obtain ⟨y, hy, rfl⟩ := mem_map.mp hb
    obtain ⟨x, hx, rfl⟩ := mem_map.mp hy
    rcases kind_replace σ x with hkind | ⟨_, v, _, -, hv⟩
    · have hwildcard := (isWildcard_of_kind_eq hkind).trans (h x hx)
      rw [orUpper_eq_self hwildcard]
      exact hwildcard
    · have hbound := (hσ v _ hv).upper
      rw [Table.isBadBound, Bool.or_eq_false_iff, Bool.or_eq_false_iff] at hbound
      exact hbound.1.1
  | _ => exact h

end Ty

namespace Table

variable {tbl : Table}

/-! ### Visibility does not depend on the budget -/

section Cut

variable {n n' : Nat}

theorem cut_erasedParameters (h : n ≤ n') (e : ExecutableId) :
    Cut (tbl.erasedParameters n e) (tbl.erasedParameters n' e) :=
  Cut.mapM fun _ _ => (Cut.refl _).bind fun t _ => cut_erase h t

theorem cut_anyBetween {p p'} (hp : ∀ c, Cut (p c) (p' c)) (h : n ≤ n') (declarer c : ClassId) :
    Cut (tbl.anyBetween p declarer n c) (tbl.anyBetween p' declarer n' c) := by
  induction n generalizing n' c with
  | zero => exact .exhausted _
  | succ n ih =>
    obtain ⟨n', rfl⟩ := Nat.exists_eq_succ_of_ne_zero (show n' ≠ 0 by omega)
    refine (Cut.refl _).bind fun above _ => ?_
    cases above with
    | none => exact .refl _
    | some d =>
      dsimp only
      split_ifs
      · exact .refl _
      · refine (hp d).bind fun b _ => ?_
        cases b with
        | true => exact .refl _
        | false => exact ih (Nat.le_of_succ_le_succ h) d

theorem cut_redeclares (h : n ≤ n') (name : Name) (parameters : List Ty) (c : ClassId) :
    Cut (tbl.redeclares n name parameters c) (tbl.redeclares n' name parameters c) :=
  comparison_cut.anyM fun m _ => (cut_erasedParameters h m).bind fun _ _ => .refl _

theorem cut_isMethodVisible (h : n ≤ n') (m : ExecutableId) (viewer : ClassId) :
    Cut (tbl.isMethodVisible n m viewer) (tbl.isMethodVisible n' m viewer) := by
  refine (cut_erasedParameters h m).bind fun parameters _ => ?_
  unfold isVisible
  dsimp only
  split_ifs
  · exact .refl _
  · exact .refl _
  · exact .refl _
  · exact cut_anyBetween (cut_redeclares h _ parameters) h _ _

end Cut

/-! ### What a class sees -/

/-- The root class is not nested. Supertype expressions use it without an owner, and bound no
intersection by a wildcard. -/
def PlainlyRooted (tbl : Table) : Prop :=
  (tbl.cls tbl.core.object).enclosing = none ∧
    ∀ c ps, tbl.descriptors (tbl.supertypeExprs c) = .ok ps →
      ∀ p ∈ ps, tbl.Confined (fun _ => True) p

/-- A use of a class as the program builds it, made of what expressions denote. -/
structure Viewed (tbl : Table) (occurrences : Nat → TypeKind → Ty) (t : Ty) : Prop where
  formed : t.Formed
  genuine : tbl.Genuine occurrences t
  ordinary : t.Every Ty.Ordinary
  bounds : t.Every fun y => ∀ b ∈ y.conjuncts, b.isWildcard = false

variable {occurrences : Nat → TypeKind → Ty} {c d : ClassId} {t : Ty}

theorem confined_selfTypeIn (hroot : tbl.Rooted)
    (htop : (tbl.cls tbl.core.object).enclosing = none) (n : Nat) (c : ClassId) :
    tbl.Confined (fun _ => True) (tbl.selfTypeIn c (tbl.enclosersWithin n c)) := by
  have hvars (c : ClassId) : ∀ a ∈ (tbl.typeVars (.cls c)).map fun v => Ty.var 0 v [],
      tbl.Confined (fun _ => True) a := by
    intro a ha
    obtain ⟨v, -, rfl⟩ := mem_map.mp ha
    exact .leaf ⟨fun _ _ _ _ => trivial, fun h => (by cases h), forall_mem_nil _⟩ rfl
  have halone (c : ClassId) : tbl.Confined (fun _ => True) (tbl.selfTypeIn c []) := by
    refine .declared ⟨fun _ _ _ h => (by cases h), fun h => ?_, forall_mem_nil _⟩ (hvars c)
      fun _ h => by cases h
    rw [isObject, beq_iff_eq] at h
    rw [hroot.unique c h, typeVars, typeParametersOf, hroot.typeParameters]
    rfl
  induction n generalizing c with
  | zero => exact halone c
  | succ n ih =>
    rw [enclosersWithin]
    cases henclosing : (tbl.cls c).enclosing with
    | none => exact halone c
    | some e =>
      refine .declared ⟨fun _ _ _ h => (by cases h), fun h => ?_, forall_mem_nil _⟩ (hvars c)
        fun o ho => ?_
      · rw [isObject, beq_iff_eq] at h
        rw [hroot.unique c h, htop] at henclosing
        cases henclosing
      · split_ifs at ho
        · cases ho
        · cases ho
          exact ih e

theorem viewed_bare_class (hroot : tbl.Rooted) (c : ClassId) (marks : List ClassId) :
    tbl.Viewed occurrences (.declared c [] none marks) :=
  ⟨Ty.formed_bare_class c marks,
    (instance_bare_class (σ := fun _ => none) hroot c marks).genuine, .leaf trivial rfl,
    .leaf (forall_mem_nil _) rfl⟩

theorem viewed_selfType (hroot : tbl.Rooted) (hplain : tbl.PlainlyRooted) (c : ClassId) :
    tbl.Viewed occurrences (tbl.selfType c) := by
  have hconfined := confined_selfTypeIn hroot hplain.1 tbl.classes.size c
  have hself := tbl.selfTypeIn_denoted c (tbl.enclosers c)
  exact ⟨formed_of_denoted hself.1 hself.2,
    genuine_of_denoted hroot.isObject_objectType hself.1 hconfined,
    hself.1.mono fun _ => ordinary_of_denoted, hconfined.mono fun _ hx => hx.2.2⟩

/-- The arguments of a type that a class sees. -/
theorem Viewed.ordinary_assignment (h : tbl.Viewed occurrences t) {x}
    (hx : tbl.assignment t v = some x) : x.Every Ty.Ordinary :=
  every_assignment h.ordinary v x hx

/-- What a use of a class inherits through a supertype expression. -/
theorem Viewed.of_realizes (h : tbl.Viewed occurrences t) {p s : Ty} (hs : s.Formed)
    (hp : p.Every tbl.Denoted) (hconfined : tbl.Confined (fun _ => True) p)
    (hreal : tbl.Realizes occurrences (tbl.assignment t) p s) : tbl.Viewed occurrences s := by
  refine ⟨hs, hreal.2, ?_, ?_⟩
  · exact (Ty.every_ordinary_replace (fun v x hx => h.ordinary_assignment hx)
      (hp.mono fun _ => ordinary_of_denoted)).of_bare_eq (fun _ _ => Ty.Ordinary.of_bare_eq)
      hreal.1.symm
  · refine (Ty.every_conjuncts_replace (suits_assignment h.formed)
      (fun v x hx => every_assignment h.bounds v x hx)
      (hconfined.mono fun _ hx => hx.2.2)).of_bare_eq (fun x y hxy hx b hb => ?_) hreal.1.symm
    cases y with
    | intersection n bounds =>
      obtain ⟨_, bounds', rfl, hbounds⟩ := Ty.eq_intersection_of_bare_eq hxy
      obtain ⟨a, ha, hab⟩ := Ty.exists_mem_of_map_bare_eq hbounds hb
      rw [Ty.isWildcard_of_kind_eq (Ty.kind_eq_of_bare_eq hab.symm)]
      exact hx a ha
    | _ => cases hb

/-- What is directly above a use of a class is a bare class, or what a supertype expression makes of
the arguments. -/
theorem Orderly.bare_or_realizes (h : tbl.Orderly) (hplain : tbl.PlainlyRooted) (ht : t.Formed)
    (hgenuine : tbl.Genuine occurrences t) (hstep : tbl.Supertype t s) :
    (∃ d marks, s = .declared d [] none marks) ∨
      ∃ p : Ty, s.Formed ∧ p.Every tbl.Denoted ∧ tbl.Confined (fun _ => True) p ∧
        tbl.Realizes occurrences (tbl.assignment t) p s := by
  obtain ⟨ts, ⟨e, args, owner, marks, rfl, -, hsupers⟩, hs⟩ := h.exists_of_supertype ht hstep
  refine (h.bare_or_replaced hsupers hs).imp_right ?_
  rintro ⟨ps, m, hps, -, hm, hts⟩
  obtain ⟨p, hp, hsubstitute⟩ := exists_of_forall₂_right (mapM_eq_ok.mp hts) hs
  have hlookup := (funext (lookup_typeMapping hm)).trans (assignment_remark e args owner [] marks)
  have hconfined := hplain.2 e _ hps p hp
  obtain ⟨hformed, hreal⟩ :=
    h.realizes_of_substitute hps hp hconfined ht hgenuine hlookup hsubstitute
  exact ⟨p, hformed, descriptors_denoted _ hps p hp, hconfined, hreal⟩

/-- Whatever a class inherits is as the program builds it. -/
theorem Orderly.viewed_of_reaches (h : tbl.Orderly) (hplain : tbl.PlainlyRooted)
    (ht : tbl.Reaches (tbl.selfType c) t) : tbl.Viewed occurrences t := by
  induction ht with
  | refl => exact viewed_selfType h.rooted hplain c
  | tail _ hstep ih =>
    rcases h.bare_or_realizes hplain ih.formed ih.genuine hstep with
      ⟨d, ms, rfl⟩ | ⟨p, hformed, hp, hconfined, hreal⟩
    · exact viewed_bare_class h.rooted d ms
    · exact ih.of_realizes hformed hp hconfined hreal

/-! ### What a subclass sees -/

/-- How a subclass sees a class: with arguments, none of which is a wildcard or mentions a type
parameter of the executable. The type parameters that it replaces are those that have arguments
above the class. -/
structure Narrows (tbl : Table) (o : ExecutableId) (c : ClassId) (w : Ty) : Prop where
  isRaw : ∀ args owner marks, w = .declared c args owner marks → tbl.isRaw c args = false
  isWildcard : ∀ v x, tbl.assignment w v = some x → x.isWildcard = false
  avoids : ∀ v x, tbl.assignment w v = some x →
    x.Every (Ty.Over (· ∉ tbl.typeVars (.executable o)))
  covers : ∀ e args owner marks, tbl.Reaches (tbl.selfType c) (.declared e args owner marks) →
    tbl.isRaw e args = false → ∀ ps, tbl.descriptors (tbl.supertypeExprs e) = .ok ps →
    ∀ p ∈ ps, p.Every (Ty.Over fun v =>
      tbl.assignment (.declared e args owner marks) v = none → tbl.assignment w v = none)

/-- Where supertype expressions mention only type parameters of their own class, all of these have
arguments in whatever the class inherits. -/
theorem Orderly.covers_of_static (h : tbl.Orderly) (hplain : tbl.PlainlyRooted)
    (hstatic : tbl.Static) {c e}
    (hreaches : tbl.Reaches (tbl.selfType c) (.declared e args owner marks))
    (hraw : tbl.isRaw e args = false) {ps} (hps : tbl.descriptors (tbl.supertypeExprs e) = .ok ps)
    (w : Ty) :
    ∀ p ∈ ps, p.Every (Ty.Over fun v =>
      tbl.assignment (.declared e args owner marks) v = none → tbl.assignment w v = none) := by
  intro p hp
  have hviewed : tbl.Viewed (fun _ _ => .null) (.declared e args owner marks) :=
    h.viewed_of_reaches hplain hreaches
  refine (hstatic e ps hps p hp).mono fun x hx n v ms hv hnone => ?_
  have hsome := isSome_assignment hviewed.genuine.top.1 hraw (hx.1 n v ms hv)
  rw [hnone] at hsome
  cases hsome

section Views

variable {o : ExecutableId} {w : Ty}

/-- One step up from two uses of a class of which the one has instances of what the other has above
it. -/
theorem Orderly.exists_instance_above (h : tbl.Orderly) {args' owner' marks' s'}
    (hs : (Ty.declared c args owner marks).Formed)
    (hs' : (Ty.declared c args' owner' marks').Formed)
    (hall : ∀ ss ss', tbl.Supers c args owner ss → tbl.Supers c args' owner' ss' →
      Forall₂ (tbl.Instance occurrences σ) ss ss')
    (hsuper : tbl.Supertype (.declared c args' owner' marks') s') :
    ∃ s, tbl.Supertype (.declared c args owner marks) s ∧ tbl.Instance occurrences σ s s' := by
  obtain ⟨ss', ⟨_, _, _, _, heq, -, hss'⟩, hmem⟩ := h.exists_of_supertype hs' hsuper
  cases heq
  obtain ⟨ss, hsettles, hss⟩ := h.exists_supers (hs.remark [])
  obtain ⟨s, hsmem, hinst⟩ := exists_of_forall₂_right (hall ss ss' hss hss') hmem
  exact ⟨s, DirectSupers.supertype ⟨c, args, owner, marks, rfl, hsettles, hss⟩ hsmem, hinst⟩

/-- A class applied to its own type parameters puts nothing else for them. -/
theorem image_selfType (c : ClassId) (v : TypeVarId) :
    Ty.image (tbl.assignment (tbl.selfType c)) v = .var 0 v [] := by
  rw [Ty.image, Ty.subst]
  cases hv : tbl.assignment (tbl.selfType c) v with
  | none => rfl
  | some x => exact assignment_selfTypeIn hv

/-- Whatever a view of a class inherits, apart from itself, is an instance of what the class
inherits. The induction is along the way up. -/
theorem Orderly.exists_instance_of_reaches (h : tbl.Orderly) (hplain : tbl.PlainlyRooted)
    (hw : tbl.Viewed occurrences w) (huses : Ty.Uses c w) (hnarrows : tbl.Narrows o c w) {s x}
    (hs : tbl.Supertype w s) (hx : tbl.Reaches s x) :
    ∃ y, tbl.Reaches (tbl.selfType c) y ∧ tbl.Instance occurrences (tbl.assignment w) y x := by
  induction hx with
  | refl =>
    have hself : tbl.Viewed occurrences (tbl.selfType c) := viewed_selfType h.rooted hplain c
    have himage (v : TypeVarId) : (Ty.image (tbl.assignment w) v).bare =
        ((Ty.image (tbl.assignment (tbl.selfType c)) v).replace (tbl.assignment w)).bare := by
      rw [image_selfType]
      rfl
    obtain ⟨args, owner, marks, rfl⟩ := huses
    obtain ⟨owner', heq⟩ := tbl.selfType_eq c
    rw [heq] at hself himage ⊢
    obtain ⟨y, hy, hinst⟩ := h.exists_instance_above hself.formed hw.formed (fun _ _ =>
      h.forall₂_instance (hplain.2 c) hself.formed hself.genuine hw.formed hw.genuine
        ((isRaw_typeVars c).trans (hnarrows.isRaw _ _ _ rfl).symm)
        fun _ _ _ _ _ => .of_forall (fun _ _ v _ _ => himage v) _) hs
    exact ⟨y, .single hy, hinst⟩
  | @tail x z hx hz ih =>
    obtain ⟨y, hy, hinst⟩ := ih
    obtain ⟨e, args, owner, marks, rfl⟩ := Ty.exists_eq_declared hinst.formed.kind
    obtain ⟨args', owner', marks', rfl, hargs, -⟩ := Ty.eq_declared_of_bare_eq hinst.realizes.1
    have hraw : tbl.isRaw e args = tbl.isRaw e args' := by
      refine isRaw_of_length_eq ?_
      simpa using (congrArg List.length hargs).symm
    obtain ⟨y', hy', hinst'⟩ := h.exists_instance_above hinst.formed hinst.formed_right (fun _ _ =>
      h.forall₂_instance (hplain.2 e) hinst.formed hinst.genuine hinst.formed_right
        hinst.realizes.2 hraw fun hnotraw ps hps p hp =>
          (hnarrows.covers e args owner marks hy hnotraw ps hps p hp).mono fun _ hover n v ms hv =>
            bare_image_assignment hinst.formed hinst.realizes.1 (hover n v ms hv)) hz
    exact ⟨y', hy.tail hy', hinst'⟩

theorem formed_selfType (tbl : Table) (c : ClassId) : (tbl.selfType c).Formed :=
  formed_of_denoted (tbl.selfTypeIn_denoted c _).1 (tbl.selfTypeIn_denoted c _).2

theorem uses_selfType (tbl : Table) (c : ClassId) : Ty.Uses c (tbl.selfType c) := by
  obtain ⟨owner, heq⟩ := tbl.selfType_eq c
  exact ⟨_, _, _, heq⟩

theorem Orderly.resolves_of_ok (h : tbl.Orderly) {k r}
    (hr : (tbl.resolveSupertype k (tbl.selfType c) d : Result (Option Ty)) = .ok r) :
    tbl.Resolves (tbl.selfType c) d r := by
  obtain ⟨x, hx, -⟩ := h.exists_resolves (p := fun _ => True) (fun _ _ _ _ _ => trivial)
    (tbl.formed_selfType c) trivial d
  rwa [← hx.settles.eq_of_ok hr] at hx

/-- A subclass sees what the class sees. -/
theorem Orderly.exists_resolves_selfType (h : tbl.Orderly) {a u}
    (hw : tbl.Resolves (tbl.selfType d) c (some w))
    (hu : tbl.Resolves (tbl.selfType c) a (some u)) :
    ∃ x, tbl.Resolves (tbl.selfType d) a (some x) := by
  rcases eq_or_ne d c with rfl | hne
  · exact ⟨u, hu⟩
  · obtain ⟨hdw, hcw⟩ := h.reaches_of_resolves (tbl.formed_selfType d) hw
    obtain ⟨hcu, hau⟩ := h.reaches_of_resolves (tbl.formed_selfType c) hu
    have hpath := (h.inherits_of_reaches (tbl.formed_selfType d) hdw
      (tbl.uses_selfType d) hcw).trans
      (h.inherits_of_reaches (tbl.formed_selfType c) hcu (tbl.uses_selfType c) hau)
    have hprimitive : (tbl.cls d).isPrimitive = false := by
      obtain ⟨owner, heq⟩ := tbl.selfType_eq d
      rw [heq] at hw
      exact (transGen_of_isSubclassOf (h.isSubclassOf_of_resolves hw) hne).1
    obtain ⟨r, hr, -, hsome⟩ := h.exists_resolves (p := fun _ => True)
      (fun _ _ _ _ _ => trivial) (tbl.formed_selfType d) trivial a
    cases r with
    | none => exact absurd rfl (hsome d (tbl.uses_selfType d) hprimitive hpath)
    | some x => exact ⟨x, hr⟩

/-- What a subclass sees is an instance of what the class sees: to go up from the subclass and to go
up from the class and put in the arguments that the subclass gives to it come to the same. -/
theorem Orderly.bare_image_views (h : tbl.Orderly) (hplain : tbl.PlainlyRooted)
    (hcoherent : tbl.Coherent) {a u u'} (hw : tbl.Resolves (tbl.selfType d) c (some w))
    (hnarrows : tbl.Narrows o c w) (hu : tbl.Resolves (tbl.selfType c) a (some u))
    (hu' : tbl.Resolves (tbl.selfType d) a (some u'))
    (hv : tbl.assignment u v = none → tbl.assignment w v = none) :
    (Ty.image (tbl.assignment u') v).bare =
      ((Ty.image (tbl.assignment u) v).replace (tbl.assignment w)).bare := by
  rcases eq_or_ne c a with rfl | hne
  · obtain ⟨owner, heq⟩ := tbl.selfType_eq c
    have hself : tbl.Resolves (tbl.selfType c) c (some (tbl.selfType c)) := by
      rw [heq]
      exact resolves_self
    cases hu.eq hself
    cases hu'.eq hw
    rw [image_selfType]
    rfl
  · obtain ⟨hdw, hcw⟩ := h.reaches_of_resolves (tbl.formed_selfType d) hw
    obtain ⟨hcu, hau⟩ := h.reaches_of_resolves (tbl.formed_selfType c) hu
    obtain ⟨hdu', hau'⟩ := h.reaches_of_resolves (tbl.formed_selfType d) hu'
    have hview {e : ClassId} {s : Ty} (hs : tbl.Reaches (tbl.selfType e) s) :
        tbl.Viewed (fun _ _ => .null) s := h.viewed_of_reaches hplain hs
    have hprimitive : (tbl.cls c).isPrimitive = false := by
      obtain ⟨owner, heq⟩ := tbl.selfType_eq c
      rw [heq] at hu
      exact (transGen_of_isSubclassOf (h.isSubclassOf_of_resolves hu) hne).1
    obtain ⟨r, hr, -, hsome⟩ := h.exists_resolves (p := fun _ => True) (fun _ _ _ _ _ => trivial)
      (hview hdw).formed trivial a
    cases r with
    | none =>
      exact absurd rfl (hsome c hcw hprimitive
        (h.inherits_of_reaches (tbl.formed_selfType c) hcu (tbl.uses_selfType c) hau))
    | some x =>
      obtain ⟨hwx, hax⟩ := h.reaches_of_resolves (hview hdw).formed hr
      obtain rfl | ⟨s, hws, hsx⟩ := hwx.cases_head
      · exact absurd (hcw.unique hax) hne
      · obtain ⟨y, hcy, hinst⟩ := h.exists_instance_of_reaches hplain
          (hview hdw) hcw hnarrows hws hsx
        -- Coherence identifies what is found on the way through the class and on other ways.
        have hay : Ty.Uses a y := by
          obtain ⟨_, _, _, rfl⟩ := hax
          obtain ⟨e, _, _, _, rfl⟩ := Ty.exists_eq_declared hinst.formed.kind
          obtain ⟨_, _, _, heq, -, -⟩ := Ty.eq_declared_of_bare_eq hinst.realizes.1
          cases heq
          exact ⟨_, _, _, rfl⟩
        have hbare {e : ClassId} {s t : Ty} (hs : tbl.Reaches (tbl.selfType e) s)
            (ht : tbl.Reaches (tbl.selfType e) t) (has : Ty.Uses a s) (hat : Ty.Uses a t) :
            s.bare = t.bare :=
          Ty.bare_eq_of_same_of_ordinary (hview hs).ordinary (hview ht).ordinary
            (hcoherent e a s t hs ht has hat)
        refine bare_image_assignment (hview hcu).formed ?_ hv
        calc u'.bare = x.bare := hbare hdu' (hdw.trans hwx) hau' hax
          _ = (y.replace (tbl.assignment w)).bare := hinst.realizes.1
          _ = (u.replace (tbl.assignment w)).bare :=
            Ty.bare_replace_congr (hbare hcy hcu hay hau) fun _ => rfl

theorem assignment_executable (hv : v ∈ tbl.typeVars (.executable e)) (t : Ty) :
    tbl.assignment t v = none := by
  have hnot (c : ClassId) : v ∉ tbl.typeVars (.cls c) := fun h => by
    have heq := (mem_typeVars.mp hv).1.symm.trans (mem_typeVars.mp h).1
    cases heq
  induction t using Ty.children_induction with
  | step t ih =>
    cases t with
    | declared c args owner marks =>
      cases owner with
      | none => exact if_neg (hnot c)
      | some x =>
        rw [assignment, if_neg (hnot c), Option.none_or]
        exact ih x (mem_append_right _ mem_cons_self)
    | _ => rfl

theorem Narrows.filling (h : tbl.Narrows o c w) (hw : tbl.Viewed occurrences w) :
    tbl.Filling occurrences o (tbl.assignment w) where
  argument _ _ hx := genuineArgument_assignment hw.formed hw.genuine hx
  isWildcard := h.isWildcard
  ordinary := every_assignment hw.ordinary
  bounds := every_assignment hw.bounds
  avoids := h.avoids
  executable _ _ hv := assignment_executable hv w

end Views

/-! ### Methods seen from a class and from a subclass -/

section Seen

variable {u p y : Ty}

theorem eq_executable_of_memberType {k} (h : tbl.memberType k t (.executable e) = .ok y) :
    ∃ result parameters receiver thrown,
      y = .executable e (tbl.ownVariables (.executable e)) result parameters receiver thrown := by
  obtain ⟨c, -, h⟩ := bind_eq_ok.mp h
  obtain ⟨s, -, h⟩ := bind_eq_ok.mp h
  obtain ⟨m, h⟩ : ∃ m, tbl.memberTypeUnder m (.executable e) = .ok y := by
    cases s with
    | none => exact ⟨[], h⟩
    | some s =>
      obtain ⟨m, -, h⟩ := bind_eq_ok.mp h
      exact ⟨m, h⟩
  obtain ⟨p, hp, h⟩ := bind_eq_ok.mp h
  obtain ⟨_, _, _, _, rfl, -⟩ := exists_eq_executable hp
  rcases substitute_eq_ok h with ⟨-, rfl⟩ | h
  · exact ⟨_, _, _, _, rfl⟩
  · rw [instantiate] at h
    obtain ⟨result, -, h⟩ := bind_eq_ok.mp h
    obtain ⟨parameters, -, h⟩ := bind_eq_ok.mp h
    obtain ⟨receiver, -, h⟩ := bind_eq_ok.mp h
    obtain ⟨thrown, -, h⟩ := bind_eq_ok.mp h
    cases h
    exact ⟨_, _, _, _, rfl⟩

/-- No expression denotes an intersection or a union. -/
theorem kind_of_descriptor {x} (h : tbl.descriptor x = .ok t) :
    t.kind ≠ .intersection ∧ t.kind ≠ .union := by
  cases describes_of_descriptor h <;> simp [Ty.kind]

/-- A method seen from a class. -/
theorem Orderly.exists_seen (h : tbl.Orderly) {vs} (hp : tbl.typeOf (.executable e) = .ok p)
    (hconfined : tbl.Confined vs p) (hu : tbl.Resolves (tbl.selfType c) e.cls (some u))
    (hview : tbl.Viewed occurrences u) :
    ∃ result parameters receiver thrown, ∃ y,
      y = .executable e (tbl.ownVariables (.executable e)) result parameters receiver thrown ∧
      Settles (fun k => tbl.memberType k (tbl.selfType c) (.executable e)) y ∧
      tbl.Realizes occurrences (tbl.assignment u) p y ∧ ∀ x ∈ y.children, x.Every Ty.Ordinary := by
  obtain ⟨y, hy, hreal⟩ := h.exists_memberType (tbl.formed_selfType c) (x := .executable e)
    mem_cons_self hp hconfined hu hview.formed hview.genuine
  obtain ⟨n, hn⟩ := hy.1
  obtain ⟨result, parameters, receiver, thrown, heq⟩ :=
    eq_executable_of_memberType (hn n (Nat.le_refl n))
  refine ⟨result, parameters, receiver, thrown, y, heq, hy, hreal, fun x hx => ?_⟩
  obtain ⟨r, ps, x', ts, rfl, -, hparts⟩ := exists_eq_executable hp
  have hordinary : ∀ z ∈ Ty.children (.executable e (tbl.ownVariables (.executable e)) r ps x' ts),
      z.Every Ty.Ordinary := by
    intro z hz
    rcases hparts z hz with rfl | hz
    · exact .leaf trivial rfl
    · exact hz.mono fun _ => ordinary_of_denoted
  have hreplaced {z : Ty} (hz : z.Every Ty.Ordinary) :
      (z.replace (tbl.assignment u)).Every Ty.Ordinary :=
    Ty.every_ordinary_replace (fun v x hx => every_assignment hview.ordinary v x hx) hz
  have hchildren := congrArg Ty.children hreal.1
  rw [Ty.children_bare, Ty.children_bare] at hchildren
  obtain ⟨z, hz, hzx⟩ := Ty.exists_mem_of_map_bare_eq hchildren.symm hx
  refine Ty.Every.of_bare_eq (fun _ _ => Ty.Ordinary.of_bare_eq) hzx ?_
  simp only [Ty.replace, Ty.replaceAll_eq_map, Ty.children, mem_append, mem_cons,
    mem_map] at hz hordinary
  rcases hz with hz | rfl | rfl | ⟨z, hz, rfl⟩ | ⟨z, hz, rfl⟩
  · exact hordinary z (.inl hz)
  · exact hreplaced (hordinary r (by simp))
  · exact hreplaced (hordinary x' (by simp))
  · exact hreplaced (hordinary z (by simp [hz]))
  · exact hreplaced (hordinary z (by simp [hz]))

/-- The parameters of a method, seen from a class and from a subclass. -/
structure SeenBoth (tbl : Table) (occurrences : Nat → TypeKind → Ty) (e : ExecutableId)
    (c d : ClassId) (w : Ty) (parameters parameters' : List Ty) : Prop where
  left : ∃ result receiver thrown,
    Settles (fun k => tbl.memberType k (tbl.selfType c) (.executable e))
      (.executable e (tbl.ownVariables (.executable e)) result parameters receiver thrown)
  right : ∃ result receiver thrown,
    Settles (fun k => tbl.memberType k (tbl.selfType d) (.executable e))
      (.executable e (tbl.ownVariables (.executable e)) result parameters' receiver thrown) ∧
    ∀ x ∈ result :: receiver :: thrown, tbl.Genuine occurrences x ∧ x.Every Ty.Ordinary
  carries : Forall₂ (tbl.Carries occurrences (tbl.assignment w)) parameters parameters'
  kind : ∀ q ∈ parameters, q.kind ≠ .intersection ∧ q.kind ≠ .union

variable (occurrences) in
theorem Orderly.exists_seenBoth (h : tbl.Orderly) (hplain : tbl.PlainlyRooted)
    (hcoherent : tbl.Coherent) {o w} (hw : tbl.Resolves (tbl.selfType d) c (some w))
    (hnarrows : tbl.Narrows o c w) (hu : tbl.Resolves (tbl.selfType c) e.cls (some u))
    (hp : tbl.typeOf (.executable e) = .ok p)
    (hseen : tbl.Confined (fun v => tbl.assignment u v = none → tbl.assignment w v = none) p) :
    ∃ ps ps', tbl.SeenBoth occurrences e c d w ps ps' := by
  obtain ⟨u', hu'⟩ := h.exists_resolves_selfType hw hu
  have hview : tbl.Viewed occurrences u :=
    h.viewed_of_reaches hplain (h.reaches_of_resolves (tbl.formed_selfType c) hu).1
  have hview' : tbl.Viewed occurrences u' :=
    h.viewed_of_reaches hplain (h.reaches_of_resolves (tbl.formed_selfType d) hu').1
  obtain ⟨r, ps, x, ts, y, rfl, hy, hreal, hordinary⟩ := h.exists_seen hp hseen hu hview
  obtain ⟨r', ps', x', ts', y', rfl, hy', hreal', hordinary'⟩ := h.exists_seen hp hseen hu' hview'
  have hbare := calc
    (Ty.executable e (tbl.ownVariables (.executable e)) r' ps' x' ts').bare
      = (p.replace (tbl.assignment u')).bare := hreal'.1
    _ = ((p.replace (tbl.assignment u)).replace (tbl.assignment w)).bare :=
      Ty.bare_replace_of_image (hseen.mono fun _ hx n v marks hv =>
        h.bare_image_views hplain hcoherent hw hnarrows hu hu' (hx.1 n v marks hv))
    _ = ((Ty.executable e (tbl.ownVariables (.executable e)) r ps x ts).replace
          (tbl.assignment w)).bare := Ty.bare_replace_congr hreal.1.symm fun _ => rfl
  simp only [Ty.replace, Ty.replaceAll_eq_map, Ty.bare_executable, Ty.executable.injEq] at hbare
  refine ⟨ps, ps', ⟨r, x, ts, hy⟩, ⟨r', x', ts', hy', fun z hz => ?_⟩, ?_, fun q hq => ?_⟩
  · have hmem : z ∈ Ty.children (.executable e (tbl.ownVariables (.executable e)) r' ps'
        x' ts') := by
      simp only [mem_cons] at hz
      simp only [Ty.children, mem_append, mem_cons]
      rcases hz with rfl | rfl | hz <;> simp [*]
    exact ⟨hreal'.2.part hmem, hordinary' z hmem⟩
  · have hpairs : Forall₂ (fun q q' => q'.bare = (q.replace (tbl.assignment w)).bare) ps ps' := by
      have hmap := hbare.2.2.2.1
      rw [map_map] at hmap
      exact (forall₂_map_right_iff.mp (forall₂_map_left_iff.mp
        (forall₂_eq_eq_eq ▸ hmap : Forall₂ (· = ·) _ _))).flip
    refine forall₂_imp_mem hpairs fun q hq q' hq' heq => ?_
    exact ⟨hreal.2.part (Ty.mem_children_executable hq),
      hreal'.2.part (Ty.mem_children_executable hq'),
      hordinary q (Ty.mem_children_executable hq),
      hordinary' q' (Ty.mem_children_executable hq'), heq⟩
  · obtain ⟨_, ps₀, _, _, rfl, hps₀, -⟩ := exists_eq_executable hp
    have hparameters := hreal.1
    simp only [Ty.replace, Ty.replaceAll_eq_map, Ty.bare_executable, Ty.executable.injEq]
      at hparameters
    obtain ⟨z, hz, hzq⟩ := Ty.exists_mem_of_map_bare_eq hparameters.2.2.2.1.symm hq
    obtain ⟨q₀, hq₀, rfl⟩ := mem_map.mp hz
    rw [← Ty.kind_eq_of_bare_eq hzq]
    rcases Ty.kind_replace (tbl.assignment u) q₀ with hkind | ⟨_, v, _, -, hv⟩
    · rw [parameterTypes, descriptors_eq_mapM] at hps₀
      obtain ⟨_, -, hdescriptor⟩ := exists_of_forall₂_right (mapM_eq_ok.mp hps₀) hq₀
      rw [hkind]
      exact kind_of_descriptor hdescriptor
    · exact Ty.kind_of_isArgument (suits_assignment hview.formed v _ hv).isArgument

end Seen

/-! ### Overriding -/

section Overrides

variable {m o : ExecutableId} {k : Nat}

/-- Seen from the class, the two executables have the same parameters after renaming. -/
def SameParameters (tbl : Table) (c : ClassId) (m o : ExecutableId) : Prop :=
  ∃ k s t first second, tbl.memberType k (tbl.selfType c) (.executable m) = .ok s ∧
    tbl.memberType k (tbl.selfType c) (.executable o) = .ok t ∧ s.signature = .ok first ∧
    t.signature = .ok second ∧ tbl.sameSignature first second = .ok true

/-- Seen from the class, the parameters of the executable have erasures that do not change with what
a subclass puts for type parameters. -/
def SteadyParameters (tbl : Table) (c : ClassId) (o : ExecutableId) (w : Ty) : Prop :=
  ∀ k t vars parameters, tbl.memberType k (tbl.selfType c) (.executable o) = .ok t →
    t.signature = .ok (vars, parameters) → ∀ q ∈ parameters, q.Steady (tbl.assignment w)

theorem overridesIn_eq_true : tbl.overridesIn k m o c = .ok true ↔
    tbl.isSubclassOf c m.cls = .ok true ∧ tbl.isSubclassOf c o.cls = .ok true ∧
      tbl.canOverride m.cls o.cls = .ok true ∧
      ∃ s t, tbl.memberType k (tbl.selfType c) (.executable m) = .ok s ∧
        tbl.memberType k (tbl.selfType c) (.executable o) = .ok t ∧
        tbl.isSubsignature k s t = .ok true ∧ tbl.isMethodVisible k o m.cls = .ok true := by
  constructor
  · intro h
    obtain ⟨b, hb, h⟩ := bind_eq_ok.mp h
    cases b with
    | false => cases h
    | true =>
      obtain ⟨b', hb', h⟩ := bind_eq_ok.mp h
      cases b' with
      | false => cases h
      | true =>
        obtain ⟨b'', hb'', h⟩ := bind_eq_ok.mp h
        cases b'' with
        | false => cases h
        | true =>
          obtain ⟨s, hs, h⟩ := bind_eq_ok.mp h
          obtain ⟨t, ht, h⟩ := bind_eq_ok.mp h
          obtain ⟨b, hsub, h⟩ := bind_eq_ok.mp h
          cases b with
          | false => cases h
          | true => exact ⟨hb, hb', hb'', s, t, hs, ht, hsub, h⟩
  · rintro ⟨hm, ho, hcan, s, t, hs, ht, hsub, hvisible⟩
    exact bind_eq_ok.mpr ⟨true, hm, bind_eq_ok.mpr ⟨true, ho, bind_eq_ok.mpr ⟨true, hcan,
      bind_eq_ok.mpr ⟨s, hs, bind_eq_ok.mpr ⟨t, ht, bind_eq_ok.mpr ⟨true, hsub, hvisible⟩⟩⟩⟩⟩⟩

theorem overrides_eq_true : tbl.overrides k (.executable m) (.executable o) (.type c) = .ok true ↔
    tbl.areInstanceMethods m o = true ∧ tbl.overridesIn k m o c = .ok true := by
  change (if tbl.areInstanceMethods m o then tbl.overridesIn k m o c else return false) = _ ↔ _
  split_ifs with hmethods
  · exact (and_iff_right hmethods).symm
  · exact ⟨fun h => (by cases h), fun h => absurd h.1 hmethods⟩

/-- Overriding persists in subclasses. Let one class see another with arguments, none of them a
wildcard, and let every type variable have an erasure. If a method overrides another as a member of
the second class, it does so as a member of the first. The methods have the same parameters in the
second class, or parameters whose erasures do not change. -/
theorem Orderly.overrides_of_narrows (h : tbl.Orderly) (hplain : tbl.PlainlyRooted)
    (hcoherent : tbl.Coherent) (herases : ∀ v, ∃ k e, tbl.erase k (.var 0 v []) = .ok e)
    {w u u' p q : Ty} {k i j l : Nat}
    (hw : (tbl.resolveSupertype i (tbl.selfType d) c : Result (Option Ty)) = .ok (some w))
    (hu : (tbl.resolveSupertype j (tbl.selfType c) m.cls : Result (Option Ty)) = .ok (some u))
    (hu' : (tbl.resolveSupertype l (tbl.selfType c) o.cls : Result (Option Ty)) = .ok (some u'))
    (hnarrows : tbl.Narrows o c w) (hp : tbl.typeOf (.executable m) = .ok p)
    (hpseen : tbl.Confined (fun v => tbl.assignment u v = none → tbl.assignment w v = none) p)
    (hq : tbl.typeOf (.executable o) = .ok q)
    (hqseen : tbl.Confined (fun v => tbl.assignment u' v = none → tbl.assignment w v = none) q)
    (hmatch : tbl.SameParameters c m o ∨ tbl.SteadyParameters c o w)
    (hoverrides : tbl.overrides k (.executable m) (.executable o) (.type c) = .ok true) :
    ∃ n, ∀ k ≥ n, tbl.overrides k (.executable m) (.executable o) (.type d) = .ok true := by
  replace hw := h.resolves_of_ok hw
  replace hu := h.resolves_of_ok hu
  replace hu' := h.resolves_of_ok hu'
  have hsub {a : ClassId} {r : Ty} (hr : tbl.Resolves (tbl.selfType c) a (some r)) :
      tbl.isSubclassOf d a = .ok true := by
    obtain ⟨x, hx⟩ := h.exists_resolves_selfType hw hr
    obtain ⟨owner, heq⟩ := tbl.selfType_eq d
    rw [heq] at hx
    exact h.isSubclassOf_of_resolves hx
  have hvars (v : TypeVarId) : ∃ e, tbl.Erases (.var 0 v []) e := by
    obtain ⟨k, e, he⟩ := herases v
    exact ⟨e, erases_of_eraseWith he (.leaf trivial rfl)⟩
  have hview : tbl.Viewed (fun _ _ => .null) w :=
    h.viewed_of_reaches hplain (h.reaches_of_resolves (tbl.formed_selfType d) hw).1
  obtain ⟨ps, ps', hseen⟩ :=
    h.exists_seenBoth (fun _ _ => .null) hplain hcoherent hw hnarrows hu hp hpseen
  obtain ⟨qs, qs', hseen'⟩ :=
    h.exists_seenBoth (fun _ _ => .null) hplain hcoherent hw hnarrows hu' hq hqseen
  obtain ⟨_, _, _, hleft⟩ := hseen.left
  obtain ⟨_, _, _, hleft'⟩ := hseen'.left
  obtain ⟨_, _, _, hright, -⟩ := hseen.right
  obtain ⟨_, _, _, hright', hrest⟩ := hseen'.right
  obtain ⟨hmethods, hoverrides⟩ := overrides_eq_true.mp hoverrides
  obtain ⟨-, -, hcan, s, t, hs, ht, hsubsignature, hvisible⟩ := overridesIn_eq_true.mp hoverrides
  cases hleft.eq_of_ok hs
  cases hleft'.eq_of_ok ht
  have hagree : tbl.sameSignature (tbl.ownVariables (.executable m), ps)
      (tbl.ownVariables (.executable o), qs) = .ok true ∨
      ∀ q ∈ qs, q.Steady (tbl.assignment w) := by
    refine hmatch.imp (fun ⟨k', s', t', first, second, hs', ht', hfirst, hsecond, hsame⟩ => ?_)
      fun hsteady => hsteady k _ _ _ ht rfl
    cases hleft.eq_of_ok hs'
    cases hleft'.eq_of_ok ht'
    cases hfirst
    cases hsecond
    exact hsame
  obtain ⟨n, hn⟩ := exists_isSubsignature_of_carries h.rooted.isObject_objectType
    (hnarrows.filling hview) hvars hseen.carries hseen.kind hseen'.carries hrest
    hsubsignature hagree
  obtain ⟨n₁, hn₁⟩ := hright.1
  obtain ⟨n₂, hn₂⟩ := hright'.1
  refine ⟨max (max n k) (max n₁ n₂), fun k' hk => overrides_eq_true.mpr ⟨hmethods,
    overridesIn_eq_true.mpr ⟨hsub hu, hsub hu', hcan, _, _, hn₁ k' (by omega), hn₂ k' (by omega),
      hn k' (by omega), ?_⟩⟩⟩
  exact (cut_isMethodVisible (by omega) o m.cls).eq_ok hvisible

/-- The type variables that an executable mentions are its own, or have arguments where its class is
seen with arguments. -/
theorem IsLocal.confined {p} (hp : tbl.IsLocal (.executable e) p)
    (hchecked : tbl.Checked (.declared e.cls args owner marks))
    (hraw : tbl.isRaw e.cls args = false) (w : Ty) :
    tbl.Confined (fun v => tbl.assignment (.declared e.cls args owner marks) v = none →
      tbl.assignment w v = none) p :=
  (hp.and (hp.over mem_cons_self hchecked hraw fun _ _ _ hv => assignment_executable hv w)).mono
    fun _ hx => ⟨hx.2, hx.1.2⟩

/-- A method with a type parameter of its own and one parameter of each type variable. -/
def pairMethod (c : ClassId) : ExecutableDecl where
  name := "m"
  typeParameters := [{ name := "U" }]
  returnType := .named ⟨0⟩ []
  parameters := [{ name := "x", type := .var ⟨.cls c, 0⟩ [] },
    { name := "y", type := .var ⟨.executable ⟨c, false, 0⟩, 0⟩ [] }]

/-- A class and its superclass with such a method each, a class that inherits them with arrays of
its type parameter, and a subclass of that. -/
def pairMethods : Table where
  classes := #[
    { name := "java.lang.Object", simpleName := "Object", kind := .cls },
    { name := "p.B", simpleName := "B", kind := .cls, typeParameters := [{ name := "T" }],
      methods := [pairMethod ⟨1⟩] },
    { name := "p.A", simpleName := "A", kind := .cls, typeParameters := [{ name := "T" }],
      superclass := some (.applied ⟨1⟩ [.var ⟨.cls ⟨2⟩, 0⟩ []] none []),
      methods := [pairMethod ⟨2⟩] },
    { name := "p.C", simpleName := "C", kind := .cls, typeParameters := [{ name := "X" }],
      superclass := some (.applied ⟨2⟩ [.array (.var ⟨.cls ⟨3⟩, 0⟩ []) []] none []) },
    { name := "p.D", simpleName := "D", kind := .cls,
      superclass := some (.applied ⟨3⟩ [.named ⟨4⟩ []] none []) }]

/-- The type of such a method. -/
def pairMethodType (e : ExecutableId) : Ty :=
  .executable e [.var 0 ⟨.executable e, 0⟩ []] (.declared ⟨0⟩ [] none [])
    [.var 0 ⟨.cls e.cls, 0⟩ [], .var 0 ⟨.executable e, 0⟩ []]
    (.declared e.cls [.var 0 ⟨.cls e.cls, 0⟩ []] none []) []

theorem exists_erase_pairMethods (v : TypeVarId) :
    ∃ k e, pairMethods.erase k (.var 0 v []) = .ok e := by
  obtain ⟨ts, hts, htest⟩ := exists_of_testBounds
    (p := fun _ ts => decide (ts.length = 1 ∧ ∀ t ∈ ts, t.kind = .declared))
    (show pairMethods.testBounds _ = true by rfl) (fun _ => by rfl) v
  obtain ⟨hlength, hkinds⟩ := of_decide_eq_true htest
  obtain ⟨t, rfl⟩ := length_eq_one_iff.mp hlength
  obtain ⟨c, args, owner, marks, rfl⟩ := Ty.exists_eq_declared (hkinds t mem_cons_self)
  have hupper : pairMethods.upperBound v = .ok (.declared c args owner marks) := by
    rw [upperBound, hts]
    rfl
  have herases : pairMethods.Erases (.var 0 v []) _ := .var hupper .declared
  obtain ⟨n, hn⟩ := (herases.settles_eraseWith fun k => pairMethods.leastUpperBounds k).1
  exact ⟨n, _, hn n (Nat.le_refl n)⟩

/-- Generic methods persist with the arrays that a subclass puts in. -/
theorem Orderly.overrides_of_narrows_arrays :
    let m : ExecutableId := ⟨⟨2⟩, false, 0⟩
    let o : ExecutableId := ⟨⟨1⟩, false, 0⟩
    let arrays (c : ClassId) : Ty := .declared c [.array (.var 0 ⟨.cls ⟨3⟩, 0⟩ []) []] none []
    let w : Ty := .declared ⟨3⟩ [.declared ⟨4⟩ [] none []] none []
    (pairMethods.Orderly ∧ pairMethods.PlainlyRooted ∧ pairMethods.Coherent ∧
      (∀ v, ∃ k e, pairMethods.erase k (.var 0 v []) = .ok e) ∧
      (pairMethods.resolveSupertype 4 (pairMethods.selfType ⟨4⟩) ⟨3⟩ : Result (Option Ty)) =
        .ok (some w) ∧
      (pairMethods.resolveSupertype 4 (pairMethods.selfType ⟨3⟩) m.cls : Result (Option Ty)) =
        .ok (some (arrays m.cls)) ∧
      (pairMethods.resolveSupertype 4 (pairMethods.selfType ⟨3⟩) o.cls : Result (Option Ty)) =
        .ok (some (arrays o.cls)) ∧
      pairMethods.Narrows o ⟨3⟩ w ∧
      pairMethods.typeOf (.executable m) = .ok (pairMethodType m) ∧
      pairMethods.Confined (fun v => pairMethods.assignment (arrays m.cls) v = none →
        pairMethods.assignment w v = none) (pairMethodType m) ∧
      pairMethods.typeOf (.executable o) = .ok (pairMethodType o) ∧
      pairMethods.Confined (fun v => pairMethods.assignment (arrays o.cls) v = none →
        pairMethods.assignment w v = none) (pairMethodType o) ∧
      pairMethods.SameParameters ⟨3⟩ m o ∧
      pairMethods.overrides 9 (.executable m) (.executable o) (.type ⟨3⟩) = .ok true) ∧
    ∃ n, ∀ k ≥ n, pairMethods.overrides k (.executable m) (.executable o)
      (.type ⟨4⟩) = .ok true := by
  have h : pairMethods.Orderly := orderly_of_isLayered (by rfl) (by rfl) (by rfl)
  have hstatic : pairMethods.Static := static_of_testPatterns (by rfl)
  have hplain : pairMethods.PlainlyRooted :=
    ⟨rfl, fun c ps hps p hp => (hstatic c ps hps p hp).mono fun x hx =>
      ⟨fun _ _ _ _ => trivial, hx.2⟩⟩
  have hcoherent : pairMethods.Coherent := h.coherent_of_all (by rfl)
  have hlocal (e : ExecutableId) (he : e = ⟨⟨1⟩, false, 0⟩ ∨ e = ⟨⟨2⟩, false, 0⟩) :
      pairMethods.IsLocal (.executable e) (pairMethodType e) := by
    rcases he with rfl | rfl <;> exact of_decide_eq_true rfl
  have hsame : pairMethods.SameParameters ⟨3⟩ ⟨⟨2⟩, false, 0⟩ ⟨⟨1⟩, false, 0⟩ :=
    ⟨9, _, _, _, _, rfl, rfl, rfl, rfl, rfl⟩
  have hoverrides : pairMethods.overrides 9 (.executable ⟨⟨2⟩, false, 0⟩)
      (.executable ⟨⟨1⟩, false, 0⟩) (.type ⟨3⟩) = .ok true := by cbv
  intro m o arrays w
  have hD : ∀ v x, pairMethods.assignment w v = some x → x = .declared ⟨4⟩ [] none [] :=
    forall_assignment (forall_mem_singleton.mpr rfl) fun _ h => by cases h
  have hnarrows : pairMethods.Narrows o ⟨3⟩ w := {
    isRaw := fun args owner marks heq => by
      injection heq with _ hargs
      rw [← hargs]
      rfl
    isWildcard := fun v x hx => by rw [hD v x hx]; rfl
    avoids := fun v x hx => by
      rw [hD v x hx]
      exact .leaf (fun n v ms heq => by injection heq) rfl
    covers := fun e args owner marks hreaches hraw ps hps p hp =>
      h.covers_of_static hplain hstatic hreaches hraw hps w p hp }
  have hp : pairMethods.Confined (fun v => pairMethods.assignment (arrays m.cls) v = none →
      pairMethods.assignment w v = none) (pairMethodType m) :=
    (hlocal m (.inr rfl)).confined ⟨.inr rfl, by simp [Ty.isArgument]⟩ rfl w
  have hq : pairMethods.Confined (fun v => pairMethods.assignment (arrays o.cls) v = none →
      pairMethods.assignment w v = none) (pairMethodType o) :=
    (hlocal o (.inl rfl)).confined ⟨.inr rfl, by simp [Ty.isArgument]⟩ rfl w
  exact ⟨⟨h, hplain, hcoherent, exists_erase_pairMethods, by rfl, by rfl, by rfl, hnarrows, by cbv,
    hp, by cbv, hq, hsame, hoverrides⟩, h.overrides_of_narrows (i := 4) (j := 4) (l := 4) hplain
      hcoherent exists_erase_pairMethods (by rfl) (by rfl) (by rfl) hnarrows (by cbv) hp (by cbv) hq
      (.inl hsame) hoverrides⟩

/-- Interfaces with methods of one parameter each: those of the upper one have a parameter of the
type variable, those of the lower one have the root class and the type variable. Classes implement
the lower interface with an argument, raw and with a wildcard, and one implements it besides the
upper interface with another argument. -/
def singleMethods : Table :=
  let method (name : Name) (x : Expr) : ExecutableDecl :=
    { name := name, returnType := .named ⟨0⟩ [], parameters := [{ name := "x", type := x }] }
  let T (c : ClassId) : Expr := .var ⟨.cls c, 0⟩ []
  let object : Option Expr := some (.named ⟨0⟩ [])
  { classes := #[
      { name := "java.lang.Object", simpleName := "Object", kind := .cls },
      { name := "p.B", simpleName := "B", kind := .interface, typeParameters := [{ name := "T" }],
        methods := [method "m" (T ⟨1⟩), method "n" (T ⟨1⟩)] },
      { name := "p.A", simpleName := "A", kind := .interface, typeParameters := [{ name := "T" }],
        interfaces := [.applied ⟨1⟩ [T ⟨2⟩] none []],
        methods := [method "m" (.named ⟨0⟩ []), method "n" (T ⟨2⟩)] },
      { name := "p.D", simpleName := "D", kind := .cls, superclass := object,
        interfaces := [.applied ⟨2⟩ [.named ⟨3⟩ []] none []] },
      { name := "p.E", simpleName := "E", kind := .cls, superclass := object,
        interfaces := [.named ⟨2⟩ []] },
      { name := "p.F", simpleName := "F", kind := .cls, superclass := object,
        interfaces := [.applied ⟨2⟩ [.wildcard [] [] []] none []] },
      { name := "p.G", simpleName := "G", kind := .cls, superclass := object,
        interfaces := [.applied ⟨1⟩ [.named ⟨6⟩ []] none []] },
      { name := "p.H", simpleName := "H", kind := .cls, superclass := some (.named ⟨6⟩ []),
        interfaces := [.applied ⟨2⟩ [.named ⟨7⟩ []] none []] }] }

/-- A method with the erasure of the parameters of another no longer overrides it where the
interface gets an argument. A method with the same parameters does not where the interface is raw or
has a wildcard, nor where the upper interface is inherited with another argument. -/
theorem overrides_not_inherited :
    let overrides (i : Nat) (c : ClassId) : Result Bool :=
      singleMethods.overrides 9 (.executable ⟨⟨2⟩, false, i⟩)
        (.executable ⟨⟨1⟩, false, i⟩) (.type c)
    singleMethods.Orderly ∧ singleMethods.isSubclassOf ⟨2⟩ ⟨1⟩ = .ok true ∧
      (∀ d ∈ [⟨3⟩, ⟨4⟩, ⟨5⟩, ⟨7⟩], singleMethods.isSubclassOf d ⟨2⟩ = .ok true) ∧
      (overrides 0 ⟨2⟩ = .ok true ∧ overrides 0 ⟨3⟩ = .ok false) ∧
      overrides 1 ⟨2⟩ = .ok true ∧ ∀ d ∈ [⟨4⟩, ⟨5⟩, ⟨7⟩], overrides 1 d = .ok false := by
  have h : singleMethods.Orderly := orderly_of_isLayered (by rfl) (by rfl) (by rfl)
  refine ⟨h, by rfl, ?_, ⟨by cbv, by cbv⟩, by cbv, ?_⟩
  · simp only [forall_mem_cons]
    exact ⟨by rfl, by rfl, by rfl, by rfl, forall_mem_nil _⟩
  · simp only [forall_mem_cons]
    exact ⟨by cbv, by cbv, by cbv, forall_mem_nil _⟩

end Overrides

end Table

end NominalTypes
