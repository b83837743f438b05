import NominalTypes.Ty.Supertype
import NominalTypes.Proofs.Hierarchy
import NominalTypes.Proofs.Instantiation

/-!
# Supertypes in an orderly table

A table is orderly (`Table.Orderly`) if it has one root class, its supertype expressions denote uses
of classes, and the hierarchy is well-founded. In such a table the supertypes of every use of a
class can be computed, and `Table.Supers` says what they are: nothing above the root class, the root
class above a class without supertype expressions, erasures above a raw type, and otherwise what the
arguments make of the supertype expressions.

Going up to a class then always ends. `Table.Resolves` gives the answer, and
`Table.Orderly.exists_ascends` is the one induction over the hierarchy: a relation between types
that passes to their supertypes passes to the parameterizations of a class above them.

A table obeys a shape (`Table.Obeys`) if, besides, its supertype expressions and the bounds of its
type variables are of the shape.
-/

namespace NominalTypes

open List

variable {c d target : ClassId} {t : Ty} {p : Ty → Prop} {args ps ts ss args' : List Ty}
  {owner owner' : Option Ty} {marks : List ClassId} {e : Expr} {rs : List (Option Ty)}
  {R : Ty → Ty → Prop}

namespace Ty

/-- The type is a use of the class. -/
def Uses (c : ClassId) (t : Ty) : Prop :=
  ∃ args owner marks, t = declared c args owner marks

/-- A use of a class whose arguments, and those of its owners, can be put for type parameters. -/
inductive Formed : Ty → Prop
  | intro {c : ClassId} {args : List Ty} {owner : Option Ty} {marks : List ClassId}
    (hargs : ∀ a ∈ args, a.Suits) (howner : ∀ o ∈ owner, Formed o) :
    Formed (declared c args owner marks)

theorem Uses.unique (hc : Uses c t) (hd : Uses d t) : c = d := by
  obtain ⟨_, _, _, rfl⟩ := hc
  obtain ⟨_, _, _, h⟩ := hd
  cases h
  rfl

theorem exists_uses (h : t.kind = .declared) : ∃ c, Uses c t := by
  obtain ⟨c, args, owner, marks, rfl⟩ := exists_eq_declared h
  exact ⟨c, args, owner, marks, rfl⟩

section Formed

theorem Formed.kind (h : Formed t) : t.kind = .declared := by
  cases h
  rfl

theorem Formed.suits (h : Formed (declared c args owner marks)) : ∀ a ∈ args, a.Suits := by
  cases h
  assumption

theorem Formed.formed_owner (h : Formed (declared c args owner marks)) : ∀ o ∈ owner, Formed o := by
  cases h
  assumption

theorem Formed.remark (h : Formed (declared c args owner marks)) (marks' : List ClassId) :
    Formed (declared c args owner marks') :=
  .intro h.suits h.formed_owner

theorem formed_bare_class (c : ClassId) (marks : List ClassId) :
    Formed (declared c [] .none marks) :=
  .intro (forall_mem_nil _) fun _ h => nomatch h

end Formed

end Ty

namespace Table

variable (tbl : Table)

/-- There is one root class, the hierarchy is well-founded, and supertype expressions denote uses of
classes. -/
structure Orderly : Prop where
  rooted : tbl.Rooted
  acyclic : WellFounded fun d c => tbl.Extends c d
  denotes : ∀ c, ∀ e ∈ tbl.supertypeExprs c, ∃ t, tbl.descriptor e = .ok t ∧ t.kind = .declared

/-- The type is a use of a class, which may be raw, with arguments and an owner of the fragment. -/
def Invokes (S : Shape) (t : Ty) : Prop :=
  t.kind = .declared ∧ tbl.Layer { S with raw := true } t ∧ ∀ x ∈ t.children, x.Every (tbl.Layer S)

/-- The supertypes that the table declares are of the shape. -/
def Patterned (S : Shape) : Prop :=
  ∀ c, ∀ e ∈ tbl.supertypeExprs c, ∀ t, tbl.descriptor e = .ok t → tbl.Invokes S t

/-- The table is orderly, and its supertypes and the bounds of type variables are of the shape. -/
structure Obeys (S : Shape) : Prop extends Orderly tbl where
  supertypes : ∀ c, ∀ e ∈ tbl.supertypeExprs c, ∀ t, tbl.descriptor e = .ok t → tbl.Invokes S t
  bounds : ∀ v, ∃ ts, tbl.boundsOf v = .ok ts ∧ (∀ t ∈ ts, tbl.Within S t) ∧
    (S.intersections = true ∨ ts.length = 1)

/-- A use of a class without its arguments and its owner. -/
def eraseUse : Ty → Ty
  | .declared c _ _ marks => .declared c [] none marks
  | t => t

/-- The direct supertypes of a use of a class. -/
inductive Supers (c : ClassId) (args : List Ty) (owner : Option Ty) : List Ty → Prop
  | root (hexprs : tbl.supertypeExprs c = []) (hname : (tbl.cls c).name = "java.lang.Object") :
    Supers c args owner []
  | top (hexprs : tbl.supertypeExprs c = []) (hname : (tbl.cls c).name ≠ "java.lang.Object") :
    Supers c args owner [tbl.objectType]
  | erased {ps : List Ty} (hexprs : tbl.supertypeExprs c ≠ [])
    (hps : tbl.descriptors (tbl.supertypeExprs c) = .ok ps) (hraw : tbl.isRaw c args = true) :
    Supers c args owner (ps.map eraseUse)
  | replaced {ps ts : List Ty} {m : Mapping} (hexprs : tbl.supertypeExprs c ≠ [])
    (hps : tbl.descriptors (tbl.supertypeExprs c) = .ok ps) (hraw : tbl.isRaw c args = false)
    (hm : tbl.typeMapping (.declared c args owner []) = .ok m)
    (hts : ps.mapM (tbl.substitute m) = .ok ts) : Supers c args owner ts

/-- The second class is a supertype of the first in the raw hierarchy, in which the root class is
above each class without supertype expressions. -/
def Inherits (c d : ClassId) : Prop :=
  tbl.Extends c d ∨ tbl.supertypeExprs c = [] ∧ c ≠ tbl.core.object ∧ d = tbl.core.object

variable {tbl} {S : Shape}

/-! ### Uses of classes -/

theorem Layer.mono_raw (h : tbl.Layer S t) : tbl.Layer { S with raw := true } t := by
  cases t with
  | declared c args owner marks =>
    obtain ⟨hcount, hargs, howned⟩ := h
    exact ⟨hcount.imp_right fun h => ⟨h.1, rfl⟩, hargs, howned⟩
  | _ => exact h

theorem Within.invokes (h : tbl.Within S t) (hkind : t.kind = .declared) : tbl.Invokes S t :=
  ⟨hkind, h.2.top.mono_raw, fun _ hx => h.2.part hx⟩

theorem Invokes.of_bare_eq {s} (h : s.bare = t.bare) (hs : tbl.Invokes S s) :
    tbl.Invokes S t := by
  obtain ⟨hkind, hlayer, hparts⟩ := hs
  refine ⟨?_, hlayer.of_bare_eq h, fun y hy => ?_⟩
  · rw [← Ty.kind_eq_of_bare_eq h]
    exact hkind
  · have hchildren : s.children.map Ty.bare = t.children.map Ty.bare := by
      rw [← Ty.children_bare, h, Ty.children_bare]
    obtain ⟨x, hx, hxy⟩ := Ty.exists_mem_of_map_bare_eq hchildren hy
    exact (hparts x hx).of_bare_eq (fun _ _ => Layer.of_bare_eq) hxy

section Invokes

theorem Invokes.admits (h : tbl.Invokes S (.declared c args owner marks)) {a} (ha : a ∈ args) :
    tbl.Admits S a :=
  ⟨h.2.1.2.1 a ha, h.2.2 a (mem_append_left _ ha)⟩

theorem Invokes.invokes_owner (h : tbl.Invokes S (.declared c args owner marks)) {o}
    (ho : o ∈ owner) : tbl.Invokes S o := by
  have hkind := (h.2.1.2.2 o ho).2.2
  have hlayers := h.2.2 o (mem_append_right _ (Option.mem_toList.mpr ho))
  exact ⟨hkind, hlayers.top.mono_raw, fun x hx => hlayers.part hx⟩

/-- A use of a class without arguments and owner. -/
theorem invokes_bare_class (c : ClassId) (marks : List ClassId) :
    tbl.Invokes S (.declared c [] none marks) := by
  refine ⟨rfl, ⟨.inr ⟨rfl, rfl⟩, forall_mem_nil _, fun o ho => ?_⟩, fun _ hx => ?_⟩
  · cases ho
  · cases hx

end Invokes

theorem isBadBound_of_isBound (h : t.isBound = true) : isBadBound t = false := by
  cases t <;> first | rfl | cases h

theorem Admits.suits {x} (h : tbl.Admits S x) : x.Suits :=
  ⟨h.1, isBadBound_of_isBound h.isBound_orUpper, isBadBound_of_isBound h.isBound_orLower⟩

theorem Invokes.formed (h : tbl.Invokes S t) : t.Formed := by
  induction t using Ty.children_induction with
  | step t ih =>
    obtain ⟨c, args, owner, marks, rfl⟩ := Ty.exists_eq_declared h.1
    exact .intro (fun a ha => (h.admits ha).suits) fun o ho =>
      ih o (mem_append_right _ (Option.mem_toList.mpr ho)) (h.invokes_owner ho)

theorem invokes_eraseUse (h : tbl.Invokes S t) : tbl.Invokes S (eraseUse t) := by
  obtain ⟨c, args, owner, marks, rfl⟩ := Ty.exists_eq_declared h.1
  exact invokes_bare_class c marks

/-! ### Type mappings -/

theorem exists_typeMapping (h : t.Formed) : ∃ m, tbl.typeMapping t = .ok m := by
  induction h with
  | @intro c args owner marks hargs howner ih =>
    cases owner with
    | none => exact ⟨_, rfl⟩
    | some o =>
      obtain ⟨m, hm⟩ := ih o rfl
      rw [typeMapping, hm]
      exact ⟨_, rfl⟩

/-- What holds of all arguments, those of owners included, holds of what is put for type
parameters. -/
theorem forall_assignment (hargs : ∀ a ∈ args, p a)
    (howner : ∀ o ∈ owner, ∀ v x, tbl.assignment o v = some x → p x) (v : TypeVarId) (x : Ty)
    (hx : tbl.assignment (.declared c args owner marks) v = some x) : p x := by
  have hown (hx : (if v ∈ tbl.typeVars (.cls c) then args[v.index]? else none) = some x) : p x := by
    split_ifs at hx
    exact hargs x (mem_of_getElem? hx)
  cases owner with
  | none => exact hown hx
  | some o =>
    rw [assignment, Option.or_eq_some_iff] at hx
    rcases hx with hx | ⟨-, hx⟩
    · exact hown hx
    · exact howner o rfl v x hx

/-- The same for what says something of the arguments and passes to the owner. -/
theorem of_assignment {q : Ty → Prop} (hq : ∀ c args owner marks, q (.declared c args owner marks) →
    (∀ a ∈ args, p a) ∧ ∀ o ∈ owner, q o) (ht : q t) (v : TypeVarId) (x : Ty)
    (hx : tbl.assignment t v = some x) : p x := by
  induction t using Ty.children_induction generalizing v x with
  | step t ih =>
    cases t with
    | declared c args owner marks =>
      obtain ⟨hargs, howner⟩ := hq c args owner marks ht
      exact forall_assignment hargs (fun o ho =>
        ih o (mem_append_right _ (Option.mem_toList.mpr ho)) (howner o ho)) v x hx
    | _ => cases hx

theorem suits_assignment (h : t.Formed) :
    ∀ v x, tbl.assignment t v = some x → x.Suits :=
  of_assignment (fun _ _ _ _ h => by cases h with | intro hargs howner => exact ⟨hargs, howner⟩) h

/-- What is put for type parameters are arguments of the fragment. -/
theorem admits_assignment (h : tbl.Invokes S t) :
    ∀ v x, tbl.assignment t v = some x → tbl.Admits S x :=
  of_assignment (fun _ _ _ _ h => ⟨fun _ => h.admits, fun _ => h.invokes_owner⟩) h

/-- What the type puts for type parameters is known, and are arguments of the fragment. -/
def Maps (tbl : Table) (S : Shape) (t : Ty) : Prop :=
  t.Formed ∧ ∀ v x, tbl.assignment t v = some x → tbl.Admits S x

theorem Invokes.maps (h : tbl.Invokes S t) : tbl.Maps S t :=
  ⟨h.formed, admits_assignment h⟩

theorem assignment_remark (c : ClassId) (args : List Ty) (owner : Option Ty)
    (marks marks' : List ClassId) :
    tbl.assignment (.declared c args owner marks) =
      tbl.assignment (.declared c args owner marks') := by
  cases owner <;> rfl

theorem Maps.remark (h : tbl.Maps S (.declared c args owner marks)) (marks' : List ClassId) :
    tbl.Maps S (.declared c args owner marks') :=
  ⟨h.1.remark marks', by rw [assignment_remark c args owner marks' marks]; exact h.2⟩

theorem invokes_subst {σ} (hσ : ∀ v x, σ v = some x → tbl.Admits S x) (h : tbl.Invokes S t) :
    tbl.Invokes S (t.subst σ) := by
  obtain ⟨c, args, owner, marks, rfl⟩ := Ty.exists_eq_declared h.1
  obtain ⟨-, hlayer, hparts⟩ := h
  refine ⟨rfl, layer_subst_declared hσ hlayer, fun x hx => ?_⟩
  simp only [Ty.subst, Ty.substAll_eq_map, Ty.substOwner_eq_map] at hx
  rcases mem_append.mp hx with hx | hx
  · obtain ⟨b, hb, rfl⟩ := mem_map.mp hx
    exact every_layer_subst hσ (hparts b (mem_append_left _ hb))
  · obtain ⟨p, rfl, rfl⟩ := Option.map_eq_some_iff.mp (Option.mem_toList.mp hx)
    exact every_layer_subst hσ (hparts p (mem_append_right _ mem_cons_self))

/-! ### Patterns of supertypes -/

/-- An expression that denotes a use of a class names the class, which is no stand-in for a
primitive type. -/
theorem rawClass_of_descriptor (h : tbl.descriptor e = .ok (.declared c args owner marks)) :
    tbl.rawClass e = .ok c ∧ (tbl.cls c).isPrimitive = false := by
  cases describes_of_descriptor h with
  | named hc | applied hc => exact ⟨rfl, hc⟩

/-- The patterns of the supertypes of a class. -/
theorem Orderly.exists_patterns (h : tbl.Orderly) (c : ClassId) :
    ∃ ps, tbl.descriptors (tbl.supertypeExprs c) = .ok ps ∧
      ∀ p ∈ ps, p.kind = .declared ∧ p.Every tbl.Denoted := by
  obtain ⟨ps, hps⟩ := exists_mapM_eq_ok fun e he =>
    (h.denotes c e he).imp fun t (ht : _ ∧ _) => ht.1
  rw [← descriptors_eq_mapM] at hps
  refine ⟨ps, hps, fun p hp => ⟨?_, descriptors_denoted _ hps p hp⟩⟩
  rw [descriptors_eq_mapM] at hps
  obtain ⟨e, he, hep⟩ := exists_of_forall₂_right (mapM_eq_ok.mp hps) hp
  obtain ⟨t, ht, hkind⟩ := h.denotes c e he
  cases ht.symm.trans hep
  exact hkind

theorem Orderly.forall_patterns (h : tbl.Orderly)
    (hps : tbl.descriptors (tbl.supertypeExprs c) = .ok ps) :
    ∀ p ∈ ps, p.kind = .declared ∧ p.Every tbl.Denoted := by
  obtain ⟨ps', hps', hall⟩ := h.exists_patterns c
  cases hps.symm.trans hps'
  exact hall

theorem Patterned.invokes (h : tbl.Patterned S)
    (hps : tbl.descriptors (tbl.supertypeExprs c) = .ok ps) :
    ∀ p ∈ ps, tbl.Invokes S p := by
  intro p hp
  rw [descriptors_eq_mapM] at hps
  obtain ⟨e, he, hep⟩ := exists_of_forall₂_right (mapM_eq_ok.mp hps) hp
  exact h c e he p hep

theorem Obeys.patterned (h : tbl.Obeys S) : tbl.Patterned S :=
  h.supertypes

theorem Obeys.invokes_pattern (h : tbl.Obeys S)
    (hps : tbl.descriptors (tbl.supertypeExprs c) = .ok ps) : ∀ p ∈ ps, tbl.Invokes S p :=
  h.patterned.invokes hps

/-- The classes of the patterns make up the raw hierarchy. -/
theorem Orderly.forall₂_rawSupertypes (h : tbl.Orderly)
    (hps : tbl.descriptors (tbl.supertypeExprs c) = .ok ps) :
    ∃ ds, tbl.rawSupertypes c = .ok ds ∧
      Forall₂ (fun d p => Ty.Uses d p ∧ (tbl.cls d).isPrimitive = false) ds ps := by
  have hkind := h.forall_patterns hps
  rw [descriptors_eq_mapM, mapM_eq_ok] at hps
  rw [rawSupertypes]
  generalize tbl.supertypeExprs c = es at hps
  induction hps with
  | nil => exact ⟨[], rfl, .nil⟩
  | cons he _ ih =>
    obtain ⟨hp, hps⟩ := forall_mem_cons.mp hkind
    obtain ⟨d, args, owner, marks, rfl⟩ := Ty.exists_eq_declared hp.1
    obtain ⟨ds, hds, huses⟩ := ih hps
    obtain ⟨hraw, hprimitive⟩ := rawClass_of_descriptor he
    exact ⟨d :: ds, mapM_eq_ok.mpr (.cons hraw (mapM_eq_ok.mp hds)),
      .cons ⟨⟨args, owner, marks, rfl⟩, hprimitive⟩ huses⟩

theorem Orderly.exists_rawSupertypes (h : tbl.Orderly) (c : ClassId) :
    ∃ ds, tbl.rawSupertypes c = .ok ds := by
  obtain ⟨ps, hps, -⟩ := h.exists_patterns c
  obtain ⟨ds, hds, -⟩ := h.forall₂_rawSupertypes hps
  exact ⟨ds, hds⟩

section Pattern

variable {m : Mapping} {p : Ty}

theorem formed_of_denoted (hp : p.Every tbl.Denoted) (hkind : p.kind = .declared) : p.Formed := by
  induction hp with
  | @intro p top parts ih =>
    obtain ⟨c, args, owner, marks, rfl⟩ := Ty.exists_eq_declared hkind
    obtain ⟨-, hargs, howner⟩ := top
    exact .intro (fun a ha => (parts a (mem_append_left _ ha)).top.passed.suits (hargs a ha))
      fun o ho => ih o (mem_append_right _ (Option.mem_toList.mpr ho)) (howner o ho)

/-- Substitution in a use of a class gives a use of the class. -/
theorem uses_of_substitute (hd : Ty.Uses d p) (h : tbl.substitute m p = .ok t) :
    Ty.Uses d t := by
  rcases substitute_eq_ok h with ⟨-, rfl⟩ | h
  · exact hd
  · obtain ⟨args, owner, marks, rfl⟩ := hd
    rcases remakes_of_instantiate h with ⟨-, rfl⟩ | ⟨_, _, _, heq, -⟩ | ⟨-, -, -, rfl, -⟩
    · exact ⟨_, _, _, rfl⟩
    · cases heq
    · exact ⟨_, _, _, rfl⟩

variable (hm : ∀ v x, m.lookup v = some x → x.Suits)
include hm

theorem formed_of_instantiate (hp : p.Every tbl.Denoted) (hkind : p.kind = .declared)
    (h : tbl.instantiate m p = .ok t) : t.Formed := by
  induction hp generalizing t with
  | @intro p top parts ih =>
    obtain ⟨c, args, owner, marks, rfl⟩ := Ty.exists_eq_declared hkind
    rcases remakes_of_instantiate h with ⟨-, rfl⟩ | ⟨_, _, _, heq, -⟩ | ⟨-, -, hparts, rfl, -⟩
    · exact formed_of_denoted (.intro top parts) hkind
    · cases heq
    · refine .intro (fun a ha => ?_) fun o ho => ?_
      · obtain ⟨b, hb, rfl⟩ := mem_map.mp ha
        have hb' := mem_append_left owner.toList hb
        exact suits_of_instantiate hm ((parts b hb').top.passed.suits (top.2.1 b hb)) (hparts b hb')
      · obtain ⟨b, rfl, rfl⟩ := Option.map_eq_some_iff.mp ho
        have hb := mem_append_right args (Option.mem_toList.mpr (rfl : some b = some b))
        exact ih b hb (top.2.2 b rfl) (hparts b hb)

theorem formed_of_substitute (hp : p.Every tbl.Denoted) (hkind : p.kind = .declared)
    (h : tbl.substitute m p = .ok t) : t.Formed := by
  rcases substitute_eq_ok h with ⟨-, rfl⟩ | h
  · exact formed_of_denoted hp hkind
  · exact formed_of_instantiate hm hp hkind h

theorem exists_substitute (hroot : tbl.Rooted) (hp : p.Every tbl.Denoted) :
    ∃ t, tbl.substitute m p = .ok t := by
  rw [substitute]
  split_ifs
  · exact ⟨p, rfl⟩
  · exact exists_instantiate hm (hp.mono fun _ h => h.passed.checked hroot.isObject_objectType)

end Pattern

/-! ### Direct supertypes -/

theorem eraseWith_declared (lub : List Ty → Result (List Ty)) (k : Nat) (c : ClassId)
    (args : List Ty) (owner : Option Ty) (marks : List ClassId) :
    tbl.eraseWith lub (k + 1) (.declared c args owner marks) = .ok (.declared c [] none marks) := by
  rw [eraseWith]
  split_ifs with hbare
  · rw [Bool.and_eq_true, List.isEmpty_iff, Option.isNone_iff_eq_none] at hbare
    rw [hbare.1, hbare.2]
    rfl
  · rfl

theorem eraseUnionFree_succ (h : t.kind = .declared) (k : Nat) :
    tbl.eraseUnionFree (k + 1) t = .ok (eraseUse t) := by
  obtain ⟨c, args, owner, marks, rfl⟩ := Ty.exists_eq_declared h
  exact eraseWith_declared ..

theorem settles_eraseUnionFree (h : t.kind = .declared) :
    Settles (fun k => tbl.eraseUnionFree k t) (eraseUse t) :=
  (Settles.ok _).step rfl (eraseUnionFree_succ h)

section DeclaredSupertypes

theorem declaredSupertypes_of_nil (hexprs : tbl.supertypeExprs c = []) (k : Nat) :
    tbl.declaredSupertypes k c args owner =
      .ok (if (tbl.cls c).name = "java.lang.Object" then [] else [tbl.objectType]) := by
  rw [declaredSupertypes, hexprs]
  by_cases hname : (tbl.cls c).name = "java.lang.Object" <;> simp [hname, pure, Except.pure]

theorem declaredSupertypes_of_patterns (hexprs : tbl.supertypeExprs c ≠ [])
    (hps : tbl.descriptors (tbl.supertypeExprs c) = .ok ps) (k : Nat) :
    tbl.declaredSupertypes k c args owner =
      if tbl.isRaw c args then ps.mapM (tbl.eraseUnionFree k)
      else tbl.typeMapping (.declared c args owner []) >>= fun m => ps.mapM (tbl.substitute m) := by
  rw [declaredSupertypes]
  cases hes : tbl.supertypeExprs c with
  | nil => exact absurd hes hexprs
  | cons e es =>
    rw [hes] at hps
    simp only [hps]
    rfl

/-- In an orderly table every use of a class has direct supertypes. -/
theorem Orderly.exists_supers (h : tbl.Orderly) (ht : (Ty.declared c args owner []).Formed) :
    ∃ ts, Settles (fun k => tbl.declaredSupertypes k c args owner) ts ∧
      tbl.Supers c args owner ts := by
  by_cases hexprs : tbl.supertypeExprs c = []
  · simp only [declaredSupertypes_of_nil hexprs]
    split_ifs with hname
    · exact ⟨_, .ok _, .root hexprs hname⟩
    · exact ⟨_, .ok _, .top hexprs hname⟩
  · obtain ⟨ps, hps, hpattern⟩ := h.exists_patterns c
    simp only [declaredSupertypes_of_patterns hexprs hps]
    split_ifs with hraw
    · refine ⟨ps.map eraseUse, ?_, .erased hexprs hps hraw⟩
      refine Settles.mapM (forall₂_map_right_iff.mpr (forall₂_same.mpr fun p hp => ?_))
      exact settles_eraseUnionFree (hpattern p hp).1
    · obtain ⟨m, hm⟩ : ∃ m, tbl.typeMapping _ = .ok m := exists_typeMapping ht
      have hsuits (v : TypeVarId) (x : Ty) (hx : m.lookup v = some x) : x.Suits :=
        suits_assignment ht v x ((lookup_typeMapping hm v).symm.trans hx)
      obtain ⟨ts, hts⟩ := exists_mapM_eq_ok fun p hp =>
        exists_substitute hsuits h.rooted (hpattern p hp).2
      refine ⟨ts, ?_, .replaced hexprs hps ((Bool.not_eq_true _).mp hraw) hm hts⟩
      rw [hm]
      change Settles (fun _ => ps.mapM (tbl.substitute m)) ts
      rw [hts]
      exact .ok ts

/-- A supertype is a bare class, or the arguments are put into the supertype expressions. -/
theorem Orderly.bare_or_replaced (h : tbl.Orderly) (hts : tbl.Supers c args owner ts) {s : Ty}
    (hs : s ∈ ts) : (∃ d marks, s = .declared d [] none marks) ∨
      ∃ ps m, tbl.descriptors (tbl.supertypeExprs c) = .ok ps ∧ tbl.isRaw c args = false ∧
        tbl.typeMapping (.declared c args owner []) = .ok m ∧
          ps.mapM (tbl.substitute m) = .ok ts := by
  cases hts with
  | root => cases hs
  | top => exact .inl ⟨_, _, mem_singleton.mp hs⟩
  | erased _ hps =>
    obtain ⟨p, hp, rfl⟩ := mem_map.mp hs
    obtain ⟨d, _, _, marks, rfl⟩ := Ty.exists_eq_declared (h.forall_patterns hps p hp).1
    exact .inl ⟨d, marks, rfl⟩
  | replaced _ hps hraw hm hts => exact .inr ⟨_, _, hps, hraw, hm, hts⟩

/-- Supertypes are uses of classes that the constructors can build. -/
theorem Orderly.formed_of_supers (h : tbl.Orderly) (ht : (Ty.declared c args owner []).Formed)
    (hts : tbl.Supers c args owner ts) : ∀ s ∈ ts, s.Formed := by
  intro s hs
  rcases h.bare_or_replaced hts hs with ⟨d, marks, rfl⟩ | ⟨ps, m, hps, -, hm, hts⟩
  · exact Ty.formed_bare_class d marks
  · obtain ⟨p, hp, hsubstitute⟩ := exists_of_forall₂_right (mapM_eq_ok.mp hts) hs
    obtain ⟨hkind, hdenoted⟩ := h.forall_patterns hps p hp
    refine formed_of_substitute (fun v x hx => ?_) hdenoted hkind hsubstitute
    exact suits_assignment ht v x ((lookup_typeMapping hm v).symm.trans hx)

/-- Within a fragment, the arguments replace the variables of the patterns. -/
theorem Orderly.forall₂_replaces (h : tbl.Orderly) (hpatterned : tbl.Patterned S)
    (ht : tbl.Maps S (.declared c args owner []))
    (hps : tbl.descriptors (tbl.supertypeExprs c) = .ok ps) {m}
    (hm : tbl.typeMapping (.declared c args owner []) = .ok m)
    (hts : ps.mapM (tbl.substitute m) = .ok ts) : Forall₂ (Replaces m) ps ts := by
  have hadmits (v : TypeVarId) (x : Ty) (hx : m.lookup v = some x) :
      tbl.Admits { S with raw := true } x := by
    rw [lookup_typeMapping hm] at hx
    obtain ⟨harg, hx⟩ := ht.2 v x hx
    exact ⟨harg, hx.mono fun _ => Layer.mono_raw⟩
  refine forall₂_imp_mem (mapM_eq_ok.mp hts) fun p hp t _ hpt => ?_
  have hdenoted := descriptors_denoted _ hps p hp
  obtain ⟨-, hlayer, hparts⟩ := hpatterned.invokes hps p hp
  have hevery : p.Every (tbl.Layer { S with raw := true }) :=
    .intro hlayer fun x hx => (hparts x hx).mono fun _ => Layer.mono_raw
  rcases substitute_eq_ok hpt with ⟨rfl, rfl⟩ | hpt
  · exact .self hdenoted hevery (hdenoted.mono fun _ _ _ _ _ _ => rfl)
  · exact replaces_of_instantiate h.rooted hadmits hdenoted hevery hpt

theorem Obeys.forall₂_replaces (h : tbl.Obeys S) (ht : tbl.Maps S (.declared c args owner []))
    (hps : tbl.descriptors (tbl.supertypeExprs c) = .ok ps) {m}
    (hm : tbl.typeMapping (.declared c args owner []) = .ok m)
    (hts : ps.mapM (tbl.substitute m) = .ok ts) : Forall₂ (Replaces m) ps ts :=
  h.toOrderly.forall₂_replaces h.patterned ht hps hm hts

/-- Supertypes are uses of classes of the fragment again. -/
theorem Orderly.invokes_of_supers (h : tbl.Orderly) (hpatterned : tbl.Patterned S)
    (ht : tbl.Maps S (.declared c args owner [])) (hts : tbl.Supers c args owner ts) :
    ∀ s ∈ ts, tbl.Invokes S s := by
  intro s hs
  cases hts with
  | root => cases hs
  | top =>
    rw [mem_singleton.mp hs]
    exact (h.rooted.within_objectType S).invokes rfl
  | erased _ hps =>
    obtain ⟨p, hp, rfl⟩ := mem_map.mp hs
    exact invokes_eraseUse (hpatterned.invokes hps p hp)
  | replaced _ hps _ hm hts =>
    obtain ⟨p, hp, hreplaces⟩ :=
      exists_of_forall₂_right (h.forall₂_replaces hpatterned ht hps hm hts) hs
    refine (invokes_subst (fun v x hx => ?_) (hpatterned.invokes hps p hp)).of_bare_eq
      hreplaces.bare_eq.symm
    rw [lookup_typeMapping hm] at hx
    exact ht.2 v x hx

theorem Obeys.invokes_of_supers (h : tbl.Obeys S) (ht : tbl.Maps S (.declared c args owner []))
    (hts : tbl.Supers c args owner ts) : ∀ s ∈ ts, tbl.Invokes S s :=
  h.toOrderly.invokes_of_supers h.patterned ht hts

theorem not_extends_of_nil (hexprs : tbl.supertypeExprs c = []) (d : ClassId) :
    ¬tbl.Extends c d := by
  rintro ⟨ds, hds, hd⟩
  rw [rawSupertypes, hexprs] at hds
  cases hds
  cases hd

theorem uses_eraseUse {p} (hp : Ty.Uses d p) : Ty.Uses d (eraseUse p) := by
  obtain ⟨_, _, _, rfl⟩ := hp
  exact ⟨_, _, _, rfl⟩

/-- The supertypes are uses of the classes directly above in the raw hierarchy. -/
theorem Orderly.uses_of_supers (h : tbl.Orderly) (hts : tbl.Supers c args owner ts) :
    (∀ s ∈ ts, ∃ d, Ty.Uses d s ∧ tbl.Inherits c d) ∧
      ∀ d, tbl.Inherits c d → ∃ s ∈ ts, Ty.Uses d s := by
  have hclasses {ps : List Ty} (hexprs : tbl.supertypeExprs c ≠ [])
      (hps : tbl.descriptors (tbl.supertypeExprs c) = .ok ps)
      (huses : Forall₂ (fun p s => ∀ d, Ty.Uses d p → Ty.Uses d s) ps ts) :
      (∀ s ∈ ts, ∃ d, Ty.Uses d s ∧ tbl.Inherits c d) ∧
        ∀ d, tbl.Inherits c d → ∃ s ∈ ts, Ty.Uses d s := by
    obtain ⟨ds, hds, hraw⟩ := h.forall₂_rawSupertypes hps
    refine ⟨fun s hs => ?_, fun d hd => ?_⟩
    · obtain ⟨p, hp, hps⟩ := exists_of_forall₂_right huses hs
      obtain ⟨d, hd, hdp, -⟩ := exists_of_forall₂_right hraw hp
      exact ⟨d, hps d hdp, .inl ⟨ds, hds, hd⟩⟩
    · rcases hd with ⟨ds', hds', hd⟩ | ⟨hnil, -⟩
      · cases hds.symm.trans hds'
        obtain ⟨p, hp, hdp, -⟩ := exists_of_forall₂_left hraw hd
        obtain ⟨s, hs, hps⟩ := exists_of_forall₂_left huses hp
        exact ⟨s, hs, hps d hdp⟩
      · exact absurd hnil hexprs
  cases hts with
  | root hexprs hname =>
    refine ⟨forall_mem_nil _, fun d hd => ?_⟩
    rcases hd with hd | ⟨-, hne, -⟩
    · exact absurd hd (not_extends_of_nil hexprs d)
    · exact absurd (h.rooted.unique c hname) hne
  | top hexprs hname =>
    have hne : c ≠ tbl.core.object := fun heq => hname (heq ▸ h.rooted.name)
    refine ⟨fun s hs => ?_, fun d hd => ?_⟩
    · rw [mem_singleton.mp hs]
      exact ⟨tbl.core.object, ⟨_, _, _, rfl⟩, .inr ⟨hexprs, hne, rfl⟩⟩
    · rcases hd with hd | ⟨-, -, rfl⟩
      · exact absurd hd (not_extends_of_nil hexprs d)
      · exact ⟨_, mem_cons_self, _, _, _, rfl⟩
  | erased hexprs hps =>
    refine hclasses hexprs hps ?_
    rw [forall₂_map_right_iff, forall₂_same]
    exact fun p _ d => uses_eraseUse
  | replaced hexprs hps _ _ hts =>
    refine hclasses hexprs hps (forall₂_imp_mem (mapM_eq_ok.mp hts) fun p hp s _ hps' d hd => ?_)
    exact uses_of_substitute hd hps'

end DeclaredSupertypes

/-! ### The raw hierarchy -/

theorem Orderly.not_inherits_object (h : tbl.Orderly) (d : ClassId) :
    ¬tbl.Inherits tbl.core.object d := by
  rintro (hd | ⟨-, hne, -⟩)
  · exact not_extends_of_nil h.rooted.supertypeExprs d hd
  · exact hne rfl

theorem Orderly.wellFounded_inherits (h : tbl.Orderly) :
    WellFounded fun d c => tbl.Inherits c d := by
  have hobject : Acc (fun d c => tbl.Inherits c d) tbl.core.object :=
    .intro _ fun d hd => absurd hd (h.not_inherits_object d)
  refine ⟨fun c => ?_⟩
  induction c using h.acyclic.induction with
  | _ c ih =>
    refine .intro c fun d hd => ?_
    rcases hd with hd | ⟨-, -, rfl⟩
    · exact ih d hd
    · exact hobject

theorem Orderly.isPrimitive_of_inherits (h : tbl.Orderly) (hd : tbl.Inherits c d) :
    (tbl.cls d).isPrimitive = false := by
  rcases hd with ⟨ds, hds, hd⟩ | ⟨-, -, rfl⟩
  · obtain ⟨ps, hps, -⟩ := h.exists_patterns c
    obtain ⟨ds', hds', hraw⟩ := h.forall₂_rawSupertypes hps
    cases hds.symm.trans hds'
    obtain ⟨p, hp, -, hprimitive⟩ := exists_of_forall₂_left hraw hd
    exact hprimitive
  · exact h.rooted.isPrimitive

/-- Every class above a class is found, and the root class is above all. -/
theorem Orderly.isSubclassOf_of_inherits (h : tbl.Orderly)
    (hpath : Relation.TransGen tbl.Inherits c target) (hc : (tbl.cls c).isPrimitive = false) :
    tbl.isSubclassOf c target = .ok true := by
  by_cases htarget : target = tbl.core.object
  · subst htarget
    have hsuper : (tbl.cls tbl.core.object).superclass = none := by
      have := h.rooted.supertypeExprs
      rw [supertypeExprs, append_eq_nil_iff] at this
      exact Option.toList_eq_nil_iff.mp this.1
    rw [isSubclassOf, hc, h.rooted.isPrimitive, hsuper, h.rooted.isInterface]
    split_ifs <;> first | rfl | contradiction
  · have hextends : Relation.TransGen tbl.Extends c target := by
      induction hpath with
      | single hd => exact .single (hd.resolve_right fun h => htarget h.2.2)
      | tail _ hd ih =>
        have hd := hd.resolve_right fun h => htarget h.2.2
        refine .tail (ih fun heq => ?_) hd
        exact not_extends_of_nil h.rooted.supertypeExprs _ (heq ▸ hd)
    obtain ⟨b, -, hb⟩ := Relation.TransGen.tail'_iff.mp hpath
    exact isSubclassOf_of_transGen h.exists_rawSupertypes hextends hc (h.isPrimitive_of_inherits hb)

/-! ### Going up -/

/-- The direct supertypes of a use of a class, which every budget finds. -/
def DirectSupers (tbl : Table) (t : Ty) (ts : List Ty) : Prop :=
  ∃ c args owner marks, t = .declared c args owner marks ∧
    Settles (fun k => tbl.declaredSupertypes k c args owner) ts ∧ tbl.Supers c args owner ts

/-- The parameterization of a class that the way up from a type leads to, if there is one. The steps
may have any budget that is not smaller than that of the climb. -/
def Resolves (tbl : Table) (t : Ty) (target : ClassId) (r : Option Ty) : Prop :=
  ∀ φ : Nat → Nat, (∀ k, k ≤ φ k) → Settles (fun k => climb (tbl.ascend (φ k) target) k t) r

/-- A relation between uses of the same class that passes to direct supertypes. -/
structure Passes (tbl : Table) (R : Ty → Ty → Prop) : Prop where
  formed : ∀ {s t}, R s t → s.Formed ∧ t.Formed
  uses : ∀ {s t}, R s t → ∃ c, Ty.Uses c s ∧ Ty.Uses c t
  supers : ∀ {s t ss ts}, R s t → tbl.DirectSupers s ss → tbl.DirectSupers t ts →
    Forall₂ R ss ts

theorem Resolves.settles {r} (h : tbl.Resolves t target r) :
    Settles (fun k => (tbl.resolveSupertype k t target : Result (Option Ty))) r := by
  simp only [resolveSupertype_eq_climb]
  exact h id fun k => Nat.le_refl k

theorem Resolves.eq {r r'} (h : tbl.Resolves t target r) (h' : tbl.Resolves t target r') :
    r = r' :=
  (h'.settles).eq h.settles

theorem Orderly.exists_directSupers (h : tbl.Orderly) (ht : t.Formed) :
    ∃ ts, tbl.DirectSupers t ts := by
  obtain ⟨c, args, owner, marks, rfl⟩ := Ty.exists_eq_declared ht.kind
  obtain ⟨ts, hsettles, hsupers⟩ := h.exists_supers (ht.remark [])
  exact ⟨ts, c, args, owner, marks, rfl, hsettles, hsupers⟩

theorem settles_firstFound {f : Nat → Ty → Result (Option Ty)}
    (h : Forall₂ (fun t r => Settles (fun k => f k t) r) ts rs) :
    Settles (fun k => firstFound (f k) ts) (rs.findSome? id) := by
  induction h with
  | nil => exact .ok none
  | @cons t r ts rs hr _ ih =>
    cases r with
    | some x => exact hr.bind (.ok (some x))
    | none => exact hr.bind ih

theorem rel_findSome {rs'} (h : Forall₂ (Option.Rel R) rs rs') :
    Option.Rel R (rs.findSome? id) (rs'.findSome? id) := by
  induction h with
  | nil => exact .none
  | cons hr _ ih =>
    cases hr with
    | some hxy => exact .some hxy
    | none => exact ih

/-- What going up from two related types leads to: related parameterizations of the class, which are
there if the class is above. Stand-ins for primitive types are below themselves only. -/
structure Ascends (tbl : Table) (R : Ty → Ty → Prop) (target : ClassId) (s t : Ty)
    (r r' : Option Ty) : Prop where
  left : tbl.Resolves s target r
  right : tbl.Resolves t target r'
  rel : Option.Rel (fun x y => R x y ∧ Ty.Uses target x) r r'
  isSome : ∀ c, Ty.Uses c s → (tbl.cls c).isPrimitive = false →
    Relation.ReflTransGen tbl.Inherits c target → r ≠ none

private theorem exists_ascends (hall : Forall₂ R ss ts)
    (h : ∀ s ∈ ss, ∀ t, R s t → ∃ r r', tbl.Ascends R target s t r r') :
    ∃ rs rs', Forall₂ (fun s r => tbl.Resolves s target r) ss rs ∧
      Forall₂ (fun t r => tbl.Resolves t target r) ts rs' ∧
      Forall₂ (Option.Rel fun x y => R x y ∧ Ty.Uses target x) rs rs' ∧
      ∀ s ∈ ss, ∀ c, Ty.Uses c s → (tbl.cls c).isPrimitive = false →
        Relation.ReflTransGen tbl.Inherits c target → ∃ r ∈ rs, r ≠ none := by
  induction hall with
  | nil => exact ⟨[], [], .nil, .nil, .nil, forall_mem_nil _⟩
  | @cons s t ss ts hst _ ih =>
    obtain ⟨r, r', hr⟩ := h s mem_cons_self t hst
    obtain ⟨rs, rs', hrs, hrs', hrels, hsomes⟩ := ih fun x hx => h x (mem_cons_of_mem _ hx)
    refine ⟨r :: rs, r' :: rs', .cons hr.left hrs, .cons hr.right hrs', .cons hr.rel hrels,
      fun x hx c hc hprimitive hp => ?_⟩
    rcases mem_cons.mp hx with rfl | hx
    · exact ⟨r, mem_cons_self, hr.isSome c hc hprimitive hp⟩
    · obtain ⟨q, hq, hne⟩ := hsomes x hx c hc hprimitive hp
      exact ⟨q, mem_cons_of_mem _ hq, hne⟩

section Climb

theorem resolves_self : tbl.Resolves (.declared c args owner marks) c
    (some (.declared c args owner marks)) := by
  intro φ _
  refine (Settles.ok _).step rfl fun k => ?_
  rw [climb, ascend, if_pos rfl]
  rfl

/-- A class that the search does not find above a class is not looked for. -/
theorem resolves_none (hsub : tbl.isSubclassOf c target = .ok false) :
    tbl.Resolves (.declared c args owner marks) target none := by
  have hne : c ≠ target := by
    rintro rfl
    rw [isSubclassOf, if_pos rfl] at hsub
    cases hsub
  intro φ _
  refine (Settles.ok _).step rfl fun k => ?_
  rw [climb, ascend, if_neg hne, hsub]
  rfl

/-- Only to itself does the way up lead from the class of a primitive type. -/
theorem eq_or_isPrimitive_of_resolves {x} (hc : Ty.Uses c t) (hx : tbl.Resolves t target (some x)) :
    target = c ∨ (tbl.cls c).isPrimitive = false := by
  obtain ⟨args, owner, marks, rfl⟩ := hc
  by_cases hne : c = target
  · exact .inl hne.symm
  · refine .inr ((Bool.not_eq_true _).mp fun hprimitive => ?_)
    have hsub : tbl.isSubclassOf c target = .ok false := by
      rw [isSubclassOf, if_neg hne, hprimitive, Bool.true_or, if_pos rfl]
    cases hx.eq (resolves_none hsub)

/-- Going up one step. -/
theorem resolves_above (hne : c ≠ target) (hsub : tbl.isSubclassOf c target = .ok true)
    (hts : Settles (fun k => tbl.declaredSupertypes k c args owner) ts)
    (hrs : Forall₂ (fun t r => tbl.Resolves t target r) ts rs) :
    tbl.Resolves (.declared c args owner marks) target (rs.findSome? id) := by
  intro φ hφ
  have hstep (k : Nat) :
      climb (tbl.ascend (φ (k + 1)) target) (k + 1) (.declared c args owner marks) =
      tbl.declaredSupertypes (φ (k + 1)) c args owner >>= fun ts =>
        firstFound (climb (tbl.ascend (φ (k + 1)) target) k) ts := by
    rw [climb, ascend, if_neg hne, hsub]
    cases tbl.declaredSupertypes (φ (k + 1)) c args owner <;> rfl
  refine Settles.step (Settles.bind (f := fun k => tbl.declaredSupertypes (φ (k + 1)) c args owner)
    ?_ (settles_firstFound (hrs.imp fun t r hr => ?_))) rfl hstep
  · exact hts.comp fun k => Nat.le_trans (Nat.le_succ k) (hφ (k + 1))
  · exact hr (fun k => φ (k + 1)) fun k => Nat.le_trans (Nat.le_succ k) (hφ (k + 1))

end Climb

/-- Going up from related types: the way up always ends, it leads to a class that is above, and a
relation that passes to direct supertypes passes to what it leads to. The induction is on the
class. -/
theorem Orderly.exists_ascends (h : tbl.Orderly) (hR : tbl.Passes R) {s} (hst : R s t)
    (target : ClassId) : ∃ r r', tbl.Ascends R target s t r r' := by
  obtain ⟨c, hs, ht⟩ := hR.uses hst
  induction c using h.wellFounded_inherits.induction generalizing s t with
  | _ c ih =>
    obtain ⟨args, owner, marks, rfl⟩ := hs
    obtain ⟨args', owner', marks', rfl⟩ := ht
    obtain ⟨hsformed, htformed⟩ := hR.formed hst
    by_cases hne : c = target
    · subst hne
      exact ⟨_, _, resolves_self, resolves_self, .some ⟨hst, _, _, _, rfl⟩,
        fun _ _ _ _ => Option.some_ne_none _⟩
    · have hpath {d : ClassId} (hd : Ty.Uses d (.declared c args owner marks))
          (h : Relation.ReflTransGen tbl.Inherits d target) :
          d = c ∧ Relation.TransGen tbl.Inherits c target := by
        obtain ⟨_, _, _, hd⟩ := hd
        cases hd
        exact ⟨rfl, (Relation.reflTransGen_iff_eq_or_transGen.mp h).resolve_left
          fun heq => hne heq.symm⟩
      obtain ⟨b, hsub⟩ := isSubclassOf_isOk h.exists_rawSupertypes c target
      cases b with
      | false =>
        refine ⟨none, none, resolves_none hsub, resolves_none hsub, .none,
          fun d hd hprimitive hp => ?_⟩
        obtain ⟨rfl, hp⟩ := hpath hd hp
        cases hsub.symm.trans (h.isSubclassOf_of_inherits hp hprimitive)
      | true =>
        obtain ⟨ss, hss⟩ := h.exists_directSupers hsformed
        obtain ⟨ts, hts⟩ := h.exists_directSupers htformed
        have hall := hR.supers hst hss hts
        obtain ⟨_, _, _, _, hs, hssettles, hssupers⟩ := hss
        obtain ⟨_, _, _, _, ht, htsettles, -⟩ := hts
        cases hs
        cases ht
        obtain ⟨hbelow, habove⟩ := h.uses_of_supers hssupers
        have hrec (x : Ty) (hx : x ∈ ss) (y : Ty) (hxy : R x y) :
            ∃ r r', tbl.Ascends R target x y r r' := by
          obtain ⟨d, hd, hinherits⟩ := hbelow x hx
          obtain ⟨e, hx', hy⟩ := hR.uses hxy
          cases hx'.unique hd
          exact ih d hinherits hxy hd hy
        obtain ⟨rs, rs', hrs, hrs', hrel, hsome⟩ := Table.exists_ascends hall hrec
        refine ⟨_, _, resolves_above hne hsub hssettles hrs, resolves_above hne hsub htsettles hrs',
          rel_findSome hrel, fun d hd _ hp => ?_⟩
        obtain ⟨e, he, hpath⟩ := Relation.TransGen.head'_iff.mp (hpath hd hp).2
        obtain ⟨x, hx, hxe⟩ := habove e he
        obtain ⟨r, hr, hne⟩ := hsome x hx e hxe (h.isPrimitive_of_inherits he) hpath
        obtain ⟨y, rfl⟩ := Option.ne_none_iff_exists'.mp hne
        intro hnone
        cases findSome?_eq_none_iff.mp hnone _ hr

theorem DirectSupers.unique (hss : tbl.DirectSupers t ss) (hts : tbl.DirectSupers t ts) :
    ss = ts := by
  obtain ⟨_, _, _, _, rfl, hss, -⟩ := hss
  obtain ⟨_, _, _, _, h, hts, -⟩ := hts
  cases h
  exact hts.eq hss

/-- Going up from a type with a property that passes to direct supertypes. -/
theorem Orderly.exists_resolves (h : tbl.Orderly)
    (hp : ∀ {t ts}, t.Formed → p t → tbl.DirectSupers t ts → ∀ s ∈ ts, p s) (ht : t.Formed)
    (hpt : p t) (target : ClassId) :
    ∃ r, tbl.Resolves t target r ∧ (∀ x ∈ r, x.Formed ∧ p x ∧ Ty.Uses target x) ∧
      ∀ c, Ty.Uses c t → (tbl.cls c).isPrimitive = false →
        Relation.ReflTransGen tbl.Inherits c target → r ≠ none := by
  have hpasses : tbl.Passes fun s t => s = t ∧ t.Formed ∧ p t := by
    refine ⟨fun {s t} hst => ?_, fun {s t} hst => ?_, fun {s t ss ts} hst hss hts => ?_⟩
    · obtain ⟨rfl, hformed, -⟩ := hst
      exact ⟨hformed, hformed⟩
    · obtain ⟨rfl, hformed, -⟩ := hst
      obtain ⟨c, hc⟩ := Ty.exists_uses hformed.kind
      exact ⟨c, hc, hc⟩
    · obtain ⟨rfl, hformed, hps⟩ := hst
      cases hss.unique hts
      have hall := hp hformed hps hss
      obtain ⟨_, _, _, _, rfl, -, hsupers⟩ := hss
      exact forall₂_same.mpr fun x hx =>
        ⟨rfl, h.formed_of_supers (hformed.remark []) hsupers x hx, hall x hx⟩
  obtain ⟨r, r', hleft, hright, hrel, hsome⟩ := h.exists_ascends hpasses ⟨rfl, ht, hpt⟩ target
  refine ⟨r, hleft, fun x hx => ?_, hsome⟩
  cases hrel with
  | none => cases hx
  | some hxy =>
    cases hx
    obtain ⟨⟨rfl, hformed, hpx⟩, huses⟩ := hxy
    exact ⟨hformed, hpx, huses⟩

/-- In a table that obeys a shape, going up does not lead out of the fragment. -/
theorem Obeys.exists_resolves (h : tbl.Obeys S)
    (hp : ∀ {t ts}, tbl.Invokes S t → p t → tbl.DirectSupers t ts → ∀ s ∈ ts, p s)
    (ht : tbl.Invokes S t) (hpt : p t) (target : ClassId) :
    ∃ r, tbl.Resolves t target r ∧ (∀ x ∈ r, tbl.Invokes S x ∧ p x ∧ Ty.Uses target x) ∧
      ∀ c, Ty.Uses c t → (tbl.cls c).isPrimitive = false →
        Relation.ReflTransGen tbl.Inherits c target → r ≠ none := by
  have hstep {t : Ty} {ts : List Ty} (hpt : tbl.Invokes S t ∧ p t) (hts : tbl.DirectSupers t ts) :
      ∀ s ∈ ts, tbl.Invokes S s ∧ p s := by
    intro s hs
    refine ⟨?_, hp hpt.1 hpt.2 hts s hs⟩
    obtain ⟨_, _, _, _, rfl, -, hsupers⟩ := hts
    exact h.invokes_of_supers (hpt.1.maps.remark []) hsupers s hs
  obtain ⟨r, hr, hall, hsome⟩ :=
    h.toOrderly.exists_resolves (fun _ hpt hts => hstep hpt hts) ht.formed ⟨ht, hpt⟩ target
  exact ⟨r, hr, fun x hx => ⟨(hall x hx).2.1.1, (hall x hx).2.1.2, (hall x hx).2.2⟩, hsome⟩

/-- What holds of the supertypes of two uses of a class, one by one. -/
theorem Supers.forall₂ (hss : tbl.Supers c args owner ss) (hts : tbl.Supers c args' owner' ts)
    (hraw : tbl.isRaw c args = tbl.isRaw c args') (htop : R tbl.objectType tbl.objectType)
    (herased : ∀ {ps}, tbl.descriptors (tbl.supertypeExprs c) = .ok ps →
      tbl.isRaw c args = true → ∀ p ∈ ps, R (eraseUse p) (eraseUse p))
    (hreplaced : ∀ {ps m m'}, tbl.descriptors (tbl.supertypeExprs c) = .ok ps →
      tbl.isRaw c args = false → tbl.typeMapping (.declared c args owner []) = .ok m →
      tbl.typeMapping (.declared c args' owner' []) = .ok m' →
      ps.mapM (tbl.substitute m) = .ok ss → ps.mapM (tbl.substitute m') = .ok ts →
      Forall₂ R ss ts) :
    Forall₂ R ss ts := by
  cases hss with
  | root hexprs hname =>
    cases hts with
    | root => exact .nil
    | top _ hname' => exact absurd hname hname'
    | erased hexprs' => exact absurd hexprs hexprs'
    | replaced hexprs' => exact absurd hexprs hexprs'
  | top hexprs hname =>
    cases hts with
    | root _ hname' => exact absurd hname' hname
    | top => exact .cons htop .nil
    | erased hexprs' => exact absurd hexprs hexprs'
    | replaced hexprs' => exact absurd hexprs hexprs'
  | erased hexprs hps hargs =>
    cases hts with
    | root hexprs' => exact absurd hexprs' hexprs
    | top hexprs' => exact absurd hexprs' hexprs
    | erased _ hps' =>
      cases hps.symm.trans hps'
      exact forall₂_map_left_iff.mpr (forall₂_map_right_iff.mpr
        (forall₂_same.mpr (herased hps hargs)))
    | replaced _ _ hargs' => cases (hargs.symm.trans hraw).trans hargs'
  | replaced hexprs hps hargs hm hss =>
    cases hts with
    | root hexprs' => exact absurd hexprs' hexprs
    | top hexprs' => exact absurd hexprs' hexprs
    | erased _ _ hargs' => cases (hargs.symm.trans hraw).trans hargs'
    | replaced _ hps' _ hm' hts =>
      cases hps.symm.trans hps'
      exact hreplaced hps hargs hm hm' hss hts

/-- Within a fragment: what holds of the supertypes of two uses of a class, one by one. -/
theorem Obeys.forall₂_supers (h : tbl.Obeys S) (hs : tbl.Maps S (.declared c args owner []))
    (ht : tbl.Maps S (.declared c args' owner' [])) (hss : tbl.Supers c args owner ss)
    (hts : tbl.Supers c args' owner' ts) (hraw : tbl.isRaw c args = tbl.isRaw c args')
    (htop : R tbl.objectType tbl.objectType)
    (herased : ∀ {ps}, tbl.descriptors (tbl.supertypeExprs c) = .ok ps →
      tbl.isRaw c args = true → ∀ p ∈ ps, R (eraseUse p) (eraseUse p))
    (hreplaced : ∀ {ps}, tbl.descriptors (tbl.supertypeExprs c) = .ok ps →
      tbl.isRaw c args = false → ∀ p ∈ ps, ∀ {s t},
      s.bare = (p.subst (tbl.assignment (.declared c args owner []))).bare →
      t.bare = (p.subst (tbl.assignment (.declared c args' owner' []))).bare → R s t) :
    Forall₂ R ss ts := by
  refine hss.forall₂ hts hraw htop herased fun {ps m m'} hps hargs hm hm' hss hts => ?_
  have hlookup : (fun v => m.lookup v) = tbl.assignment (.declared c args owner []) :=
    funext (lookup_typeMapping hm)
  have hlookup' : (fun v => m'.lookup v) = tbl.assignment (.declared c args' owner' []) :=
    funext (lookup_typeMapping hm')
  refine forall₂_join (h.forall₂_replaces hs hps hm hss) (h.forall₂_replaces ht hps hm' hts)
    fun p hp s t hps' hpt => hreplaced hps hargs p hp ?_ ?_
  · rw [hps'.bare_eq, hlookup]
  · rw [hpt.bare_eq, hlookup']

/-! ### A criterion for orderly tables -/

/-- Whether the class of the core library is the only root class. -/
def isRooted (tbl : Table) : Bool :=
  let root := tbl.cls tbl.core.object
  root.name == "java.lang.Object" &&
    (List.range tbl.classes.size).all (fun i =>
      (tbl.cls ⟨i⟩).name != "java.lang.Object" || i == tbl.core.object.index) &&
    (tbl.supertypeExprs tbl.core.object).isEmpty && root.typeParameters.isEmpty &&
    !root.isInterface && !root.isPrimitive

/-- Whether each supertype expression names a class that was entered before. -/
def isLayered (tbl : Table) : Bool :=
  (List.range tbl.classes.size).all fun i => (tbl.supertypeExprs ⟨i⟩).all fun e =>
    match tbl.rawClass e with
    | .ok d => d.index < i
    | .error _ => false

/-- Whether each supertype expression denotes a use of a class. -/
def denotesSupertypes (tbl : Table) : Bool :=
  (List.range tbl.classes.size).all fun i => (tbl.supertypeExprs ⟨i⟩).all fun e =>
    match tbl.descriptor e with
    | .ok (.declared _ _ _ _) => true
    | _ => false

theorem rooted_of_isRooted (h : tbl.isRooted = true) : tbl.Rooted := by
  simp only [isRooted, Bool.and_eq_true, beq_iff_eq, all_eq_true, mem_range,
    Bool.or_eq_true, bne_iff_ne, List.isEmpty_iff, Bool.not_eq_true'] at h
  obtain ⟨⟨⟨⟨⟨hname, hunique⟩, hexprs⟩, hparameters⟩, hinterface⟩, hprimitive⟩ := h
  refine ⟨hname, fun c hc => ?_, hexprs, hparameters, hinterface, hprimitive⟩
  by_cases hsize : c.index < tbl.classes.size
  · have hindex := (hunique c.index hsize).resolve_left fun hne => hne hc
    exact congrArg ClassId.mk hindex
  · rw [cls_eq_default (Nat.le_of_not_lt hsize)] at hc
    exact absurd hc (by decide)

theorem lt_size_of_mem_supertypeExprs (he : e ∈ tbl.supertypeExprs c) :
    c.index < tbl.classes.size := by
  by_contra hsize
  rw [supertypeExprs, cls_eq_default (Nat.le_of_not_lt hsize)] at he
  cases he

theorem exists_of_isLayered (h : tbl.isLayered = true) (he : e ∈ tbl.supertypeExprs c) :
    ∃ d, tbl.rawClass e = .ok d ∧ d.index < c.index := by
  have hmem := mem_range.mpr (lt_size_of_mem_supertypeExprs he)
  have hcheck := all_eq_true.mp (all_eq_true.mp h c.index hmem) e he
  split at hcheck
  · exact ⟨_, ‹_›, of_decide_eq_true hcheck⟩
  · cases hcheck

theorem exists_rawSupertypes_of_isLayered (h : tbl.isLayered = true) (c : ClassId) :
    ∃ ds, tbl.rawSupertypes c = .ok ds :=
  exists_mapM_eq_ok fun _ he => (exists_of_isLayered h he).imp fun _ hd => hd.1

theorem acyclic_of_isLayered (h : tbl.isLayered = true) :
    WellFounded fun d c => tbl.Extends c d := by
  refine Subrelation.wf ?_ (measure ClassId.index).wf
  rintro d c ⟨ds, hds, hd⟩
  obtain ⟨e, he, hed⟩ := exists_of_forall₂_right (mapM_eq_ok.mp hds) hd
  obtain ⟨d', hd', hlt⟩ := exists_of_isLayered h he
  cases hd'.symm.trans hed
  exact hlt

/-- A table is orderly if it has one root class, and supertypes denote uses of classes that were
entered before. -/
theorem orderly_of_isLayered (hrooted : tbl.isRooted = true) (hlayered : tbl.isLayered = true)
    (hdenotes : tbl.denotesSupertypes = true) : tbl.Orderly where
  rooted := rooted_of_isRooted hrooted
  acyclic := acyclic_of_isLayered hlayered
  denotes c e he := by
    have hmem := mem_range.mpr (lt_size_of_mem_supertypeExprs he)
    have hcheck := all_eq_true.mp (all_eq_true.mp hdenotes c.index hmem) e he
    split at hcheck
    · exact ⟨_, ‹_›, rfl⟩
    · cases hcheck

end Table

end NominalTypes
