import NominalTypes.Declaration.Hierarchy
import NominalTypes.Ty.Descriptor
import NominalTypes.Proofs.Substitution

/-!
# Shapes of types

The laws of subtyping hold for fragments of the type language: with or without raw types, owners,
lower bounds, intersections and captured variables. A `Shape` says which of these a fragment admits,
and `Table.Layer` what it asks of the outermost layer of a type; a type is in the fragment if all
its layers are (`Ty.Every`). Wildcards stand only for arguments, and there are no unions.

Membership in a fragment does not depend on annotations and occurrences, and substituting arguments
of the fragment does not lead out of it.
-/

namespace NominalTypes

open List

variable {s t : Ty}

namespace Ty

/-- Whether the type can stand by itself. Wildcards, and executables and packages, cannot; unions
are not counted. -/
def isProper : Ty → Bool
  | wildcard _ _ _ _ => false
  | union _ _ => false
  | executable _ _ _ _ _ _ => false
  | package _ => false
  | _ => true

/-- Whether the type can bound a wildcard; unions are not counted. -/
def isBound (t : Ty) : Bool :=
  t.isProper && !t.isPrimitive

section Kinds

theorem isProper_of_kind_eq (h : s.kind = t.kind) : s.isProper = t.isProper := by
  cases s <;> cases t <;> first | rfl | cases h

theorem isPrimitive_of_kind_eq (h : s.kind = t.kind) : s.isPrimitive = t.isPrimitive := by
  cases s <;> cases t <;> first | rfl | cases h

theorem isArgument_of_kind_eq (h : s.kind = t.kind) : s.isArgument = t.isArgument := by
  cases s <;> cases t <;> first | rfl | cases h

theorem isPseudo_of_kind_eq (h : s.kind = t.kind) : s.isPseudo = t.isPseudo := by
  cases s <;> cases t <;> first | rfl | cases h

theorem isWildcard_of_kind_eq (h : s.kind = t.kind) : s.isWildcard = t.isWildcard := by
  cases s <;> cases t <;> first | rfl | cases h

theorem isBound_of_kind_eq (h : s.kind = t.kind) : s.isBound = t.isBound := by
  rw [isBound, isBound, isProper_of_kind_eq h, isPrimitive_of_kind_eq h]

theorem isBound_iff : t.isBound = true ↔ t.isProper = true ∧ t.isPrimitive = false := by
  rw [isBound, Bool.and_eq_true, Bool.not_eq_true']

theorem isBound_of_isReference (h : t.isReference = true) : t.isBound = true := by
  cases t <;> first | rfl | cases h

theorem isWildcard_of_isProper (h : t.isProper = true) : t.isWildcard = false := by
  cases t <;> first | rfl | cases h

theorem kind_eq_of_bare_eq (h : s.bare = t.bare) : s.kind = t.kind := by
  rw [← kind_bare, h, kind_bare]

end Kinds

end Ty

theorem Table.isBadBound_of_kind_eq (h : s.kind = t.kind) :
    isBadBound s = isBadBound t := by
  rw [isBadBound, isBadBound, Ty.isWildcard_of_kind_eq h, Ty.isPseudo_of_kind_eq h,
    Ty.isPrimitive_of_kind_eq h]

/-- What the types of a fragment may contain. -/
structure Shape where
  /-- Uses of generic classes without arguments. -/
  raw : Bool
  /-- Owners of uses of inner classes. -/
  owners : Bool
  /-- Wildcards with a lower bound. -/
  supers : Bool
  /-- Intersections. -/
  intersections : Bool
  /-- Captured variables. -/
  captures : Bool
  /-- Captured variables with a lower bound. -/
  capturedSupers : Bool

namespace Table

variable (tbl : Table)

/-- There is one root class. It is the one of the core library, and has nothing above it and no type
parameters. -/
structure Rooted : Prop where
  name : (tbl.cls tbl.core.object).name = "java.lang.Object"
  unique : ∀ c, (tbl.cls c).name = "java.lang.Object" → c = tbl.core.object
  supertypeExprs : tbl.supertypeExprs tbl.core.object = []
  typeParameters : (tbl.cls tbl.core.object).typeParameters = []
  isInterface : (tbl.cls tbl.core.object).isInterface = false
  isPrimitive : (tbl.cls tbl.core.object).isPrimitive = false

/-- The outermost layer of the type is as the shape admits. The root class has no owner. -/
def Layer (S : Shape) : Ty → Prop
  | .array component _ => component.isProper = true
  | .declared c args owner _ =>
    (args.length = (tbl.cls c).typeParameters.length ∨ args = [] ∧ S.raw = true) ∧
      (∀ a ∈ args, a.isArgument = true) ∧
      ∀ o ∈ owner, S.owners = true ∧ c ≠ tbl.core.object ∧ o.kind = .declared
  | .wildcard _ upper lower _ =>
    upper.isBound = true ∧ lower.isBound = true ∧ (S.supers = true ∨ lower = .null)
  | .captured _ _ upper lower _ =>
    S.captures = true ∧ upper.isBound = true ∧ lower.isBound = true ∧
      (S.capturedSupers = true ∨ lower = .null)
  | .intersection _ bounds =>
    S.intersections = true ∧ bounds ≠ [] ∧ ∀ b ∈ bounds, b.isProper = true
  | .union _ _ | .executable _ _ _ _ _ _ | .package _ => False
  | _ => True

/-- The type is a proper type of the fragment. -/
def Within (S : Shape) (t : Ty) : Prop :=
  t.isProper = true ∧ t.Every (tbl.Layer S)

/-- The type is a type argument of the fragment. -/
def Admits (S : Shape) (a : Ty) : Prop :=
  a.isArgument = true ∧ a.Every (tbl.Layer S)

variable {tbl}

/-! ### Layers and bare forms -/

theorem layer_bare (S : Shape) (t : Ty) : tbl.Layer S t.bare ↔ tbl.Layer S t := by
  have hproper (x : Ty) : x.bare.isProper = x.isProper := Ty.isProper_of_kind_eq x.kind_bare
  have hbound (x : Ty) : x.bare.isBound = x.isBound := Ty.isBound_of_kind_eq x.kind_bare
  cases t with
  | array component marks => simp only [Ty.bare, Layer, hproper]
  | declared c args owner marks => simp [Ty.bare_declared, Layer]
  | wildcard n upper lower marks => simp only [Ty.bare, Layer, hbound, Ty.bare_eq_null]
  | captured token site upper lower marks => simp only [Ty.bare, Layer, hbound, Ty.bare_eq_null]
  | intersection n bounds => simp [Ty.bare_intersection, Layer, hproper]
  | _ => rfl

theorem Layer.of_bare_eq {S} (h : s.bare = t.bare) (hs : tbl.Layer S s) : tbl.Layer S t :=
  Ty.of_bare_eq (layer_bare S) h hs

theorem Within.of_bare_eq {S} (h : s.bare = t.bare) (hs : tbl.Within S s) :
    tbl.Within S t :=
  ⟨(Ty.isProper_of_kind_eq (Ty.kind_eq_of_bare_eq h)).symm.trans hs.1,
    hs.2.of_bare_eq (fun _ _ => Layer.of_bare_eq) h⟩

theorem Admits.of_bare_eq {S} (h : s.bare = t.bare) (hs : tbl.Admits S s) :
    tbl.Admits S t := by
  refine ⟨?_, hs.2.of_bare_eq (fun _ _ => Layer.of_bare_eq) h⟩
  rw [← Ty.isArgument_bare, ← h, Ty.isArgument_bare]
  exact hs.1

/-- A use of the root class has neither arguments nor an owner. -/
theorem Rooted.bare_eq (hroot : tbl.Rooted) {S} (ht : tbl.Layer S t)
    (hobject : tbl.isObject t = true) : t.bare = tbl.objectType.bare := by
  cases t with
  | declared c args owner marks =>
    have hc : c = tbl.core.object := hroot.unique c (by simpa [isObject] using hobject)
    subst hc
    obtain ⟨hcount, -, howned⟩ := ht
    have hargs : args = [] := by
      rcases hcount with hcount | ⟨hargs, -⟩
      · rwa [hroot.typeParameters, length_nil, length_eq_zero_iff] at hcount
      · exact hargs
    have howner : owner = none := by
      cases owner with
      | none => rfl
      | some o => exact absurd rfl (howned o rfl).2.1
    rw [hargs, howner]
    rfl
  | _ => cases hobject

theorem Rooted.isObject_objectType (hroot : tbl.Rooted) : tbl.isObject tbl.objectType = true := by
  simpa [isObject, objectType] using hroot.name

theorem Rooted.within_objectType (hroot : tbl.Rooted) (S : Shape) :
    tbl.Within S tbl.objectType := by
  refine ⟨rfl, .leaf ⟨.inl ?_, forall_mem_nil _, fun o ho => ?_⟩ rfl⟩
  · rw [hroot.typeParameters]
    rfl
  · cases ho

/-! ### Substitution within a fragment -/

section Subst

variable {S : Shape} {σ : TypeVarId → Option Ty}

theorem Admits.isBound_orUpper (h : tbl.Admits S t) : t.orUpper.isBound = true := by
  cases t with
  | wildcard n upper lower marks => exact h.2.top.1
  | array | declared | captured | null | var => rfl
  | _ => cases h.1

theorem Admits.isBound_orLower (h : tbl.Admits S t) : t.orLower.isBound = true := by
  cases t with
  | wildcard n upper lower marks => exact h.2.top.2.1
  | array | declared | captured | null | var => rfl
  | _ => cases h.1

theorem Admits.orUpper (h : tbl.Admits S t) : tbl.Within S t.orUpper :=
  ⟨(Ty.isBound_iff.mp h.isBound_orUpper).1, h.2.orUpper⟩

theorem Admits.orLower (h : tbl.Admits S t) : tbl.Within S t.orLower :=
  ⟨(Ty.isBound_iff.mp h.isBound_orLower).1, h.2.orLower⟩

section Admits

variable (hσ : ∀ v x, σ v = some x → tbl.Admits S x)

include hσ

theorem isArgument_subst (ht : t.isArgument = true) :
    (t.subst σ).isArgument = true := by
  cases t with
  | var n v marks =>
    rw [Ty.subst]
    cases hv : σ v with
    | none => rfl
    | some x => exact (hσ v x hv).1
  | array | declared | captured | null | wildcard => rfl
  | _ => cases ht

/-- What becomes of a bound is one again, or a wildcard that can give way to one. -/
theorem isBound_subst (ht : t.isBound = true) :
    (t.subst σ).orUpper.isBound = true ∧ (t.subst σ).orLower.isBound = true := by
  cases t with
  | var n v marks =>
    rw [Ty.subst]
    cases hv : σ v with
    | none => exact ⟨rfl, rfl⟩
    | some x => exact ⟨(hσ v x hv).isBound_orUpper, (hσ v x hv).isBound_orLower⟩
  | array | declared | captured | null | intersection | none | void => exact ⟨rfl, rfl⟩
  | _ => cases ht

theorem isProper_subst (ht : t.isProper = true) :
    (t.subst σ).orUpper.isProper = true := by
  by_cases hprimitive : t.isPrimitive = true
  · obtain ⟨p, _, rfl⟩ := Ty.exists_eq_primitive hprimitive
    rfl
  · have hbound := Ty.isBound_iff.mpr ⟨ht, (Bool.not_eq_true _).mp hprimitive⟩
    exact (Ty.isBound_iff.mp (isBound_subst hσ hbound).1).1

/-- The arguments of a use of a class remain arguments, and its owner remains a use of a class. -/
theorem layer_subst_declared {S' c args owner marks}
    (h : tbl.Layer S' (.declared c args owner marks)) :
    tbl.Layer S' ((Ty.declared c args owner marks).subst σ) := by
  obtain ⟨hcount, hargs, howned⟩ := h
  simp only [Ty.subst, Ty.substAll_eq_map, Ty.substOwner_eq_map]
  refine ⟨?_, fun a ha => ?_, fun o ho => ?_⟩
  · rw [length_map, map_eq_nil_iff]
    exact hcount
  · obtain ⟨b, hb, rfl⟩ := mem_map.mp ha
    exact isArgument_subst hσ (hargs b hb)
  · obtain ⟨p, rfl, rfl⟩ := Option.map_eq_some_iff.mp ho
    obtain ⟨howners, hroot, hkind⟩ := howned p rfl
    obtain ⟨_, _, _, _, rfl⟩ := Ty.exists_eq_declared hkind
    exact ⟨howners, hroot, rfl⟩

/-- Substitution of arguments of the fragment does not lead out of the fragment. -/
theorem every_layer_subst
    (ht : t.Every (tbl.Layer S)) : (t.subst σ).Every (tbl.Layer S) := by
  induction ht with
  | @intro t top parts ih =>
    have hlayer (hlayered : t.isLayered = true) (htop : tbl.Layer S (t.subst σ)) :
        (t.subst σ).Every (tbl.Layer S) := by
      rw [Ty.subst_of_isLayered hlayered] at htop ⊢
      exact .rebuild htop ih parts
    cases t with
    | var n v marks =>
      rw [Ty.subst]
      cases hv : σ v with
      | none => exact .leaf trivial rfl
      | some x => exact (hσ v x hv).2
    | array component marks => exact hlayer rfl (isProper_subst hσ top)
    | declared c args owner marks => exact hlayer rfl (layer_subst_declared hσ top)
    | wildcard n upper lower marks =>
      obtain ⟨hu, hl, hsuper⟩ := top
      refine hlayer rfl ⟨(isBound_subst hσ hu).1, (isBound_subst hσ hl).2, ?_⟩
      refine hsuper.imp_right fun hnull => ?_
      subst hnull
      rfl
    | intersection n bounds =>
      refine hlayer rfl ?_
      simp only [Ty.subst, Ty.substAll_eq_map, map_map]
      refine ⟨top.1, ?_, fun b hb => ?_⟩
      · rw [Ne, map_eq_nil_iff]
        exact top.2.1
      · obtain ⟨x, hx, rfl⟩ := mem_map.mp hb
        exact isProper_subst hσ (top.2.2 x hx)
    | primitive | none | void | null | captured => exact .intro top parts
    | union | executable | package => cases top

end Admits

/-- Where no variable is replaced, nothing changes. -/
theorem subst_eq_self (ht : t.Every (tbl.Layer S)) (hvars : t.Every (Ty.Over fun v => σ v = none)) :
    t.subst σ = t := by
  induction ht with
  | @intro t top parts ih =>
    have hlayer (hlayered : t.isLayered = true) (hstems : ∀ x ∈ t.stems, x.isProper = true) :
        t.subst σ = t := by
      rw [Ty.subst_of_isLayered hlayered]
      exact Ty.rebuild_eq_self (fun x hx => ih x hx (hvars.part hx)) fun x hx =>
        Ty.isWildcard_of_isProper (hstems x hx)
    cases t with
    | var n v marks =>
      have hv : σ v = none := hvars.top n v marks rfl
      rw [Ty.subst, hv]
      rfl
    | array component marks => exact hlayer rfl (forall_mem_singleton.mpr top)
    | declared c args owner marks => exact hlayer rfl (forall_mem_nil _)
    | wildcard n upper lower marks =>
      refine hlayer rfl (forall_mem_cons.mpr ⟨(Ty.isBound_iff.mp top.1).1, ?_⟩)
      exact forall_mem_singleton.mpr (Ty.isBound_iff.mp top.2.1).1
    | intersection n bounds => exact hlayer rfl top.2.2
    | primitive | none | void | null | captured => rfl
    | union | executable | package => cases top

end Subst

end Table

end NominalTypes
