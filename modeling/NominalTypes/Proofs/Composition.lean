import NominalTypes.Proofs.Subtyping

/-!
# Composition of substitutions

Substituting twice is substituting once, with a mapping in which the second substitution has been
carried out (`Table.composition`). This holds for all types, also for unions and for the types of
executables, and no check fails on the way.

`Ty.replace` is substitution without checks and sharing on all types; `Ty.subst` agrees with it on
types without unions and executables. The composition law is an equation for it, and
`Table.exists_instantiate_replace` says that the program gives the type that it describes, up to
annotations and numbers. Three things have to be known for this. The types passed the checks of the
functions that build them. The number of an occurrence belongs to one type, so that sharing an
occurrence changes nothing. And the root class stands in its plain form: a wildcard bounded by it is
normalized, and what was written for the bound is lost.
-/

namespace NominalTypes

open List

variable {marks : List ClassId}

namespace Ty

mutual

/-- The type with variables replaced, in all its parts but the type parameters of executables and
the bounds of captured variables. A wildcard that lands where no wildcard can stand gives way to its
bound. -/
def replace (σ : TypeVarId → Option Ty) : Ty → Ty
  | var n v marks => (σ v).getD (var n v marks)
  | declared c args owner marks => declared c (replaceAll σ args) (replaceOwner σ owner) marks
  | array component marks => array (replace σ component).orUpper marks
  | wildcard n upper lower marks =>
    wildcard n (replace σ upper).orUpper (replace σ lower).orLower marks
  | intersection n bounds => intersection n ((replaceAll σ bounds).map orUpper)
  | union n alternatives => union n (replaceAll σ alternatives)
  | executable e vars result parameters receiver thrown =>
    executable e vars (replace σ result) (replaceAll σ parameters) (replace σ receiver)
      (replaceAll σ thrown)
  | t => t

/-- The types with variables replaced. -/
def replaceAll (σ : TypeVarId → Option Ty) : List Ty → List Ty
  | [] => []
  | t :: ts => replace σ t :: replaceAll σ ts

/-- The owner with variables replaced. -/
def replaceOwner (σ : TypeVarId → Option Ty) : Option Ty → Option Ty
  | .none => .none
  | some t => some (replace σ t)

end

@[simp]
theorem replaceAll_eq_map (σ : TypeVarId → Option Ty) (ts : List Ty) :
    replaceAll σ ts = ts.map (replace σ) := by
  induction ts with
  | nil => rfl
  | cons t ts ih => rw [replaceAll, ih, map_cons]

@[simp]
theorem replaceOwner_eq_map (σ : TypeVarId → Option Ty) (o : Option Ty) :
    replaceOwner σ o = o.map (replace σ) := by
  cases o <;> rfl

variable {σ τ : TypeVarId → Option Ty} {s t : Ty}

theorem kind_replace (σ : TypeVarId → Option Ty) (t : Ty) :
    (t.replace σ).kind = t.kind ∨ ∃ n v marks, t = var n v marks ∧ σ v = some (t.replace σ) := by
  cases t with
  | var n v marks =>
    cases hv : σ v with
    | none => exact .inl (by rw [replace, hv]; rfl)
    | some x => exact .inr ⟨n, v, marks, rfl, by rw [replace, hv]; rfl⟩
  | _ => exact .inl rfl

theorem replace_eq_rebuild (h : t.isVariable = false) : t.replace σ = t.rebuild (replace σ) := by
  cases t with
  | var => cases h
  | declared c args owner marks => rw [replace, rebuild, replaceAll_eq_map, replaceOwner_eq_map]
  | intersection n bounds => rw [replace, rebuild, replaceAll_eq_map, map_map]; rfl
  | union n alternatives => rw [replace, rebuild, replaceAll_eq_map]
  | executable e vars result parameters receiver thrown =>
    rw [replace, rebuild, replaceAll_eq_map, replaceAll_eq_map]
  | _ => rfl

theorem bare_replace (σ : TypeVarId → Option Ty) (t : Ty) :
    (t.replace σ).bare = t.bare.replace fun v => some (image σ v).bare := by
  induction t using children_induction with
  | step t ih =>
    cases hvariable : t.isVariable with
    | false =>
      rw [replace_eq_rebuild hvariable, replace_eq_rebuild (t.isVariable_bare.trans hvariable)]
      exact bare_rebuild fun x hx => ih x (t.visitedParts_subset x hx)
    | true =>
      cases t with
      | var n v marks =>
        rw [replace, bare, replace, image, subst]
        cases σ v <;> rfl
      | _ => cases hvariable

theorem bare_replace_congr (hst : s.bare = t.bare)
    (hσ : ∀ v, (image σ v).bare = (image τ v).bare) : (s.replace σ).bare = (t.replace τ).bare := by
  rw [bare_replace, bare_replace, hst]
  exact congrArg (fun f => t.bare.replace f) (funext fun v => congrArg some (hσ v))

theorem replace_congr (h : t.Every (Over fun v => σ v = τ v)) : t.replace σ = t.replace τ := by
  induction h with
  | @intro t top parts ih =>
    cases hvariable : t.isVariable with
    | false =>
      rw [replace_eq_rebuild hvariable, replace_eq_rebuild hvariable]
      exact rebuild_congr ih
    | true =>
      cases t with
      | var n v marks => rw [replace, replace, top n v marks rfl]
      | _ => cases hvariable

/-- Up to bare forms, what matters are the bare forms of what becomes of the variables that
occur. -/
theorem bare_replace_congr_of_over
    (h : t.Every (Over fun v => (image σ v).bare = (image τ v).bare)) :
    (t.replace σ).bare = (t.replace τ).bare := by
  rw [bare_replace, bare_replace]
  have hbare : t.bare.Every (Over fun v => (image σ v).bare = (image τ v).bare) := by
    refine h.of_bare_eq (fun s t hst hs n v marks ht => ?_) (bare_bare t).symm
    subst ht
    obtain ⟨n', marks', rfl⟩ := eq_var_of_bare_eq hst
    exact hs n' v marks' rfl
  exact replace_congr (hbare.mono fun x hx n v marks hv => congrArg some (hx n v marks hv))

theorem orUpper_replace_orUpper (σ : TypeVarId → Option Ty) (t : Ty) :
    (t.orUpper.replace σ).orUpper = (t.replace σ).orUpper := by
  cases t with
  | wildcard n upper lower marks => rfl
  | _ => rfl

theorem orLower_replace_orLower (σ : TypeVarId → Option Ty) (t : Ty) :
    (t.orLower.replace σ).orLower = (t.replace σ).orLower := by
  cases t with
  | wildcard n upper lower marks => rfl
  | _ => rfl

/-- Replacing variables twice is replacing them once. -/
theorem replace_replace (σ τ : TypeVarId → Option Ty) (t : Ty) :
    (t.replace τ).replace σ = t.replace fun v => ((τ v).map (replace σ)).or (σ v) := by
  induction t using children_induction with
  | step t ih =>
    cases hvariable : t.isVariable with
    | false =>
      rw [replace_eq_rebuild hvariable, replace_eq_rebuild hvariable,
        replace_eq_rebuild ((isVariable_rebuild _ t).trans hvariable),
        rebuild_rebuild (orUpper_replace_orUpper σ) (orLower_replace_orLower σ)]
      exact rebuild_congr ih
    | true =>
      cases t with
      | var n v marks =>
        simp only [replace]
        cases hv : τ v with
        | none => rw [Option.getD_none, replace, Option.map_none, Option.none_or]
        | some x => rfl
      | _ => cases hvariable

/-- Replacing variables twice has the effect of a replacement that leads, for each variable that
occurs, to the same type. -/
theorem bare_replace_of_image {τ'}
    (h : t.Every (Over fun v => (image τ' v).bare = ((image τ v).replace σ).bare)) :
    (t.replace τ').bare = ((t.replace τ).replace σ).bare := by
  rw [replace_replace]
  refine bare_replace_congr_of_over (h.mono fun x hx n v marks hv => (hx n v marks hv).trans ?_)
  rw [image, image, subst, subst]
  cases τ v <;> rfl

end Ty

namespace Table

variable (tbl : Table) (occurrences : Nat → TypeKind → Ty)

/-- A type as the program builds it: it has passed the checks, in all its parts, the numbers of
occurrences belong to one type each, and where the root class is used, it is without arguments and
owner. -/
def Genuine (t : Ty) : Prop :=
  t.Every fun x => tbl.Checked x ∧ x.Recorded occurrences ∧
    (tbl.isObject x = true → x.bare = tbl.objectType)

/-- A type as the program builds it that can be a type argument. -/
def GenuineArgument (t : Ty) : Prop :=
  t.isArgument = true ∧ tbl.Genuine occurrences t

variable {tbl occurrences} {m : Mapping} {s t : Ty}

theorem genuine_null : tbl.Genuine occurrences .null :=
  .leaf ⟨trivial, fun h => absurd rfl h, nofun⟩ rfl

theorem genuine_objectType : tbl.Genuine occurrences tbl.objectType :=
  .leaf ⟨⟨.inl rfl, forall_mem_nil _⟩, fun h => absurd rfl h, fun _ => rfl⟩ rfl

theorem GenuineArgument.suits (h : tbl.GenuineArgument occurrences t) : t.Suits := by
  obtain ⟨hargument, hgenuine⟩ := h
  cases t with
  | wildcard n upper lower marks =>
    exact ⟨rfl, hgenuine.top.1.1, hgenuine.top.1.2.1⟩
  | array | declared | captured | null | var => exact ⟨rfl, rfl, rfl⟩
  | _ => cases hargument

/-! ### What stays as it is -/

section Settle

variable {settle : Ty → Ty} (hsettle : settle ∈ [id, Ty.orUpper, Ty.orLower])
include hsettle

private theorem bare_settle (h : s.bare = t.bare) : (settle s).bare = (settle t).bare := by
  simp only [mem_cons, not_mem_nil, or_false] at hsettle
  rcases hsettle with rfl | rfl | rfl
  · exact h
  · rw [Ty.bare_orUpper, Ty.bare_orUpper, h]
  · rw [Ty.bare_orLower, Ty.bare_orLower, h]

private theorem settle_eq_self (h : t.isWildcard = false) : settle t = t := by
  simp only [mem_cons, not_mem_nil, or_false] at hsettle
  rcases hsettle with rfl | rfl | rfl
  · rfl
  · exact Ty.orUpper_eq_self h
  · exact Ty.orLower_eq_self h

private theorem genuine_settle (h : tbl.Genuine occurrences t) :
    tbl.Genuine occurrences (settle t) := by
  simp only [mem_cons, not_mem_nil, or_false] at hsettle
  rcases hsettle with rfl | rfl | rfl
  · exact h
  · exact h.orUpper
  · exact h.orLower

/-- Where substitution shares a type, replacing variables does not change it. -/
theorem bare_replace_of_not_isAffected
    (hm : ∀ v x, m.lookup v = some x → tbl.Genuine occurrences x)
    (ht : tbl.Genuine occurrences t) (h : t.isAffected m settle = false) :
    (settle (t.replace (m.lookup ·))).bare = (settle t).bare := by
  induction ht generalizing settle with
  | @intro t top parts ih =>
    -- A list of types in which wildcards give way to `f` of them.
    have hlist {f : Ty → Ty} (hf : f ∈ [id, Ty.orUpper, Ty.orLower]) (ts : List Ty)
        (hts : ∀ x ∈ ts, x ∈ t.children) (h : Ty.anyAffected m f ts = false) :
        ((ts.map (Ty.replace (m.lookup ·))).map f).map Ty.bare = (ts.map f).map Ty.bare := by
      rw [anyAffected_eq_any, any_eq_false] at h
      simp only [map_map]
      exact map_congr_left fun x hx => ih x (hts x hx) hf (by simpa using h x hx)
    have hid : id ∈ [id, Ty.orUpper, Ty.orLower] := by simp
    have hupper : Ty.orUpper ∈ [id, Ty.orUpper, Ty.orLower] := by simp
    have hlower : Ty.orLower ∈ [id, Ty.orUpper, Ty.orLower] := by simp
    cases t with
    | var n v marks =>
      rw [Ty.isAffected] at h
      rw [Ty.replace]
      cases hv : m.lookup v with
      | none => rfl
      | some x =>
        rw [hv, Option.any_some, Bool.not_eq_false'] at h
        rw [settle_eq_self hsettle (t := .var n v marks) rfl, Option.getD_some]
        exact Ty.bare_eq_of_recorded (genuine_settle hsettle (hm v x hv)).top.2.1 top.2.1 h
    | array component marks =>
      refine bare_settle hsettle ?_
      have hcomponent := ih component mem_cons_self hupper h
      rw [Ty.orUpper_eq_self top.1.2] at hcomponent
      exact congrArg (Ty.array · []) hcomponent
    | declared c args owner marks =>
      rw [Ty.isAffected, Bool.or_eq_false_iff] at h
      refine bare_settle hsettle ?_
      have hargs := hlist hid args (fun x hx => mem_append_left _ hx) h.1
      rw [map_id, map_id] at hargs
      have howner : (owner.map (Ty.replace (m.lookup ·))).map Ty.bare = owner.map Ty.bare := by
        cases owner with
        | none => rfl
        | some o =>
          exact congrArg some (ih o (mem_append_right _ mem_cons_self) hid h.2)
      rw [Ty.replace, Ty.bare_declared, Ty.bare_declared, Ty.replaceAll_eq_map,
        Ty.replaceOwner_eq_map, hargs, howner]
    | wildcard n upper lower marks =>
      rw [Ty.isAffected, Bool.or_eq_false_iff] at h
      refine bare_settle hsettle ?_
      obtain ⟨hbadu, hbadl, -⟩ := top.1
      rw [isBadBound, Bool.or_eq_false_iff, Bool.or_eq_false_iff] at hbadu hbadl
      have hu := ih upper mem_cons_self hupper h.1
      have hl := ih lower (mem_cons_of_mem _ mem_cons_self) hlower h.2
      rw [Ty.orUpper_eq_self hbadu.1.1] at hu
      rw [Ty.orLower_eq_self hbadl.1.1] at hl
      exact congrArg₂ (Ty.wildcard 0 · · []) hu hl
    | intersection n bounds =>
      rw [Ty.isAffected, Bool.or_eq_false_iff, any_eq_false] at h
      refine bare_settle hsettle ?_
      have hbounds := hlist hupper bounds (fun x hx => hx) h.2
      have hself : bounds.map Ty.orUpper = bounds :=
        (map_congr_left fun x hx => Ty.orUpper_eq_self (by simpa using h.1 x hx)).trans
          (map_id bounds)
      rw [hself] at hbounds
      rw [Ty.replace, Ty.bare_intersection, Ty.bare_intersection, Ty.replaceAll_eq_map, hbounds]
    | union n alternatives =>
      refine bare_settle hsettle ?_
      have halternatives := hlist hid alternatives (fun x hx => hx) h
      rw [map_id, map_id] at halternatives
      rw [Ty.replace, Ty.bare_union, Ty.bare_union, Ty.replaceAll_eq_map, halternatives]
    | executable => cases h
    | _ => rfl

end Settle

/-! ### What the program makes of a type -/

section Replace

variable {σ : TypeVarId → Option Ty}

theorem isArgument_replace (hσ : ∀ v x, σ v = some x → x.isArgument = true)
    (ht : t.isArgument = true) : (t.replace σ).isArgument = true := by
  rcases Ty.kind_replace σ t with hkind | ⟨n, v, marks, -, hv⟩
  · rw [Ty.isArgument_of_kind_eq hkind, ht]
  · exact hσ v _ hv

/-- The second type is as the program builds types, and differs in annotations and numbers at most
from the first with variables replaced. -/
def Realizes (tbl : Table) (occurrences : Nat → TypeKind → Ty) (σ : TypeVarId → Option Ty)
    (t t' : Ty) : Prop :=
  t'.bare = (t.replace σ).bare ∧ tbl.Genuine occurrences t'

end Replace

section Instantiate

variable (hcore : tbl.isObject tbl.objectType = true)
  (hm : ∀ v x, m.lookup v = some x → tbl.GenuineArgument occurrences x)
include hcore hm

/-- What the program makes of a type is what replacing variables describes, and again as the program
builds types. -/
theorem realizes_of_instantiate {t'} (ht : tbl.Genuine occurrences t)
    (h : tbl.instantiate m t = .ok t') : tbl.Realizes occurrences (m.lookup ·) t t' := by
  induction ht generalizing t' with
  | @intro t top parts ih =>
    rcases remakes_of_instantiate h with ⟨haffected, rfl⟩ | ⟨n, v, marks, rfl, hx⟩ | hremakes
    · exact ⟨(bare_replace_of_not_isAffected (by simp) (fun v x hv => (hm v x hv).2)
        (.intro top parts) haffected).symm, .intro top parts⟩
    · exact ⟨by rw [Ty.replace, hx]; rfl, (hm v t' hx).2⟩
    have hreal (x : Ty) (hx : x ∈ t.visitedParts) :
        tbl.Realizes occurrences (m.lookup ·) x (tbl.outcome m x) :=
      ih x (t.visitedParts_subset x hx) (hremakes.parts x hx)
    have hbare : t'.bare = (t.replace (m.lookup ·)).bare := by
      rw [Ty.bare_replace, Ty.replace_eq_rebuild (t.isVariable_bare.trans hremakes.isVariable)]
      exact hremakes.bare_eq (fun x hx => (hreal x hx).1.trans (Ty.bare_replace _ x))
        fun x hx => (hreal x hx).2.orUpper.top.2.2
    -- The root class has no parts in which something could be replaced.
    have hroot (hobject : tbl.isObject t' = true) : t'.bare = tbl.objectType :=
      hbare.trans (Ty.bare_replace_congr (t := tbl.objectType)
        (top.2.2 (hremakes.isObject_eq ▸ hobject)) fun _ => rfl)
    exact ⟨hbare, hremakes.every genuine_objectType
      ⟨hremakes.passed.checked hcore, fun hne => absurd hremakes.fresh.1 hne, hroot⟩
      (fun x hx => (hreal x hx).2) fun x hx => parts x (t.keptParts_subset x hx)⟩

/-- Substitution succeeds with the type that replacing variables describes, and the result is again
as the program builds types. -/
theorem exists_instantiate_replace (ht : tbl.Genuine occurrences t) :
    ∃ t', tbl.instantiate m t = .ok t' ∧ tbl.Realizes occurrences (m.lookup ·) t t' := by
  obtain ⟨t', h⟩ := exists_instantiate (fun v x hv => (hm v x hv).suits) (ht.mono fun _ hx => hx.1)
  exact ⟨t', h, realizes_of_instantiate hcore hm ht h⟩

end Instantiate

theorem substitute_of_ne_nil (hne : m ≠ []) (t : Ty) :
    tbl.substitute m t = tbl.instantiate m t := by
  rw [substitute, isEmpty_eq_false_iff.mpr hne, if_neg Bool.false_ne_true]

/-! ### Two mappings as one -/

section Composition

variable {m₁ m₂ : Mapping}

/-- The mapping that stands for a substitution by one mapping and then by another. What the first
gives to its type parameters is substituted into; the second gives types to the others. -/
def composition (tbl : Table) (m₁ m₂ : Mapping) : Result Mapping := do
  let own ← m₁.mapM fun e => return (e.1, ← tbl.substitute m₂ e.2)
  return own ++ m₂

theorem mem_of_lookup {v x} (h : m.lookup v = some x) : (v, x) ∈ m := by
  obtain ⟨l₁, l₂, rfl, -⟩ := lookup_eq_some_iff.mp h
  simp

/-- What the mapping that stands for two mappings gives to a type parameter. -/
theorem lookup_composition (h : tbl.composition m₁ m₂ = .ok m) (v : TypeVarId) :
    (m₁.lookup v).elim (m.lookup v = m₂.lookup v) fun x =>
      ∃ y, tbl.substitute m₂ x = .ok y ∧ m.lookup v = some y := by
  obtain ⟨own, hown, hm⟩ := bind_eq_ok.mp h
  cases hm
  have hentries := mapM_eq_ok.mp hown
  clear h hown
  induction hentries with
  | nil => rfl
  | @cons e e' es es' he hes ih =>
    obtain ⟨y, hy, he⟩ := bind_eq_ok.mp he
    cases he
    rw [cons_append, lookup_cons, lookup_cons]
    cases hv : v == e.1 with
    | true => exact ⟨y, hy, rfl⟩
    | false => exact ih

theorem exists_composition (hcore : tbl.isObject tbl.objectType = true)
    (h₁ : ∀ e ∈ m₁, tbl.GenuineArgument occurrences e.2)
    (h₂ : ∀ e ∈ m₂, tbl.GenuineArgument occurrences e.2) :
    ∃ m, tbl.composition m₁ m₂ = .ok m := by
  have hentries : ∀ e ∈ m₁, ∃ e' : TypeVarId × Ty,
      (do return (e.1, ← tbl.substitute m₂ e.2)) = Except.ok e' := by
    intro e he
    rw [substitute]
    split_ifs
    · exact ⟨e, rfl⟩
    · obtain ⟨y, hy, -⟩ := exists_instantiate_replace hcore
        (fun v x hv => h₂ _ (mem_of_lookup hv)) (h₁ e he).2
      exact ⟨(e.1, y), by rw [hy]; rfl⟩
  obtain ⟨own, hown⟩ := exists_mapM_eq_ok hentries
  exact ⟨own ++ m₂, by rw [composition, hown]; rfl⟩

theorem composition_nil (tbl : Table) (m : Mapping) : tbl.composition m [] = .ok m := by
  have hentries : (fun e : TypeVarId × Ty => return (e.1, ← tbl.substitute [] e.2)) =
      fun e => (pure (id e) : Result (TypeVarId × Ty)) := rfl
  rw [composition, hentries, mapM_pure, map_id]
  exact congrArg Except.ok (append_nil m)

/-- Up to bare forms, the mapping that stands for two mappings gives what replacing variables twice
gives. -/
theorem bare_lookup_composition (hcore : tbl.isObject tbl.objectType = true)
    (h₁ : ∀ e ∈ m₁, tbl.GenuineArgument occurrences e.2)
    (h₂ : ∀ e ∈ m₂, tbl.GenuineArgument occurrences e.2) (hne : m₂ ≠ [])
    (h : tbl.composition m₁ m₂ = .ok m) (v : TypeVarId) :
    (m.lookup v).map Ty.bare =
        (((m₁.lookup v).map (Ty.replace (m₂.lookup ·))).or (m₂.lookup v)).map Ty.bare ∧
      ∀ x ∈ m.lookup v, tbl.GenuineArgument occurrences x := by
  have hm₂ (v : TypeVarId) (x : Ty) (hv : m₂.lookup v = some x) :
      tbl.GenuineArgument occurrences x := h₂ _ (mem_of_lookup hv)
  have hlookup := lookup_composition h v
  cases hv : m₁.lookup v with
  | none =>
    rw [hv, Option.elim_none] at hlookup
    rw [hlookup]
    exact ⟨rfl, hm₂ v⟩
  | some x =>
    rw [hv, Option.elim_some] at hlookup
    obtain ⟨y, hy, hlookup⟩ := hlookup
    have hx := h₁ _ (mem_of_lookup hv)
    obtain ⟨y', hy', hreal⟩ := exists_instantiate_replace hcore hm₂ hx.2
    rw [substitute_of_ne_nil hne, hy'] at hy
    cases hy
    rw [hlookup]
    refine ⟨congrArg some hreal.1, ?_⟩
    rintro _ ⟨⟩
    refine ⟨?_, hreal.2⟩
    rw [Ty.isArgument_of_kind_eq (Ty.kind_eq_of_bare_eq hreal.1)]
    exact isArgument_replace (fun v x hv => (hm₂ v x hv).1) hx.1

/-- Substituting twice is substituting once: for all types that the program builds and all mappings
to type arguments, both ways succeed, with equal results. -/
theorem substitute_composition (hcore : tbl.isObject tbl.objectType = true)
    (ht : tbl.Genuine occurrences t) (h₁ : ∀ e ∈ m₁, tbl.GenuineArgument occurrences e.2)
    (h₂ : ∀ e ∈ m₂, tbl.GenuineArgument occurrences e.2) :
    ∃ m t₁ t₂ t', tbl.composition m₁ m₂ = .ok m ∧ tbl.substitute m₁ t = .ok t₁ ∧
      tbl.substitute m₂ t₁ = .ok t₂ ∧ tbl.substitute m t = .ok t' ∧ t₂.same t' = true := by
  have hm₁ (v : TypeVarId) (x : Ty) (hv : m₁.lookup v = some x) :
      tbl.GenuineArgument occurrences x := h₁ _ (mem_of_lookup hv)
  have hm₂ (v : TypeVarId) (x : Ty) (hv : m₂.lookup v = some x) :
      tbl.GenuineArgument occurrences x := h₂ _ (mem_of_lookup hv)
  obtain ⟨m, hm⟩ := exists_composition hcore h₁ h₂
  -- An empty mapping changes nothing, not even intersections of wildcards.
  by_cases hne₂ : m₂ = []
  · subst hne₂
    rw [composition_nil] at hm
    cases hm
    obtain ⟨t₁, ht₁⟩ : ∃ t₁, tbl.substitute m₁ t = .ok t₁ := by
      rw [substitute]
      split_ifs
      · exact ⟨t, rfl⟩
      · exact (exists_instantiate_replace hcore hm₁ ht).imp fun _ h => h.1
    exact ⟨m₁, t₁, t₁, t₁, composition_nil tbl m₁, ht₁, rfl, ht₁, Ty.same_refl t₁⟩
  by_cases hne₁ : m₁ = []
  · subst hne₁
    obtain ⟨t₂, ht₂, -⟩ := exists_instantiate_replace hcore hm₂ ht
    rw [← substitute_of_ne_nil hne₂] at ht₂
    exact ⟨m₂, t, t₂, t₂, rfl, rfl, ht₂, ht₂, Ty.same_refl t₂⟩
  have hne : m ≠ [] := by
    obtain ⟨own, -, h⟩ := bind_eq_ok.mp hm
    cases h
    exact append_ne_nil_of_right_ne_nil _ hne₂
  have hlookup := bare_lookup_composition hcore h₁ h₂ hne₂ hm
  obtain ⟨t₁, ht₁, hreal₁⟩ := exists_instantiate_replace hcore hm₁ ht
  obtain ⟨t₂, ht₂, hreal₂⟩ := exists_instantiate_replace hcore hm₂ hreal₁.2
  obtain ⟨t', ht', hreal⟩ := exists_instantiate_replace hcore (fun v x hv => (hlookup v).2 x hv) ht
  rw [← substitute_of_ne_nil hne₁] at ht₁
  rw [← substitute_of_ne_nil hne₂] at ht₂
  rw [← substitute_of_ne_nil hne] at ht'
  refine ⟨m, t₁, t₂, t', hm, ht₁, ht₂, ht', Ty.same_of_bare_eq ?_⟩
  calc t₂.bare = (t₁.replace (m₂.lookup ·)).bare := hreal₂.1
    _ = ((t.replace (m₁.lookup ·)).replace (m₂.lookup ·)).bare :=
      Ty.bare_replace_congr hreal₁.1 fun _ => rfl
    _ = (t.replace fun v => ((m₁.lookup v).map (Ty.replace (m₂.lookup ·))).or (m₂.lookup v)).bare :=
      congrArg Ty.bare (Ty.replace_replace _ _ t)
    _ = (t.replace (m.lookup ·)).bare := Ty.bare_replace_congr rfl fun v =>
      bare_image (hlookup v).1.symm
    _ = t'.bare := hreal.1.symm

/-- A wildcard that gives way to its lower bound in another wildcard, and to its upper bound in an
array, in the type of a method. -/
theorem substitute_composition_executable :
    let tbl : Table := {
      classes := #[
        { name := "java.lang.Object", simpleName := "Object", kind := .cls },
        { name := "p.G", simpleName := "G", kind := .cls,
          typeParameters := [{ name := "T" }, { name := "X" }] }] }
    let T : TypeVarId := ⟨.cls ⟨1⟩, 0⟩
    let X : TypeVarId := ⟨.cls ⟨1⟩, 1⟩
    let G (s t : Ty) : Ty := .declared ⟨1⟩ [s, t] none []
    let t : Ty := .executable ⟨⟨1⟩, false, 0⟩ [] (.array (.var 0 T []) [])
      [G (.wildcard 0 tbl.objectType (.var 0 T []) []) (.var 0 X [])] .none []
    let m₁ : Mapping := [(T, .wildcard 0 (.var 0 X []) .null [])]
    let m₂ : Mapping := [(X, G (.var 0 X []) (.var 0 T []))]
    (tbl.isObject tbl.objectType = true ∧ tbl.Genuine (fun _ _ => .null) t ∧
      (∀ e ∈ m₁, tbl.GenuineArgument (fun _ _ => .null) e.2) ∧
      ∀ e ∈ m₂, tbl.GenuineArgument (fun _ _ => .null) e.2) ∧
    ∃ m t₁ t₂ t', tbl.composition m₁ m₂ = .ok m ∧ tbl.substitute m₁ t = .ok t₁ ∧
      tbl.substitute m₂ t₁ = .ok t₂ ∧ tbl.substitute m t = .ok t' ∧ t₂.same t' = true := by
  intro tbl T X G t m₁ m₂
  have hvar (v : TypeVarId) : tbl.Genuine (fun _ _ => .null) (.var 0 v []) :=
    .leaf ⟨trivial, fun h => absurd rfl h, nofun⟩ rfl
  have hG {s t : Ty} (hargs : s.isArgument = true ∧ t.isArgument = true)
      (hs : tbl.Genuine (fun _ _ => .null) s) (ht : tbl.Genuine (fun _ _ => .null) t) :
      tbl.Genuine (fun _ _ => .null) (G s t) :=
    .declared ⟨⟨.inr rfl, by simpa using hargs⟩, fun h => absurd rfl h, nofun⟩
      (by simpa using ⟨hs, ht⟩) fun _ h => by cases h
  have hsuper : tbl.Genuine (fun _ _ => .null) (.wildcard 0 tbl.objectType (.var 0 T []) []) :=
    .wildcard ⟨⟨rfl, rfl, .inl rfl⟩, fun h => absurd rfl h, nofun⟩ genuine_objectType
      (hvar T)
  have ht : tbl.Genuine (fun _ _ => .null) t := by
    refine .intro ⟨trivial, fun h => absurd rfl h, nofun⟩ ?_
    refine forall_mem_cons.mpr ⟨?_, forall_mem_cons.mpr ⟨?_,
      forall_mem_cons.mpr ⟨?_, forall_mem_nil _⟩⟩⟩
    · exact .array ⟨⟨rfl, rfl⟩, fun h => absurd rfl h, nofun⟩ (hvar T)
    · exact .leaf ⟨trivial, fun h => absurd rfl h, nofun⟩ rfl
    · exact hG ⟨rfl, rfl⟩ hsuper (hvar X)
  have h₁ : ∀ e ∈ m₁, tbl.GenuineArgument (fun _ _ => .null) e.2 :=
    forall_mem_cons.mpr ⟨⟨rfl, .wildcard ⟨⟨rfl, rfl, .inr rfl⟩, fun h => absurd rfl h,
      nofun⟩ (hvar X) genuine_null⟩, forall_mem_nil _⟩
  have h₂ : ∀ e ∈ m₂, tbl.GenuineArgument (fun _ _ => .null) e.2 :=
    forall_mem_cons.mpr ⟨⟨rfl, hG ⟨rfl, rfl⟩ (hvar X) (hvar T)⟩, forall_mem_nil _⟩
  exact ⟨⟨rfl, ht, h₁, h₂⟩, substitute_composition rfl ht h₁ h₂⟩

/-- A second class with the name of the root class is taken for it as the bound of a wildcard. -/
theorem substitute_composition_second_root :
    let tbl : Table := {
      classes := #[
        { name := "java.lang.Object", simpleName := "Object", kind := .cls },
        { name := "p.G", simpleName := "G", kind := .cls,
          typeParameters := [{ name := "T" }, { name := "X" }] },
        { name := "java.lang.Object", simpleName := "java.lang.Object", kind := .cls }] }
    let T : TypeVarId := ⟨.cls ⟨1⟩, 0⟩
    let X : TypeVarId := ⟨.cls ⟨1⟩, 1⟩
    let second : Ty := .declared ⟨2⟩ [] none []
    let t : Ty := .array (.var 0 T []) []
    let m₁ : Mapping := [(T, .wildcard 0 (.var 0 X []) .null [])]
    let m₂ : Mapping := [(X, second)]
    ∃ m t₁, tbl.composition m₁ m₂ = .ok m ∧ tbl.substitute m₁ t = .ok t₁ ∧
      tbl.substitute m₂ t₁ = .ok (.array second []) ∧
      tbl.substitute m t = .ok (.array tbl.objectType []) ∧
      (Ty.array second []).same (.array tbl.objectType []) = false := by
  intro tbl T X second t m₁ m₂
  exact ⟨[(T, .wildcard 0 tbl.objectType .null []), (X, second)], .array (.var 0 X []) [], rfl, rfl,
    rfl, rfl, rfl⟩

end Composition

end Table

end NominalTypes
