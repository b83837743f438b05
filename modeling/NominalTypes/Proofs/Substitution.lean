import NominalTypes.Ty.Substitution
import NominalTypes.Proofs.Budget
import NominalTypes.Proofs.Structure

/-!
# The algebra of substitution

`Ty.subst` is substitution without the checks and the sharing of `Table.instantiate`: it replaces
variables everywhere, and lets a wildcard give way to its bound where no wildcard can stand. Up to
bare forms it depends only on what is put for the variables that occur, and substituting twice is
substituting once (`Ty.subst_subst`), because a wildcard may give way before or after a second
substitution.

The mapping that a declared type brings with it is described by `Table.assignment`: the arguments of
the type by type parameter, and then those of the types around it.
-/

namespace NominalTypes

open List

namespace Ty

mutual

/-- The type with variables replaced. A wildcard that lands where no wildcard can stand gives way to
its bound. -/
def subst (σ : TypeVarId → Option Ty) : Ty → Ty
  | var n v marks => (σ v).getD (var n v marks)
  | declared c args owner marks => declared c (substAll σ args) (substOwner σ owner) marks
  | array component marks => array (subst σ component).orUpper marks
  | wildcard n upper lower marks =>
    wildcard n (subst σ upper).orUpper (subst σ lower).orLower marks
  | intersection n bounds => intersection n ((substAll σ bounds).map orUpper)
  | t => t

/-- The types with variables replaced. -/
def substAll (σ : TypeVarId → Option Ty) : List Ty → List Ty
  | [] => []
  | t :: ts => subst σ t :: substAll σ ts

/-- The owner with variables replaced. -/
def substOwner (σ : TypeVarId → Option Ty) : Option Ty → Option Ty
  | .none => .none
  | some t => some (subst σ t)

end

@[simp]
theorem substAll_eq_map (σ : TypeVarId → Option Ty) (ts : List Ty) :
    substAll σ ts = ts.map (subst σ) := by
  induction ts with
  | nil => rfl
  | cons t ts ih => rw [substAll, ih, map_cons]

@[simp]
theorem substOwner_eq_map (σ : TypeVarId → Option Ty) (o : Option Ty) :
    substOwner σ o = o.map (subst σ) := by
  cases o <;> rfl

/-- If the type is a variable, it is one with the property. -/
def Over (p : TypeVarId → Prop) (t : Ty) : Prop :=
  ∀ n v marks, t = var n v marks → p v

theorem over_of_isVariable {p t} (h : t.isVariable = false) : Over p t := by
  rintro n v marks rfl
  cases h

/-- What becomes of a variable. -/
def image (σ : TypeVarId → Option Ty) (v : TypeVarId) : Ty :=
  subst σ (var 0 v [])

variable {σ τ : TypeVarId → Option Ty} {t : Ty}

theorem bare_subst_var (n : Nat) (v : TypeVarId) (marks : List ClassId) :
    ((var n v marks).subst σ).bare = (image σ v).bare := by
  rw [image, subst, subst]
  cases σ v <;> rfl

/-- Whether substitution goes through the type: it is neither a variable, nor a union, nor the type
of an executable. -/
def isLayered : Ty → Bool
  | var _ _ _ => false
  | union _ _ => false
  | executable _ _ _ _ _ _ => false
  | _ => true

theorem subst_of_isLayered (h : t.isLayered = true) : t.subst σ = t.rebuild (subst σ) := by
  cases t with
  | var | union | executable => cases h
  | intersection n bounds => rw [subst, rebuild, substAll_eq_map, map_map]; rfl
  | declared c args owner marks => rw [subst, rebuild, substAll_eq_map, substOwner_eq_map]
  | _ => rfl

theorem isLayered_bare (t : Ty) : t.bare.isLayered = t.isLayered := by
  cases t <;> rfl

theorem isLayered_rebuild (f : Ty → Ty) (t : Ty) : (t.rebuild f).isLayered = t.isLayered := by
  cases t <;> rfl

theorem bare_subst_bare (σ : TypeVarId → Option Ty) (t : Ty) :
    (t.bare.subst σ).bare = (t.subst σ).bare := by
  induction t using children_induction with
  | step t ih =>
    cases hlayered : t.isLayered with
    | true =>
      have hlayer (s : Ty) (hs : s.isLayered = true)
          (hparts : ∀ x ∈ s.children, (x.bare.subst σ).bare = (x.subst σ).bare) :
          (s.subst σ).bare = s.bare.rebuild fun x => (x.subst σ).bare := by
        rw [subst_of_isLayered hs]
        exact bare_rebuild fun x hx => (hparts x (s.visitedParts_subset x hx)).symm
      rw [hlayer t hlayered ih, hlayer t.bare (t.isLayered_bare.trans hlayered), bare_bare]
      intro x hx
      obtain ⟨y, -, rfl⟩ := mem_map.mp (t.children_bare ▸ hx)
      rw [bare_bare]
    | false =>
      cases t with
      | var n v marks => exact (bare_subst_var n v marks).symm
      | union | executable => exact bare_bare _
      | _ => cases hlayered

/-- What matters are the bare forms of what becomes of the variables that occur. -/
theorem bare_subst_congr (h : t.Every (Over fun v => (image σ v).bare = (image τ v).bare)) :
    (t.subst σ).bare = (t.subst τ).bare := by
  induction h with
  | @intro t top parts ih =>
    cases hlayered : t.isLayered with
    | true =>
      have hlayer (ρ : TypeVarId → Option Ty)
          (hρ : ∀ x ∈ t.children, (x.subst ρ).bare = (x.subst τ).bare) :
          (t.subst ρ).bare = t.bare.rebuild fun x => (x.subst τ).bare := by
        rw [subst_of_isLayered hlayered]
        exact bare_rebuild fun x hx =>
          (hρ x (t.visitedParts_subset x hx)).trans (bare_subst_bare τ x).symm
      rw [hlayer σ ih, hlayer τ fun _ _ => rfl]
    | false =>
      cases t with
      | var n v marks =>
        rw [bare_subst_var, bare_subst_var]
        exact top n v marks rfl
      | union | executable => rfl
      | _ => cases hlayered

/-- Substitution respects bare forms. -/
theorem bare_subst_of_bare_eq {s : Ty} (h : s.bare = t.bare) :
    (s.subst σ).bare = (t.subst σ).bare := by
  rw [← bare_subst_bare, h, bare_subst_bare]

/-- A wildcard may give way to its upper bound before a substitution or after it. -/
theorem orUpper_subst_orUpper (σ : TypeVarId → Option Ty) (t : Ty) :
    (t.orUpper.subst σ).orUpper = (t.subst σ).orUpper := by
  cases t with
  | wildcard n upper lower marks => rfl
  | _ => rfl

/-- A wildcard may give way to its lower bound before a substitution or after it. -/
theorem orLower_subst_orLower (σ : TypeVarId → Option Ty) (t : Ty) :
    (t.orLower.subst σ).orLower = (t.subst σ).orLower := by
  cases t with
  | wildcard n upper lower marks => rfl
  | _ => rfl

/-- Substituting in what a substitution puts for variables is substituting afterwards, as long as
the first substitution replaces every variable that occurs. -/
theorem subst_subst (h : t.Every (Over fun v => (τ v).isSome)) :
    (t.subst τ).subst σ = t.subst fun v => (τ v).map (subst σ) := by
  induction h with
  | @intro t top parts ih =>
    cases hlayered : t.isLayered with
    | true =>
      rw [subst_of_isLayered hlayered, subst_of_isLayered hlayered,
        subst_of_isLayered ((isLayered_rebuild _ t).trans hlayered),
        rebuild_rebuild (orUpper_subst_orUpper σ) (orLower_subst_orLower σ)]
      exact rebuild_congr ih
    | false =>
      cases t with
      | var n v marks =>
        obtain ⟨x, hx⟩ := Option.isSome_iff_exists.mp (top n v marks rfl)
        simp only [subst, hx, Option.getD_some, Option.map_some]
      | union | executable => rfl
      | _ => cases hlayered

end Ty

/-! ### Mappings -/

namespace Mapping

private theorem lookup_cons_eq (e : TypeVarId × Ty) (m : Mapping) (w : TypeVarId) :
    List.lookup w (e :: m) = if w = e.1 then some e.2 else m.lookup w := by
  rw [lookup_cons]
  split_ifs with h
  · rw [beq_iff_eq.mpr h]
  · rw [beq_eq_false_iff_ne.mpr h]

private theorem lookup_eq_none {m : Mapping} {w : TypeVarId} (h : ∀ e ∈ m, w ≠ e.1) :
    m.lookup w = none :=
  lookup_eq_none_iff.mpr fun e he => bne_iff_ne.mpr (h e he)

private theorem lookup_replace (m : Mapping) (v w : TypeVarId) (t : Ty) :
    List.lookup w (m.map fun e => if e.1 == v then (v, t) else e) =
      if w = v then (m.lookup v).map fun _ => t else m.lookup w := by
  induction m with
  | nil => simp
  | cons e m ih =>
    rw [map_cons, lookup_cons_eq, ih, lookup_cons_eq, lookup_cons_eq]
    by_cases hev : e.1 = v
    · subst hev
      by_cases hw : w = e.1 <;> simp [hw]
    · by_cases hwv : w = v
      · subst hwv
        simp [hev, Ne.symm hev]
      · simp [hev, hwv]

theorem lookup_insert (m : Mapping) (v w : TypeVarId) (t : Ty) :
    (m.insert v t).lookup w = if w = v then some t else m.lookup w := by
  rw [insert]
  by_cases hany : ∃ e ∈ m, e.1 = v
  · obtain ⟨e, he, hev⟩ := hany
    have hsome : m.lookup v ≠ none := fun h =>
      bne_iff_ne.mp (lookup_eq_none_iff.mp h e he) hev.symm
    obtain ⟨x, hx⟩ := Option.ne_none_iff_exists'.mp hsome
    have hany : m.any (·.1 == v) = true := any_eq_true.mpr ⟨e, he, beq_iff_eq.mpr hev⟩
    rw [if_pos hany, lookup_replace, hx]
    rfl
  · have hnone : m.lookup v = none := lookup_eq_none fun e he h => hany ⟨e, he, h.symm⟩
    have hall : ¬(m.any (·.1 == v)) = true := fun h => by
      obtain ⟨e, he, hev⟩ := any_eq_true.mp h
      exact hany ⟨e, he, beq_iff_eq.mp hev⟩
    rw [if_neg hall, lookup_append, lookup_cons_eq]
    split_ifs with hwv
    · rw [hwv, hnone]
      rfl
    · exact Option.or_none

/-- Entries for different type parameters are all found again, before those of the mapping. -/
theorem lookup_insertAll (m : Mapping) (entries : List (TypeVarId × Ty))
    (hnodup : (entries.map (·.1)).Nodup) (w : TypeVarId) :
    (m.insertAll entries).lookup w = (entries.lookup w).or (m.lookup w) := by
  induction entries generalizing m with
  | nil => rfl
  | cons e entries ih =>
    obtain ⟨v, t⟩ := e
    rw [map_cons, nodup_cons] at hnodup
    have hstep : m.insertAll ((v, t) :: entries) = (m.insert v t).insertAll entries := rfl
    rw [hstep, ih _ hnodup.2, lookup_insert, lookup_cons_eq]
    split_ifs with hwv
    · have hnone : List.lookup w entries = none :=
        lookup_eq_none fun e he h => hnodup.1 (hwv ▸ h ▸ mem_map_of_mem (f := (·.1)) he)
      rw [hnone]
      rfl
    · rfl

end Mapping

namespace Table

variable (tbl : Table)

/-- What a declared type puts for type parameters: its arguments for those of its class, and what
the types around it put for others. -/
def assignment : Ty → TypeVarId → Option Ty
  | .declared c args (some owner) _, v =>
    (if v ∈ tbl.typeVars (.cls c) then args[v.index]? else none).or (assignment owner v)
  | .declared c args none _, v => if v ∈ tbl.typeVars (.cls c) then args[v.index]? else none
  | _, _ => none

variable {tbl}

theorem mem_typeVars {g v} :
    v ∈ tbl.typeVars g ↔ v.owner = g ∧ v.index < (tbl.typeParametersOf g).length := by
  obtain ⟨owner, index⟩ := v
  simp only [typeVars, mem_map, mem_range, TypeVarId.mk.injEq]
  constructor
  · rintro ⟨i, hi, rfl, rfl⟩
    exact ⟨rfl, hi⟩
  · rintro ⟨rfl, hi⟩
    exact ⟨index, hi, rfl, rfl⟩

theorem nodup_typeVars (g : GenericId) : (tbl.typeVars g).Nodup :=
  List.Pairwise.map _ (fun _ _ hne h => hne (congrArg TypeVarId.index h)) nodup_range

private theorem map_fst_zip_sublist (vs : List TypeVarId) (args : List Ty) :
    ((vs.zip args).map (·.1)).Sublist vs := by
  induction vs generalizing args with
  | nil => exact List.Sublist.refl _
  | cons v vs ih =>
    cases args with
    | nil => exact nil_sublist _
    | cons a args => exact (ih args).cons_cons v

private theorem lookup_zip_range (g : GenericId) (start n : Nat) (args : List Ty) (i : Nat) :
    (((List.range' start n).map (TypeVarId.mk g)).zip args).lookup ⟨g, start + i⟩ =
      if i < n then args[i]? else none := by
  induction n generalizing start args i with
  | zero => rfl
  | succ n ih =>
    cases args with
    | nil => simp
    | cons a args =>
      rw [List.range'_succ, map_cons, zip_cons_cons, Mapping.lookup_cons_eq]
      cases i with
      | zero => simp
      | succ i =>
        have hne : (⟨g, start + (i + 1)⟩ : TypeVarId) ≠ ⟨g, start⟩ := by simp
        rw [if_neg hne, show start + (i + 1) = start + 1 + i by omega, ih]
        simp

theorem lookup_zip_typeVars (g : GenericId) (args : List Ty) (v : TypeVarId) :
    ((tbl.typeVars g).zip args).lookup v = if v ∈ tbl.typeVars g then args[v.index]? else none := by
  by_cases hg : v.owner = g
  · subst hg
    have h := lookup_zip_range v.owner 0 (tbl.typeParametersOf v.owner).length args v.index
    rw [Nat.zero_add, ← range_eq_range'] at h
    simp only [mem_typeVars, true_and]
    exact h
  · rw [if_neg fun h => hg (mem_typeVars.mp h).1]
    refine Mapping.lookup_eq_none fun e he h => hg ?_
    exact h ▸ (mem_typeVars.mp (of_mem_zip he).1).1

private theorem lookup_own (m : Mapping) (c : ClassId) (args : List Ty) (v : TypeVarId) :
    (m.insertAll ((tbl.typeVars (.cls c)).zip args)).lookup v =
      (if v ∈ tbl.typeVars (.cls c) then args[v.index]? else none).or (m.lookup v) := by
  rw [Mapping.lookup_insertAll, lookup_zip_typeVars]
  exact (nodup_typeVars _).sublist (map_fst_zip_sublist _ _)

/-- The type mapping of a type puts for type parameters what the type assigns to them. -/
theorem lookup_typeMapping {t m} (h : tbl.typeMapping t = .ok m) (v : TypeVarId) :
    m.lookup v = tbl.assignment t v := by
  induction t using Ty.children_induction generalizing m with
  | step t ih =>
    cases t with
    | declared c args owner marks =>
      cases owner with
      | none =>
        cases h
        rw [lookup_own, assignment]
        exact Option.or_none
      | some o =>
        obtain ⟨outer, houter, h⟩ := bind_eq_ok.mp h
        cases h
        rw [lookup_own, assignment, ih o (mem_append_right _ mem_cons_self) houter]
    | _ => cases h

end Table

end NominalTypes
