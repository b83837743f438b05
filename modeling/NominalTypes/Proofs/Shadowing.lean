import Mathlib.Logic.Relation
import NominalTypes.Member.Hiding
import NominalTypes.Proofs.Budget

/-!
# Where type variables are hidden

A type variable is hidden by types and type parameters of its name that are declared further inside.
Going outwards from the hiding declaration, no static scope is left, and the way ends at the first
scope that matches the declaration of the variable. A class matches the classes above it too, as it
should for member types, which are inherited. So a type variable, which is not inherited, is also
hidden from inside the subclasses of its class (`Table.hides_inherited_variable`).
-/

namespace NominalTypes.Table

variable {tbl : Table} {hidden scope outer last : GenericId} {fuel : Nat}

/-- The scope from which a type or type parameter hides what is further out. -/
def hidingScope (tbl : Table) : Element → Option GenericId
  | .type c =>
    match (tbl.cls c).nesting with
    | .topLevel | .anonymous => none
    | _ => some (.cls c)
  | .typeParameter v => if tbl.isTopLevel v.owner then none else some v.owner
  | _ => none

/-- The second scope is the one around the first, which is not static. -/
def Leads (tbl : Table) (scope outer : GenericId) : Prop :=
  tbl.isStaticScope scope = false ∧ tbl.outerScope scope = some outer

/-- Going outwards from the first scope, the second one is the first to match. -/
inductive Finds (tbl : Table) (hidden : GenericId) : GenericId → GenericId → Prop
  | here {scope outer : GenericId} (hleads : tbl.Leads scope outer)
    (hmatch : tbl.scopeMatches outer (some hidden) = .ok true) : Finds tbl hidden scope outer
  | further {scope outer last : GenericId} (hleads : tbl.Leads scope outer)
    (hmiss : tbl.scopeMatches outer (some hidden) = .ok false) (h : Finds tbl hidden outer last) :
    Finds tbl hidden scope last

theorem Leads.meetsOutwards_eq (h : tbl.Leads scope outer) :
    tbl.meetsOutwards true (some hidden) (fuel + 1) scope =
      tbl.scopeMatches outer (some hidden) >>= fun found =>
        if found then .ok true else tbl.meetsOutwards true (some hidden) fuel outer := by
  rw [meetsOutwards, h.1, h.2]
  rfl

theorem exists_leads_of_meetsOutwards
    (h : tbl.meetsOutwards true (some hidden) (fuel + 1) scope = .ok true) :
    ∃ outer, tbl.Leads scope outer := by
  rw [meetsOutwards] at h
  split_ifs at h with hstatic
  · cases h
  split at h
  · cases h
  · rename_i outer houter
    exact ⟨outer, by simpa using hstatic, houter⟩

/-- The search finds what there is on a way outwards. -/
theorem exists_meetsOutwards_iff :
    (∃ fuel, tbl.meetsOutwards true (some hidden) fuel scope = .ok true) ↔
      ∃ last, tbl.Finds hidden scope last := by
  constructor
  · rintro ⟨fuel, h⟩
    induction fuel generalizing scope with
    | zero => cases h
    | succ fuel ih =>
      obtain ⟨outer, hleads⟩ := exists_leads_of_meetsOutwards h
      rw [hleads.meetsOutwards_eq] at h
      obtain ⟨found, hfound, h⟩ := bind_eq_ok.mp h
      cases found with
      | true => exact ⟨outer, .here hleads hfound⟩
      | false =>
        obtain ⟨last, hlast⟩ := ih h
        exact ⟨last, .further hleads hfound hlast⟩
  · rintro ⟨last, h⟩
    induction h with
    | here hleads hmatch =>
      refine ⟨1, ?_⟩
      rw [hleads.meetsOutwards_eq, hmatch]
      rfl
    | further hleads hmiss _ ih =>
      obtain ⟨fuel, hfuel⟩ := ih
      refine ⟨fuel + 1, ?_⟩
      rw [hleads.meetsOutwards_eq, hmiss]
      exact hfuel

theorem Finds.transGen (h : tbl.Finds hidden scope last) :
    Relation.TransGen tbl.Leads scope last := by
  induction h with
  | here hleads _ => exact .single hleads
  | further hleads _ _ ih => exact .head hleads ih

theorem Finds.scopeMatches (h : tbl.Finds hidden scope last) :
    tbl.scopeMatches last (some hidden) = .ok true := by
  induction h with
  | here _ hmatch => exact hmatch
  | further _ _ _ ih => exact ih

theorem scopeMatches_cases (h : tbl.scopeMatches scope (some hidden) = .ok true) :
    scope = hidden ∨ ∃ c d, scope = .cls c ∧ hidden = .cls d ∧ tbl.isSubclassOf c d = .ok true := by
  rw [Table.scopeMatches.eq_def] at h
  split at h
  · rename_i c d heq
    cases heq
    exact .inr ⟨c, d, rfl, rfl, h⟩
  · refine .inl ?_
    simpa [pure, Except.pure] using h

/-- A type variable is hidden by what has its name and is declared inside the class or executable of
the variable, or inside a subclass of that class. Only the outermost scope on the way can be
static. -/
theorem hides_typeVariable (tbl : Table) {x : Element} {v : TypeVarId}
    (h : tbl.hides fuel x (.typeParameter v) = .ok true) :
    (tbl.simpleName x).same (tbl.simpleName (.typeParameter v)) = true ∧
      ∃ start last, tbl.hidingScope x = some start ∧ Relation.TransGen tbl.Leads start last ∧
        (last = v.owner ∨
          ∃ c d, last = .cls c ∧ v.owner = .cls d ∧ tbl.isSubclassOf c d = .ok true) := by
  unfold hides at h
  split at h
  · cases h
  rename_i hname
  rw [Bool.or_eq_true, not_or, Bool.not_eq_true, Bool.not_eq_true, Bool.not_eq_false'] at hname
  refine ⟨hname.2, ?_⟩
  obtain ⟨start, hstart, hmeets⟩ : ∃ start, tbl.hidingScope x = some start ∧
      tbl.meetsOutwards true (some v.owner) fuel start = .ok true := by
    cases x with
    | type c =>
      rw [hidingScope]
      cases hnesting : (tbl.cls c).nesting with
      | topLevel | anonymous => simp [hnesting, pure, Except.pure] at h
      | member | locally => exact ⟨.cls c, rfl, by simpa [hnesting, hidesType] using h⟩
    | typeParameter w =>
      rw [hidingScope]
      cases htop : tbl.isTopLevel w.owner with
      | true => simp [htop, pure, Except.pure] at h
      | false => exact ⟨w.owner, rfl, by simpa [htop, hidesType] using h⟩
    | _ => cases h
  obtain ⟨last, hlast⟩ := exists_meetsOutwards_iff.mp ⟨fuel, hmeets⟩
  exact ⟨start, last, hstart, hlast.transGen, scopeMatches_cases hlast.scopeMatches⟩

/-- A generic class with a generic inner class, and a subclass of it with another one. All type
parameters have the same name. -/
def shadowingClasses : Table :=
  let inner (name : String) (enclosing : Nat) : ClassDecl :=
    { name, simpleName := "Inner", kind := .cls, nesting := .member, enclosing := some ⟨enclosing⟩,
      typeParameters := [{ name := "T" }], superclass := some (.named ⟨0⟩ []) }
  { classes := #[
      { name := "java.lang.Object", simpleName := "Object", kind := .cls },
      { name := "p.G", simpleName := "G", kind := .cls, typeParameters := [{ name := "T" }],
        superclass := some (.named ⟨0⟩ []) },
      { name := "p.Sub", simpleName := "Sub", kind := .cls, superclass := some (.named ⟨1⟩ []) },
      inner "p.G.Inner" 1, inner "p.Sub.Inner" 2] }

theorem hides_typeVariable_inner :
    let x : Element := .typeParameter ⟨.cls ⟨3⟩, 0⟩
    shadowingClasses.hides 2 x (.typeParameter ⟨.cls ⟨1⟩, 0⟩) = .ok true ∧
      ∃ start last, shadowingClasses.hidingScope x = some start ∧
        Relation.TransGen shadowingClasses.Leads start last ∧
        (last = .cls ⟨1⟩ ∨ ∃ c d, last = .cls c ∧ GenericId.cls ⟨1⟩ = .cls d ∧
          shadowingClasses.isSubclassOf c d = .ok true) := by
  intro x
  have h : shadowingClasses.hides 2 x (.typeParameter ⟨.cls ⟨1⟩, 0⟩) = .ok true := by rfl
  exact ⟨h, (hides_typeVariable shadowingClasses h).2⟩

/-- The inner class of the subclass is not inside the class of the hidden variable. -/
theorem hides_inherited_variable :
    shadowingClasses.hides 2 (.typeParameter ⟨.cls ⟨4⟩, 0⟩)
      (.typeParameter ⟨.cls ⟨1⟩, 0⟩) = .ok true ∧
      shadowingClasses.outerScope (.cls ⟨4⟩) = some (.cls ⟨2⟩) ∧
      shadowingClasses.outerScope (.cls ⟨2⟩) = none :=
  ⟨by rfl, by rfl, by rfl⟩

end NominalTypes.Table
