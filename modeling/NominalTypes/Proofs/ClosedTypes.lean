import NominalTypes.Proofs.Ancestry
import NominalTypes.Proofs.Criteria

/-!
# Supertypes of types without variables

The supertypes of a class are written with type parameters, and a use of the class has to give an
argument to each of them. It gives arguments for the type parameters of the class itself, unless it
is raw, and its owner gives those for the classes around it. A supertype expression may mention
others: that of an inner class mentions parameters of the class around it, and a use of the inner
class need not have an owner. Then a variable stays.

A use of a class is complete (`Table.Complete`) if it is raw or gives arguments to all type
parameters that the supertypes of its class mention. Whether what a complete type inherits is
complete again can be seen from the supertype expressions alone (`Table.Supplied`), because
substitution does not change to which parameters a type gives arguments.
-/

namespace NominalTypes

open List

namespace Ty

/-- No type variable occurs in the type. -/
def Closed (t : Ty) : Prop :=
  t.Every (Over fun _ => False)

theorem Over.mono {p q t} (h : Over p t) (hpq : ∀ v, p v → q v) :
    Over q t :=
  fun n v marks heq => hpq v (h n v marks heq)

theorem closed_bare_class (c : ClassId) (marks : List ClassId) :
    (declared c [] .none marks).Closed :=
  .leaf (over_of_isVariable rfl) rfl

end Ty

namespace Table

variable (tbl : Table)

/-- The supertypes of a class as they are declared, none if they denote no types. -/
def patterns (c : ClassId) : List Ty :=
  match tbl.descriptors (tbl.supertypeExprs c) with
  | .ok ps => ps
  | .error _ => []

/-- A use of a class that is raw, or gives arguments to all type parameters that the supertypes of
the class mention. -/
def Complete : Ty → Prop
  | .declared c args owner marks =>
    tbl.isRaw c args = true ∨ ∀ p ∈ tbl.patterns c,
      p.Every (Ty.Over fun v => (tbl.assignment (.declared c args owner marks) v).isSome = true)
  | _ => True

/-- The declared supertypes are complete, and those of generic classes also after erasure. -/
def Supplied : Prop :=
  ∀ c, ∀ p ∈ tbl.patterns c, tbl.Complete p ∧
    ((tbl.cls c).typeParameters ≠ [] → tbl.Complete (eraseUse p))

instance decidableComplete : DecidablePred tbl.Complete
  | .declared c args owner marks => inferInstanceAs (Decidable (tbl.isRaw c args = true ∨
      ∀ p ∈ tbl.patterns c,
        p.Every (Ty.Over fun v => (tbl.assignment (.declared c args owner marks) v).isSome = true)))
  | .primitive _ _ | .none | .void _ | .null | .array _ _ | .var _ _ _ | .wildcard _ _ _ _
  | .captured _ _ _ _ _ | .intersection _ _ | .union _ _ | .executable _ _ _ _ _ _ | .package _ =>
    .isTrue trivial

variable {tbl}

theorem patterns_eq {c ps} (hps : tbl.descriptors (tbl.supertypeExprs c) = .ok ps) :
    tbl.patterns c = ps := by
  rw [patterns, hps]

theorem Rooted.complete_object (h : tbl.Rooted) (args : List Ty) (owner : Option Ty)
    (marks : List ClassId) : tbl.Complete (.declared tbl.core.object args owner marks) := by
  refine .inr fun p hp => ?_
  rw [patterns, h.supertypeExprs] at hp
  cases hp

/-! ### Substitution -/

section Instantiate

variable {m : Mapping} {p t : Ty}

/-- A substitution that gives closed types to all variables of a type closes it. -/
theorem closed_of_instantiate (hp : p.Every tbl.Denoted)
    (hm : ∀ v x, m.lookup v = some x → x.Closed)
    (hvars : p.Every (Ty.Over fun v => (m.lookup v).isSome = true))
    (h : tbl.instantiate m p = .ok t) : t.Closed := by
  induction p using Ty.children_induction generalizing t with
  | step p ih =>
    rcases remakes_of_instantiate h with ⟨haffected, rfl⟩ | ⟨n, v, marks, rfl, hx⟩ | hremakes
    · refine ((over_of_not_isAffected hp haffected).and hvars).mono fun x hx n v marks heq => ?_
      have hnone : m.lookup v = none := hx.1 n v marks heq
      have hsome : (m.lookup v).isSome = true := hx.2 n v marks heq
      rw [hnone] at hsome
      cases hsome
    · exact hm v t hx
    · refine hremakes.every (.leaf (Ty.over_of_isVariable rfl) rfl)
        (Ty.over_of_isVariable hremakes.isVariable_eq) (fun x hx => ?_) ?_
      · have hchild := p.visitedParts_subset x hx
        exact ih x hchild (hp.part hchild) (hvars.part hchild) (hremakes.parts x hx)
      · rw [hp.top.parts_eq.2]
        exact forall_mem_nil _

/-- A substitution does not change to which type parameters a use of a class gives arguments. -/
theorem isSome_assignment_of_instantiate (hp : p.Every tbl.Denoted) (hkind : p.kind = .declared)
    (h : tbl.instantiate m p = .ok t) (v : TypeVarId) :
    (tbl.assignment t v).isSome = (tbl.assignment p v).isSome := by
  induction p using Ty.children_induction generalizing t with
  | step p ih =>
    obtain ⟨c, args, owner, marks, rfl⟩ := Ty.exists_eq_declared hkind
    rcases remakes_of_instantiate h with ⟨-, rfl⟩ | ⟨_, _, _, heq, -⟩ | hremakes
    · rfl
    · cases heq
    · rw [hremakes.eq]
      have hown : (if v ∈ tbl.typeVars (.cls c) then (args.map (tbl.outcome m))[v.index]?
          else none).isSome = (if v ∈ tbl.typeVars (.cls c) then args[v.index]?
            else none).isSome := by
        split_ifs
        · rw [getElem?_map, Option.isSome_map]
        · rfl
      cases owner with
      | none => exact hown
      | some o =>
        have ho : o ∈ (Ty.declared c args (some o) marks).children :=
          mem_append_right _ mem_cons_self
        have hrest := ih o ho (hp.part ho) (hp.top.2.2 o rfl) (hremakes.parts o ho)
        simp only [Ty.rebuild, normalized, Option.map_some, assignment, Option.isSome_or, hown,
          hrest]

theorem complete_of_instantiate (hp : p.Every tbl.Denoted) (hkind : p.kind = .declared)
    (hcomplete : tbl.Complete p) (h : tbl.instantiate m p = .ok t) : tbl.Complete t := by
  have hsome := isSome_assignment_of_instantiate hp hkind h
  obtain ⟨c, args, owner, marks, rfl⟩ := Ty.exists_eq_declared hkind
  rcases remakes_of_instantiate h with ⟨-, rfl⟩ | ⟨_, _, _, heq, -⟩ | ⟨-, -, -, rfl, -⟩
  · exact hcomplete
  · cases heq
  · refine hcomplete.imp (fun hraw => ?_) fun hvars q hq => ?_
    · rw [← isRaw_of_length_eq (length_map _).symm, hraw]
    · exact (hvars q hq).mono fun x hx => hx.mono fun v hv => (hsome v).trans hv

end Instantiate

/-! ### One step up -/

section Supers

variable {t s : Ty}

theorem closed_of_substitute {m p} (hp : p.Every tbl.Denoted)
    (hm : ∀ v x, m.lookup v = some x → x.Closed)
    (hvars : p.Every (Ty.Over fun v => (m.lookup v).isSome = true))
    (h : tbl.substitute m p = .ok s) : s.Closed := by
  rcases substitute_eq_ok h with ⟨rfl, rfl⟩ | h
  · exact hvars.mono fun x hx => hx.mono fun v hv => Bool.false_ne_true hv
  · exact closed_of_instantiate hp hm hvars h

theorem complete_of_substitute {m p} (hp : p.Every tbl.Denoted) (hkind : p.kind = .declared)
    (hcomplete : tbl.Complete p) (h : tbl.substitute m p = .ok s) :
    tbl.Complete s := by
  rcases substitute_eq_ok h with ⟨-, rfl⟩ | h
  · exact hcomplete
  · exact complete_of_instantiate hp hkind hcomplete h

/-- The direct supertypes of a complete closed type are closed. -/
theorem Orderly.closed_of_supertype (h : tbl.Orderly) (ht : t.Formed) (hclosed : t.Closed)
    (hcomplete : tbl.Complete t) (hs : tbl.Supertype t s) : s.Closed := by
  obtain ⟨ts, ⟨c, args, owner, marks, rfl, -, hsupers⟩, hmem⟩ := h.exists_of_supertype ht hs
  rcases h.bare_or_replaced hsupers hmem with ⟨d, ms, rfl⟩ | ⟨ps, m, hps, hraw, hm, hts⟩
  · exact Ty.closed_bare_class d ms
  · obtain ⟨p, hp, hps'⟩ := exists_of_forall₂_right (mapM_eq_ok.mp hts) hmem
    have hvars := hcomplete.resolve_left (by rw [hraw]; exact Bool.false_ne_true) p
      (patterns_eq hps ▸ hp)
    refine closed_of_substitute (h.forall_patterns hps p hp).2 (fun v x hx => ?_) ?_ hps'
    · rw [lookup_typeMapping hm, assignment_remark c args owner [] marks] at hx
      exact every_assignment hclosed v x hx
    · refine hvars.mono fun x hx => hx.mono fun v hv => ?_
      rw [lookup_typeMapping hm, assignment_remark c args owner [] marks]
      exact hv

/-- Where the declared supertypes are complete, so are the direct supertypes of all types. -/
theorem Orderly.complete_of_supertype (h : tbl.Orderly) (hsupplied : tbl.Supplied) (ht : t.Formed)
    (hs : tbl.Supertype t s) : tbl.Complete s := by
  obtain ⟨ts, ⟨c, args, owner, marks, rfl, -, hsupers⟩, hmem⟩ := h.exists_of_supertype ht hs
  cases hsupers with
  | root => cases hmem
  | top =>
    rw [mem_singleton.mp hmem]
    exact h.rooted.complete_object _ _ _
  | erased _ hps hraw =>
    obtain ⟨p, hp, rfl⟩ := mem_map.mp hmem
    refine (hsupplied c p (patterns_eq hps ▸ hp)).2 fun hnil => ?_
    simp [isRaw, hnil] at hraw
  | replaced _ hps _ hm hts =>
    obtain ⟨p, hp, hps'⟩ := exists_of_forall₂_right (mapM_eq_ok.mp hts) hmem
    obtain ⟨hkind, hdenoted⟩ := h.forall_patterns hps p hp
    exact complete_of_substitute hdenoted hkind (hsupplied c p (patterns_eq hps ▸ hp)).1 hps'

end Supers

/-! ### All the way up -/

theorem Orderly.complete_of_reaches (h : tbl.Orderly) (hsupplied : tbl.Supplied) {t s}
    (ht : t.Formed) (hcomplete : tbl.Complete t) (hs : tbl.Reaches t s) : tbl.Complete s := by
  induction hs with
  | refl => exact hcomplete
  | tail hreaches hsupertype =>
    exact h.complete_of_supertype hsupplied (h.formed_of_reaches ht hreaches) hsupertype

theorem Orderly.closed_of_reaches (h : tbl.Orderly) {t s} (ht : t.Formed) (hclosed : t.Closed)
    (hcomplete : ∀ x, tbl.Reaches t x → tbl.Complete x) (hs : tbl.Reaches t s) : s.Closed := by
  induction hs with
  | refl => exact hclosed
  | tail hreaches hsupertype ih =>
    exact h.closed_of_supertype (h.formed_of_reaches ht hreaches) ih
      (hcomplete _ hreaches) hsupertype

/-- No type variable occurs in the supertypes of a type without type variables, listed or looked up
by their class, if all types on the way up are complete. -/
theorem Orderly.closed_of_allSupertypes (h : tbl.Orderly) {t : Ty} (ht : t.Formed)
    (hclosed : t.Closed) (hcomplete : ∀ s, tbl.Reaches t s → tbl.Complete s) :
    (∃ ts, Settles (fun k => (tbl.allSupertypes k t : Result (List Ty))) ts ∧
      ∀ s ∈ ts, s.Closed) ∧
    ∀ target, ∃ r, Settles (fun k => (tbl.resolveSupertype k t target : Result (Option Ty))) r ∧
      ∀ s ∈ r, s.Closed := by
  refine ⟨?_, fun target => ?_⟩
  · obtain ⟨ts, hts, hreaches, -⟩ := h.exists_allSupertypes ht
    refine ⟨ts, hts, fun s hs => ?_⟩
    exact h.closed_of_reaches ht hclosed hcomplete (hreaches s (mem_cons_of_mem _ hs))
  · obtain ⟨r, hr, -⟩ := h.exists_resolves (p := fun _ => True) (fun _ _ _ _ _ => trivial) ht
      trivial target
    refine ⟨r, hr.settles, fun s hs => ?_⟩
    cases hs
    exact h.closed_of_reaches ht hclosed hcomplete (h.reaches_of_resolves ht hr).1

/-- That the declared supertypes are complete can be tested. -/
theorem supplied_of_testPatterns (htest : tbl.testPatterns (fun c p => decide (tbl.Complete p ∧
    ((tbl.cls c).typeParameters ≠ [] → tbl.Complete (eraseUse p)))) = true) : tbl.Supplied := by
  intro c p hp
  rw [patterns] at hp
  split at hp
  · rename_i ps hps
    exact of_decide_eq_true (forall_of_testPatterns htest hps p hp)
  · cases hp

set_option maxRecDepth 20000 in
/-- An inner class that mentions a type parameter of the class around it, above a class that gives
it an owner. -/
theorem closed_of_allSupertypes_owner :
    let tbl : Table := {
      classes := #[
        { name := "java.lang.Object", simpleName := "Object", kind := .cls },
        { name := "p.A", simpleName := "A", kind := .cls },
        { name := "p.N", simpleName := "N", kind := .interface,
          typeParameters := [{ name := "T" }] },
        { name := "p.O", simpleName := "O", kind := .cls, typeParameters := [{ name := "T" }] },
        { name := "p.O$I", simpleName := "I", kind := .cls, nesting := .member,
          enclosing := some ⟨3⟩, interfaces := [.applied ⟨2⟩ [.var ⟨.cls ⟨3⟩, 0⟩ []] none []] },
        { name := "p.E", simpleName := "E", kind := .cls, superclass :=
            some (.applied ⟨4⟩ [] (some (.applied ⟨3⟩ [.named ⟨1⟩ []] none [])) []) }] }
    let t : Ty := .declared ⟨5⟩ [] none []
    (tbl.Orderly ∧ t.Formed ∧ t.Closed ∧ ∀ s, tbl.Reaches t s → tbl.Complete s) ∧
      (∃ ts, Settles (fun k => (tbl.allSupertypes k t : Result (List Ty))) ts ∧
        ∀ s ∈ ts, s.Closed) ∧
      ∀ target, ∃ r, Settles (fun k => (tbl.resolveSupertype k t target : Result (Option Ty))) r ∧
        ∀ s ∈ r, s.Closed := by
  intro tbl t
  have h : tbl.Orderly := orderly_of_isLayered (by rfl) (by rfl) (by rfl)
  have ht : t.Formed := Ty.formed_bare_class _ _
  have hclosed : t.Closed := Ty.closed_bare_class _ _
  have hsupplied : tbl.Supplied := supplied_of_testPatterns (by rfl)
  have hcomplete (s : Ty) : tbl.Reaches t s → tbl.Complete s :=
    h.complete_of_reaches hsupplied ht (by decide)
  exact ⟨⟨h, ht, hclosed, hcomplete⟩, h.closed_of_allSupertypes ht hclosed hcomplete⟩

set_option maxRecDepth 20000 in
/-- A use of the inner class that has lost its owner inherits the type parameter of the class around
it: after erasure, as a supertype of a raw type, and with the type parameter itself as the argument
where a class outside names the inner class alone. -/
theorem allSupertypes_not_closed :
    let tbl : Table := {
      classes := #[
        { name := "java.lang.Object", simpleName := "Object", kind := .cls },
        { name := "p.A", simpleName := "A", kind := .cls },
        { name := "p.N", simpleName := "N", kind := .interface,
          typeParameters := [{ name := "T" }] },
        { name := "p.O", simpleName := "O", kind := .cls, typeParameters := [{ name := "T" }] },
        { name := "p.O$I", simpleName := "I", kind := .cls, nesting := .member,
          enclosing := some ⟨3⟩, interfaces := [.applied ⟨2⟩ [.var ⟨.cls ⟨3⟩, 0⟩ []] none []] },
        { name := "p.K", simpleName := "K", kind := .cls, typeParameters := [{ name := "U" }],
          superclass := some (.applied ⟨4⟩ []
            (some (.applied ⟨3⟩ [.var ⟨.cls ⟨5⟩, 0⟩ []] none [])) []) },
        { name := "p.X", simpleName := "X", kind := .cls, superclass := some (.named ⟨4⟩ []) }] }
    let A : Ty := .declared ⟨1⟩ [] none []
    let N (t : Ty) : Ty := .declared ⟨2⟩ [t] none []
    let O (t : Ty) : Ty := .declared ⟨3⟩ [t] none []
    let I (o : Option Ty) : Ty := .declared ⟨4⟩ [] o []
    let K : Ty := .declared ⟨5⟩ [] none []
    let X : Ty := .declared ⟨6⟩ [] none []
    let T : Ty := .var 0 ⟨.cls ⟨3⟩, 0⟩ []
    tbl.Orderly ∧ ((I none).Closed ∧ K.Closed ∧ X.Closed ∧ ¬(N T).Closed) ∧
      (∀ k, tbl.erase (k + 1) (I (some (O A))) = .ok (I none)) ∧
      (tbl.allSupertypes 8 (I none) : Result (List Ty)) = .ok [N T, tbl.objectType] ∧
      (tbl.resolveSupertype 8 (I none) ⟨2⟩ : Result (Option Ty)) = .ok (some (N T)) ∧
      (tbl.allSupertypes 8 K : Result (List Ty)) = .ok [I none, N T, tbl.objectType] ∧
      (tbl.allSupertypes 8 X : Result (List Ty)) = .ok [I (some (O T)), N T, tbl.objectType] := by
  refine ⟨orderly_of_isLayered (by rfl) (by rfl) (by rfl), ?_, fun k => rfl, ?_, ?_, ?_, ?_⟩
  · exact ⟨Ty.closed_bare_class _ _, Ty.closed_bare_class _ _, Ty.closed_bare_class _ _,
      fun h => (h.arg mem_cons_self).top _ _ _ rfl⟩
  · rfl
  · rfl
  · rfl
  · rfl

end Table

end NominalTypes
