import NominalTypes.Proofs.Minting

/-!
# Erased types are in normal form

Erasing a type leaves a class alone, a primitive type, the null type or one of the types of no
values, or an array of what is left of its component. Erasing such a type again changes nothing.

The way to what is left is not structural. A variable leads to what its declaration says, and a
union to a least upper bound, which is found among the erased supertypes of the alternatives and
filled in with arguments that are least upper bounds in turn. Types of executables and packages have
no place in this, and none comes up if there is none at the outset: having none is a `Ty.Lenient`
property.
-/

namespace NominalTypes

theorem Ty.lenient_isPseudo : Lenient fun x => x.isPseudo = false where
  plain {t} h := by
    cases t with
    | executable | package => cases h
    | _ => rfl
  executable h := by cases h

namespace Table

variable {tbl : Table} {n : Nat} {t : Ty}

theorem keepsValues_leastUpperBounds : KeepsValues (tbl.leastUpperBounds n) :=
  fun ts bs hts h => ((Promise.result Ty.lenient_isPseudo).gives_leastUpperBounds
    (Nat.le_refl n) ts hts).1 bs h

/-- What erasure leaves of a type without executables and packages. -/
theorem normal_of_erase (ht : t.Valued) {e} (h : tbl.erase n t = .ok e) : e.Normal :=
  normal_of_eraseWith keepsValues_leastUpperBounds ht h

/-- Erasure leads to a normal form, in which no variables, wildcards, intersections and unions
occur, and leaves it as it is. -/
theorem erase_normal (tbl : Table) {t : Ty} (ht : t.Every fun x => x.isPseudo = false) {n : Nat}
    {e : Ty} (h : tbl.erase n t = .ok e) :
    e.Normal ∧ (e.Every fun x => x.kind ∉ [.typevar, .wildcard, .intersection, .union]) ∧
      Settles (fun k => tbl.erase k e) e := by
  have hnormal : e.Normal := normal_of_erase ht h
  exact ⟨hnormal, hnormal.every_kind, (Erases.of_normal hnormal).settles_eraseWith
    tbl.leastUpperBounds⟩

set_option maxRecDepth 20000 in
/-- An array of a union, one alternative of which is a variable that is bounded by itself. -/
theorem erase_normal_union :
    let tbl : Table := {
      classes := #[
        { name := "java.lang.Object", simpleName := "Object", kind := .cls },
        { name := "p.Ordered", simpleName := "Ordered", kind := .interface,
          typeParameters := [{ name := "T" }] },
        { name := "p.A", simpleName := "A", kind := .cls,
          interfaces := [.applied ⟨1⟩ [.named ⟨2⟩ []] none []] },
        { name := "p.G", simpleName := "G", kind := .cls,
          typeParameters :=
            [{ name := "T", bounds := [.applied ⟨1⟩ [.var ⟨.cls ⟨3⟩, 0⟩ []] none []] }] }] }
    let t : Ty := .array (.union 0 [.var 0 ⟨.cls ⟨3⟩, 0⟩ [], .declared ⟨2⟩ [] none []]) []
    let e : Ty := .array (.declared ⟨1⟩ [] none []) []
    (t.Every fun x => x.isPseudo = false) ∧ tbl.erase 8 t = .ok e ∧ e.Normal ∧
      (e.Every fun x => x.kind ∉ [.typevar, .wildcard, .intersection, .union]) ∧
      Settles (fun k => tbl.erase k e) e := by
  intro tbl t e
  have ht : t.Every fun x => x.isPseudo = false := by decide
  have h : tbl.erase 8 t = .ok e := by rfl
  exact ⟨ht, h, erase_normal tbl ht h⟩

end Table

end NominalTypes
