import NominalTypes.Proofs.Loading

/-!
# Binary names

A class loader knows a member class by the name of the class around it, a `$` and its simple name. A
class path reads such a name with dots in place of every `$`, which gives the name of the class back
as long as there is no `$` in that name. The names of local and anonymous classes have one, so that
these are found by their names, and their members are not found by their binary names.
-/

namespace NominalTypes

open List

/-- The name with a dot in place of every `$`. -/
def undollar (name : String) : String :=
  name.map fun c => if c == '$' then '.' else c

theorem undollar_eq_self {name} (h : '$' ∉ name.toList) : undollar name = name := by
  refine String.toList_injective ?_
  rw [undollar, String.toList_map]
  refine (map_congr_left fun c hc => ?_).trans (map_id _)
  rw [if_neg (by simpa using fun heq : c = '$' => h (heq ▸ hc))]
  rfl

theorem undollar_append (s t : String) : undollar (s ++ t) = undollar s ++ undollar t := by
  refine String.toList_injective ?_
  simp [undollar, String.toList_map]

namespace Table

variable {tbl : Table} {path : PathId} {c : ClassId}

/-- The name of a member class is that of the class around it, a dot and its simple name. -/
def Spelled (tbl : Table) : Prop :=
  ∀ d ∈ tbl.classes, ∀ e, d.enclosing = some e → d.nesting = .member →
    d.name = (tbl.cls e).name ++ "." ++ d.simpleName.shown

/-- By induction along the classes around: a class whose name has no `$` is a member of such a
class, or of none. -/
theorem Spelled.undollar_binaryName (h : tbl.Spelled) (hc : '$' ∉ (tbl.cls c).name.toList) :
    undollar (tbl.binaryName c) = (tbl.cls c).name := by
  rw [binaryName, enclosers]
  generalize tbl.classes.size = fuel
  induction fuel generalizing c with
  | zero => exact undollar_eq_self hc
  | succ fuel ih =>
    rw [enclosersWithin]
    cases he : (tbl.cls c).enclosing with
    | none => exact undollar_eq_self hc
    | some e =>
      dsimp only [binaryNameIn]
      split
      · next hmember =>
        have hclass : tbl.cls c ∈ tbl.classes := by
          rw [cls, Array.getD_eq_getD_getElem?] at he ⊢
          cases hd : tbl.classes[c.index]? with
          | none =>
            rw [hd] at he
            cases he
          | some d => exact Array.mem_of_getElem? hd
        have hname := h _ hclass e he (beq_iff_eq.mp hmember)
        simp only [hname, String.toList_append, mem_append, not_or] at hc
        have hdot : undollar "$" = "." := by cbv
        rw [undollar_append, undollar_append, ih hc.1.1, hdot, undollar_eq_self hc.2, hname]
      · exact undollar_eq_self hc

theorem binaryName_of_not_member (h : (tbl.cls c).nesting ≠ .member) :
    tbl.binaryName c = (tbl.cls c).name := by
  rw [binaryName]
  cases tbl.enclosers c with
  | nil => rfl
  | cons e es => rw [binaryNameIn, if_neg (by simpa using h)]

theorem lookupType_undollar {name} (hname : '$' ∉ (undollar name).toList)
    (hfree : ∀ p ∈ tbl.pathChain path, p.types.find? (·.1 == name) = none) :
    tbl.lookupType path name = tbl.lookupType path (undollar name) := by
  by_cases hdollar : '$' ∈ name.toList
  · have hown (p : ClassPath) (hp : p ∈ tbl.pathChain path) :
        p.ownType? name = p.ownType? (undollar name) := by
      have hrest : (name.map fun c => if c == '$' then '.' else c) = undollar name := rfl
      simp only [ClassPath.ownType?, hfree p hp, Option.map_none, String.contains_char_eq, hdollar,
        hrest, hname, decide_true, decide_false, if_true]
      cases Option.map _ _ <;> rfl
    have hall := congrArg (findSome? id) (map_congr_left hown)
    rwa [findSome?_map, findSome?_map] at hall
  · rw [undollar_eq_self hdollar]

/-- A class is found by its binary name if it is no member class, or if there is no `$` in its name
and no other class goes by the binary name. -/
theorem lookupType_binaryName (h : tbl.Spelled)
    (hc : tbl.lookupType path (tbl.cls c).name = some c)
    (hplain : (tbl.cls c).nesting = .member → '$' ∉ (tbl.cls c).name.toList ∧
      ∀ p ∈ tbl.pathChain path, p.types.find? (·.1 == tbl.binaryName c) = none) :
    tbl.lookupType path (tbl.binaryName c) = some c := by
  by_cases hmember : (tbl.cls c).nesting = .member
  · obtain ⟨hname, hfree⟩ := hplain hmember
    have hundollar := h.undollar_binaryName hname
    rw [lookupType_undollar (hundollar ▸ hname) hfree, hundollar, hc]
  · rw [binaryName_of_not_member hmember, hc]

set_option maxRecDepth 20000 in
/-- A member class and the class around it. -/
theorem lookupType_binaryName_inner :
    let tbl : Table := {
      classes := #[{ name := "p.O", simpleName := "O", kind := .cls, memberClasses := [⟨1⟩] },
        { name := "p.O.I", simpleName := "I", kind := .cls, nesting := .member,
          enclosing := some ⟨0⟩ }]
      paths := #[{ types := #[("p.O", ⟨0⟩), ("p.O.I", ⟨1⟩)] }] }
    tbl.binaryName ⟨1⟩ = "p.O$I" ∧ tbl.lookupType ⟨0⟩ "p.O$I" = some ⟨1⟩ := by
  intro tbl
  have hname : tbl.binaryName ⟨1⟩ = "p.O$I" := by cbv
  have hspelled : tbl.Spelled := by
    simp [Spelled, tbl]
    cbv
  have hchain : tbl.pathChain ⟨0⟩ = [tbl.path ⟨0⟩] := by cbv
  refine ⟨hname, hname ▸ lookupType_binaryName hspelled (by cbv) fun _ => ⟨by decide, ?_⟩⟩
  rw [hname, hchain]
  exact forall_mem_singleton.mpr (by cbv)

set_option maxRecDepth 20000 in
/-- A member of a local class is found by its name, but not by its binary name. -/
theorem lookupType_member_of_local :
    (Table.load { paths := #[{}] } ⟨0⟩ [.object [("package", .text "p"), ("types", .list [
      Stub.interfaceEntry "O" [] [("types", .list [Stub.interfaceEntry "L" [] [
        ("nesting", .text "local"), ("types", .list [Stub.interfaceEntry "M" [] []])]])]])]]).map id
        (fun tbl => (tbl.binaryName ⟨2⟩, tbl.lookupType ⟨0⟩ (tbl.binaryName ⟨2⟩),
          tbl.lookupType ⟨0⟩ (tbl.cls ⟨2⟩).name)) =
      (.ok [⟨0⟩, ⟨1⟩, ⟨2⟩], ("p.O$1L$M", none, some ⟨2⟩)) := by
  cbv

end Table

end NominalTypes
