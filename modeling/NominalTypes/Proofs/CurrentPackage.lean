import NominalTypes.Proofs.Loading
import NominalTypes.Proofs.Resolution

/-!
# The current package

In a scope of a named package, a simple name that is no member class of the classes around denotes
the class of that name in the package, whatever is imported and whatever `java.lang` has. Classes
without a package have no such privilege: they are the last to be looked up.
-/

namespace NominalTypes

open List

namespace Scope

variable {scope : Scope} {tbl : Table} {d : ClassId} {name : String}

theorem memberOfEnclosers_eq_none {around}
    (h : ∀ e ∈ around, tbl.inheritedMemberClass e name = .ok none) :
    memberOfEnclosers tbl name around = .ok none := by
  induction around with
  | nil => rfl
  | cons e around ih =>
    obtain ⟨he, haround⟩ := forall_mem_cons.mp h
    rw [memberOfEnclosers, he]
    exact ih haround

/-- If no class around has a member class of that name, it is looked up outside of them. -/
theorem resolveSimple_of_no_member
    (hmembers : ∀ c ∈ scope.context, ∀ e ∈ c :: tbl.enclosers c,
      tbl.inheritedMemberClass e name = .ok none) :
    scope.resolveSimple tbl name = scope.resolveOutside tbl name := by
  rw [resolveSimple]
  cases hcontext : scope.context with
  | none => rfl
  | some c =>
    simp only [memberOfEnclosers_eq_none (hmembers c hcontext)]
    rfl

theorem resolveClass_of_resolveSimple (hname : Signature.IsIdentifier tbl.words name)
    (h : scope.resolveSimple tbl name = .ok (some d)) :
    scope.resolveClass tbl name = .ok (some d) := by
  have hread : scope.resolveClass tbl (".".intercalate [name]) = _ :=
    resolveClass_intercalate (forall_mem_singleton.mpr hname)
  rw [String.intercalate_singleton, h] at hread
  exact hread

/-- The class of the current package comes before all imported classes and those of `java.lang`, if
the package has a name. -/
theorem resolveClass_currentPackage (hname : Signature.IsIdentifier tbl.words name)
    (hpackage : scope.package.isEmpty = false)
    (hmembers : ∀ c ∈ scope.context, ∀ e ∈ c :: tbl.enclosers c,
      tbl.inheritedMemberClass e name = .ok none)
    (hd : tbl.lookupType scope.path (scope.package.qualify name) = some d) :
    scope.resolveClass tbl name = .ok (some d) := by
  have hhere : scope.resolveOutside tbl name = .ok (some d) := by
    simp [resolveOutside, hpackage, hd]
    rfl
  exact resolveClass_of_resolveSimple hname ((resolveSimple_of_no_member hmembers).trans hhere)

end Scope

namespace Stub

/-- A class path with one class, which goes by the name `q.C`. -/
def onlyImported : Table where
  classes := #[{ name := "q.C", simpleName := "C", kind := .interface }]
  paths := #[{ types := #[("q.C", ⟨0⟩)] }]

/-- A document of the package that imports `q.C` and uses the name of its own class `C`. -/
def importing (package : String) : Datum :=
  .object [("package", .text package), ("imports", .list [.text "q.C"]),
    ("types", .list [interfaceEntry "C" [] [],
      interfaceEntry "A" []
        [("fields", .list [.object [("name", .text "f"), ("type", .text "C")]])]])]

set_option maxRecDepth 20000 in
/-- The class of the package is found although the name is imported. -/
theorem resolveClass_currentPackage_importing :
    let tbl := (onlyImported.load ⟨0⟩ [importing "p"]).2
    let scope : Scope :=
      { path := ⟨0⟩, package := "p", imports := [.text "q.C"], context := some ⟨2⟩ }
    tbl.lookupType ⟨0⟩ "q.C" = some ⟨0⟩ ∧ scope.resolveClass tbl "C" = .ok (some ⟨1⟩) := by
  refine ⟨by cbv, ?_⟩
  have hname {words} : Signature.IsIdentifier words "C" :=
    ⟨'C', [], rfl, by decide, forall_mem_nil _⟩
  refine Scope.resolveClass_currentPackage hname (by cbv) (fun c hc => ?_) (by cbv)
  cases hc
  have henclosers : (onlyImported.load ⟨0⟩ [importing "p"]).2.enclosers ⟨2⟩ = [] := by cbv
  rw [henclosers]
  exact forall_mem_singleton.mpr (by cbv)

set_option maxRecDepth 20000 in
/-- In the unnamed package the imported class wins over the class of the package. -/
theorem load_unnamed_package :
    (onlyImported.load ⟨0⟩ [importing ""]).map id
        (fun tbl => (tbl.lookupType ⟨0⟩ "C", (tbl.cls ⟨2⟩).fields.map (·.type))) =
      (.ok [⟨1⟩, ⟨2⟩], (some ⟨1⟩, [.named ⟨0⟩ []])) := by
  cbv

end Stub

end NominalTypes
