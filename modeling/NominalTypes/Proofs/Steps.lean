import NominalTypes.Proofs.Isolation

/-!
# Class paths see more and more

A class path sees what is registered on it and on its ancestors. While a load goes on, class paths
register more and more (`Table.Wider`), so a package that was visible stays visible, and a class
that was registered stays registered.
-/

namespace NominalTypes

open List

variable {c : ClassId} {package : PackageId} {enclosing : Option ClassId} {documents : List Datum}

namespace Table

variable {tbl tbl' mid : Table} {path q : PathId}

/-! ### What a class path sees -/

/-- The second class path is the first one or one of its ancestors. -/
inductive Sees (tbl : Table) : PathId → PathId → Prop
  | self {p} : Sees tbl p p
  | parent {p up q} (h : (tbl.path p).parent = some up) (hq : Sees tbl up q) : Sees tbl p q

theorem Sees.trans {r} (h : tbl.Sees path q) (h' : tbl.Sees q r) : tbl.Sees path r := by
  induction h with
  | self => exact h'
  | parent hparent _ ih => exact .parent hparent (ih h')

theorem Sees.le (h : tbl.Sees path q) (hl : tbl.Lineal path) : q.index ≤ path.index := by
  have hlt := hl.parent_lt
  clear hl
  induction h with
  | self => exact Nat.le_refl _
  | parent hparent _ ih => exact Nat.le_trans ih (Nat.le_of_lt (hlt _ _ hparent))

theorem Sees.lineal (h : tbl.Sees path q) (hl : tbl.Lineal path) : tbl.Lineal q :=
  ⟨Nat.lt_of_le_of_lt (h.le hl) hl.lt_size, hl.parent_lt⟩

theorem Sees.antisymm (hl : tbl.Lineal path) (h : tbl.Sees path q) (h' : tbl.Sees q path) :
    q = path := by
  have hle := h.le hl
  have hge := h'.le (h.lineal hl)
  cases q
  cases path
  exact congrArg PathId.mk (Nat.le_antisymm hle hge)

/-- Only the parents count, of the class paths that are seen. -/
theorem Sees.congr (h : tbl.Sees path q)
    (hparent : ∀ r, tbl.Sees path r → (tbl'.path r).parent = (tbl.path r).parent) :
    tbl'.Sees path q := by
  induction h with
  | self => exact .self
  | @parent path up _ hup _ ih =>
    exact .parent ((hparent path .self).trans hup) (ih fun r hr => hparent r (.parent hup hr))

theorem sees_congr (hparent : ∀ r, (tbl'.path r).parent = (tbl.path r).parent) :
    tbl'.Sees path q ↔ tbl.Sees path q :=
  ⟨fun h => h.congr fun r _ => (hparent r).symm, fun h => h.congr fun r _ => hparent r⟩

/-- The chain of a class path consists of what it sees, if it is long enough. -/
theorem mem_pathChainWithin {fuel p} (hl : tbl.Lineal path) (hfuel : path.index ≤ fuel) :
    p ∈ tbl.pathChainWithin fuel path ↔ ∃ q, tbl.Sees path q ∧ tbl.path q = p := by
  have hroot {path : PathId} (hnone : (tbl.path path).parent = none) :
      p ∈ [tbl.path path] ↔ ∃ q, tbl.Sees path q ∧ tbl.path q = p := by
    refine ⟨fun h => ⟨path, .self, (mem_singleton.mp h).symm⟩, ?_⟩
    rintro ⟨q, hq, rfl⟩
    cases hq with
    | self => exact mem_singleton_self _
    | parent hparent _ => rw [hnone] at hparent; cases hparent
  induction fuel generalizing path with
  | zero =>
    refine hroot (Option.eq_none_iff_forall_ne_some.mpr fun parent hparent => ?_)
    have := hl.parent_lt path parent hparent
    omega
  | succ fuel ih =>
    rw [pathChainWithin]
    cases hparent : (tbl.path path).parent with
    | none => exact hroot hparent
    | some parent =>
      have hlt := hl.parent_lt path parent hparent
      have above := ih ⟨Nat.lt_trans hlt hl.lt_size, hl.parent_lt⟩ (by omega)
      rw [mem_append, mem_singleton]
      constructor
      · rintro (hp | rfl)
        · obtain ⟨q, hq, hp⟩ := above.mp hp
          exact ⟨q, .parent hparent hq, hp⟩
        · exact ⟨path, .self, rfl⟩
      · rintro ⟨q, hq, rfl⟩
        cases hq with
        | self => exact .inr rfl
        | parent hup hq =>
          cases hparent.symm.trans hup
          exact .inl (above.mpr ⟨q, hq, rfl⟩)

theorem mem_pathChain {p} (hl : tbl.Lineal path) :
    p ∈ tbl.pathChain path ↔ ∃ q, tbl.Sees path q ∧ tbl.path q = p :=
  mem_pathChainWithin hl (Nat.le_of_lt hl.lt_size)

/-- The package is registered on the class path or on an ancestor. -/
def HasPackage (tbl : Table) (path : PathId) (p : PackageId) : Prop :=
  ∃ q name, tbl.Sees path q ∧ (name, p) ∈ (tbl.path q).packages

/-- What is found under a name is registered under that name. -/
theorem mem_packages_of_lookupPackage (hl : tbl.Lineal path) {name p}
    (h : tbl.lookupPackage path name = some p) :
    ∃ q e, tbl.Sees path q ∧ e ∈ (tbl.path q).packages ∧ e.2 = p ∧ (e.1 == name) = true := by
  obtain ⟨cp, hcp, hfind⟩ := exists_of_findSome?_eq_some h
  obtain ⟨q, hq, rfl⟩ := (mem_pathChain hl).mp hcp
  obtain ⟨e, he, rfl⟩ := Option.map_eq_some_iff.mp hfind
  have hname := Array.find?_some (p := fun e : Name × PackageId => e.1 == name) he
  exact ⟨q, e, hq, Array.mem_of_find?_eq_some he, rfl, hname⟩

theorem not_beq_of_lookupPackage (hl : tbl.Lineal path) {name}
    (h : tbl.lookupPackage path name = none) (hq : tbl.Sees path q) {e}
    (he : e ∈ (tbl.path q).packages) : (e.1 == name) = false := by
  have hnone := findSome?_eq_none_iff.mp h (tbl.path q) ((mem_pathChain hl).mpr ⟨q, hq, rfl⟩)
  simpa using Array.find?_eq_none.mp (Option.map_eq_none_iff.mp hnone) e he

/-- What is found under a name is registered. -/
theorem mem_classesOn_of_lookupType (hl : tbl.Lineal path) {name}
    (h : tbl.lookupType path name = some c) : ∃ q, tbl.Sees path q ∧ c ∈ tbl.classesOn q := by
  obtain ⟨cp, hcp, hfind⟩ := exists_of_findSome?_eq_some h
  obtain ⟨q, hq, rfl⟩ := (mem_pathChain hl).mp hcp
  refine ⟨q, hq, ?_⟩
  have hmem (n : String) (hn : ((tbl.path q).types.find? (·.1 == n)).map (·.2) = some c) :
      c ∈ tbl.classesOn q := by
    obtain ⟨e, he, rfl⟩ := Option.map_eq_some_iff.mp hn
    exact mem_map_of_mem (Array.mem_toList_iff.mpr (Array.mem_of_find?_eq_some he))
  dsimp only [ClassPath.ownType?] at hfind
  split at hfind
  · cases hfind
    exact hmem _ ‹_›
  · split at hfind
    · exact hmem _ hfind
    · cases hfind

/-! ### Class paths that register more -/

/-- The class paths have the same parents as before, and register all that they registered. -/
structure Wider (tbl tbl' : Table) : Prop where
  size_eq : tbl'.paths.size = tbl.paths.size
  parent_eq : ∀ q, (tbl'.path q).parent = (tbl.path q).parent
  types : ∀ q, ∀ e ∈ (tbl.path q).types, e ∈ (tbl'.path q).types
  packages : ∀ q, ∀ e ∈ (tbl.path q).packages, e ∈ (tbl'.path q).packages

namespace Wider

theorem of_paths_eq (h : tbl'.paths = tbl.paths) : tbl.Wider tbl' := by
  have hpath (q : PathId) : tbl'.path q = tbl.path q := by rw [Table.path, h, Table.path]
  constructor
  · rw [h]
  · exact fun q => by rw [hpath]
  · exact fun q => by rw [hpath]; exact fun _ => id
  · exact fun q => by rw [hpath]; exact fun _ => id

theorem refl (tbl : Table) : tbl.Wider tbl :=
  of_paths_eq rfl

theorem trans (h : tbl.Wider mid) (h' : mid.Wider tbl') : tbl.Wider tbl' where
  size_eq := h'.size_eq.trans h.size_eq
  parent_eq q := (h'.parent_eq q).trans (h.parent_eq q)
  types q e he := h'.types q e (h.types q e he)
  packages q e he := h'.packages q e (h.packages q e he)

/-- Registering something on a class path. -/
theorem modifyPath (tbl : Table) (path : PathId) {f} (hparent : ∀ p, (f p).parent = p.parent)
    (htypes : ∀ p, ∀ e ∈ p.types, e ∈ (f p).types)
    (hpackages : ∀ p, ∀ e ∈ p.packages, e ∈ (f p).packages) :
    tbl.Wider (tbl.modifyPath path f) := by
  have hpath (q : PathId) : (tbl.modifyPath path f).path q = tbl.path q ∨
      (tbl.modifyPath path f).path q = f (tbl.path q) := by
    by_cases hq : q = path
    · subst hq
      by_cases hlt : q.index < tbl.paths.size
      · exact .inr (Stub.path_modifyPath_self hlt f)
      · exact .inl (by simp [Table.path, Table.modifyPath, hlt])
    · exact .inl (Stub.path_modifyPath_of_ne hq f)
  constructor
  · simp [Table.modifyPath]
  · intro q
    rcases hpath q with h | h <;> rw [h]
    exact hparent _
  · intro q e he
    rcases hpath q with h | h <;> rw [h]
    · exact he
    · exact htypes _ e he
  · intro q e he
    rcases hpath q with h | h <;> rw [h]
    · exact he
    · exact hpackages _ e he

theorem sees_iff (h : tbl.Wider tbl') : tbl'.Sees path q ↔ tbl.Sees path q :=
  sees_congr h.parent_eq

theorem lineal (h : tbl.Wider tbl') (hl : tbl.Lineal path) : tbl'.Lineal path where
  lt_size := h.size_eq ▸ hl.lt_size
  parent_lt q parent hq := hl.parent_lt q parent (h.parent_eq q ▸ hq)

theorem hasPackage (h : tbl.Wider tbl') {p} (hp : tbl.HasPackage path p) :
    tbl'.HasPackage path p := by
  obtain ⟨q, name, hq, hp⟩ := hp
  exact ⟨q, name, h.sees_iff.mpr hq, h.packages q _ hp⟩

theorem mem_classesOn (h : tbl.Wider tbl') (hc : c ∈ tbl.classesOn q) :
    c ∈ tbl'.classesOn q := by
  obtain ⟨e, he, rfl⟩ := mem_map.mp hc
  exact mem_map_of_mem (Array.mem_toList_iff.mpr (h.types q e (Array.mem_toList_iff.mp he)))

end Wider

end Table

namespace Stub

variable {path : PathId} {tbl tbl' mid : Table}

/-! ### The first pass -/

theorem paths_attachTo (tbl : Table) (enclosing : Option ClassId) (nesting : Nesting)
    (c : ClassId) : (attachTo tbl enclosing nesting c).paths = tbl.paths ∧
      (attachTo tbl enclosing nesting c).packages = tbl.packages :=
  attachTo_induction (P := fun t => t.paths = tbl.paths ∧ t.packages = tbl.packages)
    ⟨rfl, rfl⟩ _ _ _ fun _ => ⟨rfl, rfl⟩

theorem wider_definePackage (tbl : Table) (path : PathId) (name : Name) :
    tbl.Wider (tbl.definePackage path name).2 := by
  unfold Table.definePackage
  split
  · exact .refl tbl
  · have hadd : tbl.Wider (tbl.addPackage { name, path := some path }).2 := .of_paths_eq rfl
    refine hadd.trans (.modifyPath _ path (fun _ => rfl) (fun _ _ he => he) fun p e he => ?_)
    exact Array.mem_push.mpr (.inl he)

theorem wider_register {d} (h : tbl.register path d = .ok (c, mid)) :
    tbl.Wider mid := by
  obtain ⟨-, -, -, hpaths⟩ := register_eq_ok h
  have hpush := Table.Wider.modifyPath tbl path
    (f := fun p => { p with types := p.types.push (d.name, c) }) (fun _ => rfl)
    (fun p e he => Array.mem_push.mpr (.inl he)) fun _ _ he => he
  exact hpush.trans (.of_paths_eq hpaths)

/-- A class that has been registered is among the classes of the class path. -/
theorem mem_classesOn_of_register (hl : tbl.Lineal path) {d}
    (h : tbl.register path d = .ok (c, mid)) : c ∈ mid.classesOn path := by
  have hentered := entered_register hl h
  rw [Table.classesOn, hentered.types_eq, map_append]
  exact mem_append_right _ (by simp)

/-- The package that is made or found is visible afterwards. -/
theorem hasPackage_definePackage (hl : tbl.Lineal path) (name : Name) :
    (tbl.definePackage path name).2.HasPackage path (tbl.definePackage path name).1 := by
  unfold Table.definePackage
  cases hfound : tbl.lookupPackage path name with
  | some p =>
    obtain ⟨q, ⟨name', _⟩, hq, he, rfl, -⟩ := Table.mem_packages_of_lookupPackage hl hfound
    exact ⟨q, name', hq, he⟩
  | none =>
    refine ⟨path, name, .self, ?_⟩
    have hlt : path.index < (tbl.addPackage { name, path := some path }).2.paths.size := hl.lt_size
    simp only [path_modifyPath_self hlt, Array.mem_push, or_true]

end Stub

end NominalTypes
