import NominalTypes.Proofs.Loading

/-!
# What a class path registers

Classes come to a class path by loads and by single registrations. Each is entered under its own
name, which nothing may have answered to before, neither on an ancestor nor on the class path
itself, read exactly or with `$` for dots. So no name changes its meaning: a class that came later
cannot take a name that used to lead elsewhere, though the exact name would come first.

`Stub.Entered path outer tbl tbl' cs` says that on the way from `tbl` to `tbl'` the class path has
come to register the classes `cs`, in this order, those outermost among them inside `outer`. It
composes along a run. The first pass over documents makes packages and enters classes, each inside
one that it has entered before, if inside any; `Stub.Entries` are the tables that it goes through,
so what each of these steps keeps, the pass keeps. It enters exactly what it hands on. The second
pass enters nothing, and leaves the names of classes and the classes around them as they are.
-/

namespace NominalTypes

open List

variable {α : Type} {es : List (String × ClassId)} {e : String × ClassId} {name : String}
  {c : ClassId} {d : ClassDecl} {package : PackageId} {enclosing outer : Option ClassId}
  {entry : Datum} {documents : List Datum} {cs : List ClassId} {x : Stub.Loading α} {a : α}

/-! ### Lookups -/

section Lookup

variable {p : ClassPath}

theorem find?_eq_some_of_nodup (hnodup : (es.map (·.1)).Nodup) (he : e ∈ es) :
    es.find? (·.1 == e.1) = some e := by
  induction es with
  | nil => cases he
  | cons e' es ih =>
    rw [map_cons, nodup_cons] at hnodup
    rcases mem_cons.mp he with rfl | he
    · simp
    · have hne : e'.1 ≠ e.1 := fun h => hnodup.1 (h ▸ mem_map.mpr ⟨e, he, rfl⟩)
      rw [List.find?_cons, beq_eq_false_iff_ne.mpr hne]
      exact ih hnodup.2 he

theorem ClassPath.ownType?_eq_of_find? (h : p.types.find? (·.1 == name) = some e) :
    p.ownType? name = some e.2 := by
  simp only [ownType?, h, Option.map_some]

theorem ClassPath.find?_eq_none_of_ownType? (h : p.ownType? name = none) :
    p.types.find? (·.1 == name) = none := by
  cases hf : p.types.find? (·.1 == name) with
  | none => rfl
  | some e => simp [ownType?_eq_of_find? hf] at h

/-- Further classes do not take a name away that led to a class, unless they have that very name. -/
theorem ClassPath.ownType?_append {q : ClassPath} (hq : q.types.toList = p.types.toList ++ es)
    (hne : ∀ e ∈ es, e.1 ≠ name) (h : p.ownType? name = some c) : q.ownType? name = some c := by
  have hfind (n : String) : q.types.find? (·.1 == n) =
      (p.types.find? (·.1 == n)).or (es.find? (·.1 == n)) := by
    rw [← Array.find?_toList, ← Array.find?_toList, hq, List.find?_append]
  have hnew : es.find? (·.1 == name) = none := by
    simpa [List.find?_eq_none] using hne
  simp only [ownType?, hfind, hnew, Option.or_none] at h ⊢
  cases hexact : p.types.find? (·.1 == name) with
  | some e => simpa [hexact] using h
  | none =>
    simp only [hexact, Option.map_none] at h ⊢
    split at h
    · obtain ⟨e, he, rfl⟩ := Option.map_eq_some_iff.mp h
      rw [if_pos ‹_›, he, Option.some_or, Option.map_some]
    · cases h

end Lookup

namespace Table

variable {tbl tbl' : Table} {path : PathId}

/-- The ancestors of a class path, the oldest first. -/
def ancestors (tbl : Table) (path : PathId) : List ClassPath :=
  (tbl.pathChain path).dropLast

theorem pathChain_eq (tbl : Table) (path : PathId) :
    tbl.pathChain path = tbl.ancestors path ++ [tbl.path path] := by
  unfold ancestors pathChain
  cases tbl.paths.size with
  | zero => rfl
  | succ fuel =>
    rw [pathChainWithin]
    cases (tbl.path path).parent with
    | none => rfl
    | some parent => rw [dropLast_concat]

/-- The ancestors are asked first. -/
theorem lookupType_eq (tbl : Table) (path : PathId) (name : String) :
    tbl.lookupType path name =
      ((tbl.ancestors path).findSome? (·.ownType? name)).or ((tbl.path path).ownType? name) := by
  rw [lookupType, pathChain_eq, findSome?_append]
  simp

theorem lookupType_eq_none (h : tbl.lookupType path name = none) :
    (tbl.ancestors path).findSome? (·.ownType? name) = none ∧
      (tbl.path path).ownType? name = none := by
  rwa [lookupType_eq, Option.or_eq_none_iff] at h

/-- The class path is there, and all class paths are younger than their parents. -/
structure Lineal (tbl : Table) (path : PathId) : Prop where
  lt_size : path.index < tbl.paths.size
  parent_lt : ∀ q parent, (tbl.path q).parent = some parent → parent.index < q.index

/-- A new class path on top of another. -/
theorem Lineal.addPath (h : tbl.Lineal path) :
    (tbl.addPath { parent := some path }).2.Lineal (tbl.addPath { parent := some path }).1 where
  lt_size := by simp [Table.addPath]
  parent_lt q parent hq := by
    by_cases hnew : q.index = tbl.paths.size
    · have hparent : path = parent := by
        simpa [Table.addPath, Table.path, Array.getElem?_push, hnew] using hq
      rw [← hparent, hnew]
      exact h.lt_size
    · refine h.parent_lt q parent ?_
      simpa [Table.addPath, Table.path, Array.getElem?_push, hnew] using hq

/-- What is older than a class path does not depend on it. -/
theorem Lineal.pathChainWithin_congr (h : tbl.Lineal path)
    (hpaths : ∀ q, q ≠ path → tbl'.path q = tbl.path q) (fuel : Nat) {q}
    (hq : q.index < path.index) : tbl'.pathChainWithin fuel q = tbl.pathChainWithin fuel q := by
  induction fuel generalizing q with
  | zero => rw [pathChainWithin, pathChainWithin, hpaths q (by rintro rfl; omega)]
  | succ fuel ih =>
    rw [pathChainWithin, pathChainWithin, hpaths q (by rintro rfl; omega)]
    cases hparent : (tbl.path q).parent with
    | none => rfl
    | some parent =>
      have hlt := h.parent_lt q parent hparent
      simp only [ih (Nat.lt_trans hlt hq)]

/-- The ancestors of a class path do not depend on what it registers itself. -/
theorem Lineal.ancestors_congr (h : tbl.Lineal path)
    (hpaths : ∀ q, q ≠ path → tbl'.path q = tbl.path q)
    (hparent : (tbl'.path path).parent = (tbl.path path).parent)
    (hsize : tbl'.paths.size = tbl.paths.size) : tbl'.ancestors path = tbl.ancestors path := by
  unfold ancestors pathChain
  rw [hsize]
  cases tbl.paths.size with
  | zero => rfl
  | succ fuel =>
    rw [pathChainWithin, pathChainWithin, hparent]
    cases hp : (tbl.path path).parent with
    | none => rfl
    | some parent =>
      simp only [dropLast_concat]
      exact h.pathChainWithin_congr hpaths fuel (h.parent_lt path parent hp)

/-- What a class path registers is in order: each class stands under its own name, no name occurs
twice, and none on an ancestor as well. -/
structure Registered (tbl : Table) (path : PathId) : Prop where
  own_name : ∀ e ∈ (tbl.path path).types, (tbl.cls e.2).name = e.1
  entered : ∀ e ∈ (tbl.path path).types, e.2.index < tbl.classes.size
  nodup : ((tbl.path path).types.toList.map (·.1)).Nodup
  apart : ∀ e ∈ (tbl.path path).types, ∀ q ∈ tbl.ancestors path, ∀ e' ∈ q.types, e'.1 ≠ e.1

end Table

/-! ### Entering classes -/

namespace Stub

/-- On the way from one table to the other the class path has come to register further classes, in
this order. Their names were free and differ from one another. The class around such a class is
`outer`, or stands before it among them. All else that is registered anywhere stays, and so do the
names of the older classes and the classes around them. -/
structure Entered (path : PathId) (outer : Option ClassId) (tbl tbl' : Table)
    (cs : List ClassId) : Prop where
  classes_size : tbl.classes.size ≤ tbl'.classes.size
  head_eq : ∀ c : ClassId, c.index < tbl.classes.size →
    (tbl'.cls c).name = (tbl.cls c).name ∧ (tbl'.cls c).enclosing = (tbl.cls c).enclosing
  paths_size : tbl'.paths.size = tbl.paths.size
  paths_eq : ∀ q, q ≠ path → tbl'.path q = tbl.path q
  parent_eq : (tbl'.path path).parent = (tbl.path path).parent
  types_eq : (tbl'.path path).types.toList =
    (tbl.path path).types.toList ++ cs.map fun c => ((tbl'.cls c).name, c)
  lt_size : ∀ c ∈ cs, c.index < tbl'.classes.size
  free : ∀ c ∈ cs, tbl.lookupType path (tbl'.cls c).name = none
  nodup : (cs.map fun c => (tbl'.cls c).name).Nodup
  nested : ∀ c ∈ cs, ∀ e, (tbl'.cls c).enclosing = some e →
    outer = some e ∨ List.Sublist [e, c] cs

namespace Entered

variable {path : PathId} {outer' : Option ClassId} {tbl mid tbl' : Table} {cs' : List ClassId}

/-- A step that registers nothing and leaves the names of classes and the classes around them as
they are. -/
theorem of_paths_eq (hpaths : tbl'.paths.size = tbl.paths.size)
    (hpath : ∀ q, q ≠ path → tbl'.path q = tbl.path q)
    (hparent : (tbl'.path path).parent = (tbl.path path).parent)
    (htypes : (tbl'.path path).types = (tbl.path path).types)
    (hclasses : tbl.classes.size ≤ tbl'.classes.size)
    (hhead : ∀ c : ClassId, c.index < tbl.classes.size →
      (tbl'.cls c).name = (tbl.cls c).name ∧ (tbl'.cls c).enclosing = (tbl.cls c).enclosing) :
    Entered path outer tbl tbl' [] where
  classes_size := hclasses
  head_eq := hhead
  paths_size := hpaths
  paths_eq := hpath
  parent_eq := hparent
  types_eq := by simp [htypes]
  lt_size := by simp
  free := by simp
  nodup := by simp
  nested := by simp

theorem refl (tbl : Table) : Entered path outer tbl tbl [] :=
  of_paths_eq rfl (fun _ _ => rfl) rfl rfl (Nat.le_refl _) fun _ _ => ⟨rfl, rfl⟩

section

variable (h : Entered path outer tbl tbl' cs) (hl : tbl.Lineal path)

include h hl

theorem lineal : tbl'.Lineal path where
  lt_size := h.paths_size ▸ hl.lt_size
  parent_lt q parent hq := by
    by_cases hqp : q = path
    · subst hqp
      exact hl.parent_lt q parent (h.parent_eq ▸ hq)
    · exact hl.parent_lt q parent (h.paths_eq q hqp ▸ hq)

theorem ancestors_eq :
    tbl'.ancestors path = tbl.ancestors path :=
  hl.ancestors_congr h.paths_eq h.parent_eq h.paths_size

/-- A name that led to a class still leads to it. -/
theorem lookupType_eq_some (hc : tbl.lookupType path name = some c) :
    tbl'.lookupType path name = some c := by
  have hne : ∀ e ∈ cs.map fun c => ((tbl'.cls c).name, c), e.1 ≠ name := by
    intro e he hname
    obtain ⟨c', hc', rfl⟩ := mem_map.mp he
    have hfree := h.free c' hc'
    rw [show (tbl'.cls c').name = name from hname, hc] at hfree
    cases hfree
  rw [Table.lookupType_eq] at hc ⊢
  rw [h.ancestors_eq hl]
  cases hfound : (tbl.ancestors path).findSome? (·.ownType? name) with
  | some c' => simpa [hfound] using hc
  | none =>
    rw [hfound, Option.none_or] at hc
    exact ClassPath.ownType?_append h.types_eq hne hc

/-- A name that is free now was free before. -/
theorem lookupType_eq_none (hfree : tbl'.lookupType path name = none) :
    tbl.lookupType path name = none := by
  cases hc : tbl.lookupType path name with
  | none => rfl
  | some c => rw [h.lookupType_eq_some hl hc] at hfree; cases hfree

theorem lookupType_name (hc : c ∈ cs) :
    tbl'.lookupType path (tbl'.cls c).name = some c := by
  obtain ⟨habove, hown⟩ := Table.lookupType_eq_none (h.free c hc)
  rw [Table.lookupType_eq, h.ancestors_eq hl, habove, Option.none_or]
  have hold := ClassPath.find?_eq_none_of_ownType? hown
  have hfind : (tbl'.path path).types.find? (·.1 == (tbl'.cls c).name) =
      some ((tbl'.cls c).name, c) := by
    rw [← Array.find?_toList, h.types_eq, List.find?_append, Array.find?_toList, hold,
      Option.none_or]
    have hnodup : ((cs.map fun c => ((tbl'.cls c).name, c)).map (·.1)).Nodup := by
      rw [map_map]
      exact h.nodup
    exact find?_eq_some_of_nodup hnodup (mem_map.mpr ⟨c, hc, rfl⟩)
  exact ClassPath.ownType?_eq_of_find? hfind

end

/-- Two runs in a row enter one list after the other; what stands around the classes is seen from
both together. -/
theorem join (hl : tbl.Lineal path) (h : Entered path outer tbl mid cs)
    (h' : Entered path outer' mid tbl' cs') {around}
    (hnested : ∀ c ∈ cs ++ cs', ∀ e, (tbl'.cls c).enclosing = some e →
      around = some e ∨ List.Sublist [e, c] (cs ++ cs')) :
    Entered path around tbl tbl' (cs ++ cs') := by
  have hname (c : ClassId) (hc : c ∈ cs) : (tbl'.cls c).name = (mid.cls c).name :=
    (h'.head_eq c (h.lt_size c hc)).1
  have hfirst : (cs.map fun c => (tbl'.cls c).name) = cs.map fun c => (mid.cls c).name :=
    map_congr_left hname
  refine ⟨Nat.le_trans h.classes_size h'.classes_size, fun c hc => ?_,
    h'.paths_size.trans h.paths_size,
    fun q hq => (h'.paths_eq q hq).trans (h.paths_eq q hq), h'.parent_eq.trans h.parent_eq,
    ?_, ?_, ?_, ?_, hnested⟩
  · have hmid := h'.head_eq c (Nat.lt_of_lt_of_le hc h.classes_size)
    exact ⟨hmid.1.trans (h.head_eq c hc).1, hmid.2.trans (h.head_eq c hc).2⟩
  · rw [h'.types_eq, h.types_eq, map_append, append_assoc]
    congr 2
    exact map_congr_left fun c hc => by rw [hname c hc]
  · intro c hc
    rcases mem_append.mp hc with hc | hc
    · exact Nat.lt_of_lt_of_le (h.lt_size c hc) h'.classes_size
    · exact h'.lt_size c hc
  · intro c hc
    rcases mem_append.mp hc with hc | hc
    · rw [hname c hc]
      exact h.free c hc
    · exact h.lookupType_eq_none hl (h'.free c hc)
  · rw [map_append, nodup_append]
    refine ⟨hfirst ▸ h.nodup, h'.nodup, ?_⟩
    -- a name of the second run is free after the first, which has entered its own
    rintro _ hn _ hn' rfl
    obtain ⟨c, hc, hn⟩ := mem_map.mp hn
    obtain ⟨c', hc', hn'⟩ := mem_map.mp hn'
    have hfound := h.lookupType_name hl hc
    have hfree := h'.free c' hc'
    rw [hn', ← hn, hname c hc, hfound] at hfree
    cases hfree

/-- What was seen to stand around a class stays around it. -/
theorem nested_left (h : Entered path outer tbl mid cs) (h' : Entered path outer' mid tbl' cs') {e}
    (hc : c ∈ cs) (he : (tbl'.cls c).enclosing = some e) :
    outer = some e ∨ List.Sublist [e, c] (cs ++ cs') := by
  rw [(h'.head_eq c (h.lt_size c hc)).2] at he
  rcases h.nested c hc e he with hout | hsub
  · exact .inl hout
  · exact .inr (hsub.trans (sublist_append_left _ _))

theorem trans (hl : tbl.Lineal path) (h : Entered path outer tbl mid cs)
    (h' : Entered path outer mid tbl' cs') : Entered path outer tbl tbl' (cs ++ cs') := by
  refine h.join hl h' fun c hc e he => ?_
  rcases mem_append.mp hc with hc | hc
  · exact h.nested_left h' hc he
  · rcases h'.nested c hc e he with hout | hsub
    · exact .inl hout
    · exact .inr (hsub.trans (sublist_append_right _ _))

theorem registered (h : Entered path outer tbl tbl' cs) (hl : tbl.Lineal path)
    (hr : tbl.Registered path) : tbl'.Registered path := by
  have hmem (e : String × ClassId) (he : e ∈ (tbl'.path path).types) :
      e ∈ (tbl.path path).types ∨ ∃ c ∈ cs, e = ((tbl'.cls c).name, c) := by
    rw [← Array.mem_toList_iff, h.types_eq, mem_append, Array.mem_toList_iff] at he
    exact he.imp_right fun he => by
      obtain ⟨c, hc, rfl⟩ := mem_map.mp he
      exact ⟨c, hc, rfl⟩
  have hfree (c : ClassId) (hc : c ∈ cs) {q : ClassPath} (hq : q ∈ tbl.ancestors path ++
      [tbl.path path]) (e : String × ClassId) (he : e ∈ q.types) : e.1 ≠ (tbl'.cls c).name := by
    have hnone := h.free c hc
    rw [Table.lookupType, Table.pathChain_eq, findSome?_eq_none_iff] at hnone
    have hfind := ClassPath.find?_eq_none_of_ownType? (hnone q hq)
    simpa using Array.find?_eq_none.mp hfind e he
  refine ⟨?_, ?_, ?_, ?_⟩
  · intro e he
    rcases hmem e he with he | ⟨c, -, rfl⟩
    · rw [(h.head_eq e.2 (hr.entered e he)).1]
      exact hr.own_name e he
    · rfl
  · intro e he
    rcases hmem e he with he | ⟨c, hc, rfl⟩
    · exact Nat.lt_of_lt_of_le (hr.entered e he) h.classes_size
    · exact h.lt_size c hc
  · rw [h.types_eq, map_append, nodup_append, map_map]
    refine ⟨hr.nodup, h.nodup, ?_⟩
    rintro _ hn _ hn' rfl
    obtain ⟨e, he, rfl⟩ := mem_map.mp hn
    obtain ⟨c, hc, hname⟩ := mem_map.mp hn'
    exact hfree c hc (by simp) e (Array.mem_toList_iff.mp he) hname.symm
  · rw [h.ancestors_eq hl]
    intro e he q hq e' he'
    rcases hmem e he with he | ⟨c, hc, rfl⟩
    · exact hr.apart e he q hq e' he'
    · exact hfree c hc (mem_append_left _ hq) e' he'

end Entered

/-! ### Single steps -/

section Steps

variable {path : PathId} {tbl tbl' : Table}

theorem entered_modifyClass (tbl : Table) (c : ClassId) {f}
    (hf : ∀ d, (f d).name = d.name ∧ (f d).enclosing = d.enclosing) :
    Entered path outer tbl (tbl.modifyClass c f) [] := by
  refine .of_paths_eq rfl (fun _ _ => rfl) rfl rfl (by simp [Table.modifyClass]) fun c' _ => ?_
  simp only [Table.cls, Table.modifyClass, Array.getD_eq_getD_getElem?, Array.getElem?_modify]
  split
  · cases tbl.classes[c'.index]? with
    | none => exact ⟨rfl, rfl⟩
    | some d => exact hf d
  · exact ⟨rfl, rfl⟩

theorem entered_modifyPackage (tbl : Table) (p : PackageId) (f : PackageDecl → PackageDecl) :
    Entered path outer tbl (tbl.modifyPackage p f) [] :=
  .of_paths_eq rfl (fun _ _ => rfl) rfl rfl (Nat.le_refl _) fun _ _ => ⟨rfl, rfl⟩

theorem path_modifyPath_of_ne {q} (hq : q ≠ path) (f : ClassPath → ClassPath) :
    (tbl.modifyPath path f).path q = tbl.path q := by
  have hne : path.index ≠ q.index := fun h => hq (by cases path; cases q; cases h; rfl)
  simp [Table.path, Table.modifyPath, Array.getElem?_modify, hne]

theorem path_modifyPath_self (hpath : path.index < tbl.paths.size) (f : ClassPath → ClassPath) :
    (tbl.modifyPath path f).path path = f (tbl.path path) := by
  simp only [Table.path, Table.modifyPath, Array.getD_eq_getD_getElem?, Array.getElem?_modify,
    if_true, Array.getElem?_eq_getElem hpath, Option.map_some, Option.getD_some]

theorem entered_definePackage (hl : tbl.Lineal path) (name : Name) :
    Entered path outer tbl (tbl.definePackage path name).2 [] := by
  unfold Table.definePackage
  split
  · exact .refl tbl
  · have hsize : path.index < (tbl.addPackage { name, path := some path }).2.paths.size :=
      hl.lt_size
    refine .of_paths_eq ?_ (fun q hq => path_modifyPath_of_ne hq _) ?_ ?_ (Nat.le_refl _)
      fun _ _ => ⟨rfl, rfl⟩
    · simp [Table.modifyPath, Table.addPackage]
    · exact congrArg (·.parent) (path_modifyPath_self hsize _)
    · exact congrArg (·.types) (path_modifyPath_self hsize _)

/-- What registering a class does to the table. -/
theorem register_eq_ok (h : tbl.register path d = .ok (c, tbl')) :
    tbl.lookupType path d.name = none ∧ c.index = tbl.classes.size ∧
      tbl'.classes = tbl.classes.push d ∧
      tbl'.paths = (tbl.modifyPath path fun p =>
        { p with types := p.types.push (d.name, c) }).paths := by
  unfold Table.register at h
  split at h
  · cases h
  · cases h
    exact ⟨‹_›, rfl, rfl, rfl⟩

theorem cls_of_register (h : tbl.register path d = .ok (c, tbl')) (c' : ClassId) :
    c' = c ∧ tbl'.cls c' = d ∨ c' ≠ c ∧ tbl'.cls c' = tbl.cls c' := by
  obtain ⟨-, hc, hclasses, -⟩ := register_eq_ok h
  by_cases hc' : c' = c
  · subst hc'
    exact .inl ⟨rfl, by simp [Table.cls, hclasses, hc]⟩
  · have hne : c'.index ≠ tbl.classes.size := by
      intro heq
      exact hc' (congrArg ClassId.mk (heq.trans hc.symm))
    exact .inr ⟨hc', by simp [Table.cls, hclasses, Array.getElem?_push, hne]⟩

/-- Refining a class leaves the other ones alone, and does nothing where there is no class. -/
theorem cls_modifyClass (tbl : Table) (c : ClassId) (f : ClassDecl → ClassDecl) (c' : ClassId) :
    c' = c ∧ c.index < tbl.classes.size ∧ (tbl.modifyClass c f).cls c' = f (tbl.cls c') ∨
      (c' ≠ c ∨ tbl.classes.size ≤ c.index) ∧ (tbl.modifyClass c f).cls c' = tbl.cls c' := by
  simp only [Table.cls, Table.modifyClass, Array.getD_eq_getD_getElem?, Array.getElem?_modify]
  by_cases hc' : c' = c
  · subst hc'
    by_cases hlt : c'.index < tbl.classes.size
    · exact .inl ⟨rfl, hlt, by simp [hlt]⟩
    · exact .inr ⟨.inr (Nat.le_of_not_lt hlt), by simp [hlt]⟩
  · have hne : c.index ≠ c'.index := by
      intro heq
      exact hc' (congrArg ClassId.mk heq.symm)
    exact .inr ⟨.inl hc', by simp [hne]⟩

theorem entered_register (hl : tbl.Lineal path) (h : tbl.register path d = .ok (c, tbl')) :
    Entered path d.enclosing tbl tbl' [c] := by
  obtain ⟨hfree, hc, hclasses, hpaths⟩ := register_eq_ok h
  have hpath (q : PathId) := congrArg (·.getD q.index default) hpaths
  have hself : tbl'.path path =
      { tbl.path path with types := (tbl.path path).types.push (d.name, c) } :=
    (hpath path).trans (path_modifyPath_self hl.lt_size _)
  have hmade : tbl'.cls c = d := by simp [Table.cls, hclasses, hc]
  refine ⟨?_, fun c' hc' => ?_, ?_, fun q hq => (hpath q).trans (path_modifyPath_of_ne hq _),
    by rw [hself], ?_, ?_, ?_, ?_, ?_⟩
  · simp [hclasses]
  · simp [Table.cls, hclasses, Array.getElem?_push, Nat.ne_of_lt hc']
  · simp [hpaths, Table.modifyPath]
  · simp [hself, hmade]
  · simp [hclasses, hc]
  · simpa [hmade] using hfree
  · simp
  · rintro c' hc' e he
    cases mem_singleton.mp hc'
    rw [hmade] at he
    exact .inl he

end Steps

/-! ### Answers of computations -/

namespace Loading

variable {β : Type} {tbl tbl' : Table}

theorem bind_eq_ok {f : α → Loading β} {b} :
    (x >>= f).run.run tbl = (.ok b, tbl') ↔
      ∃ a mid, x.run.run tbl = (.ok a, mid) ∧ (f a).run.run mid = (.ok b, tbl') := by
  rw [run_bind]
  rcases x.run.run tbl with ⟨e | a, mid⟩
  · constructor
    · intro h
      cases h
    · rintro ⟨_, _, h, _⟩
      cases h
  · constructor
    · exact fun h => ⟨a, mid, rfl, h⟩
    · rintro ⟨_, _, h, hb⟩
      cases h
      exact hb

theorem pure_eq_ok {b} :
    (pure a : Loading α).run.run tbl = (.ok b, tbl') ↔ a = b ∧ tbl = tbl' := by
  change (Except.ok a, tbl) = (Except.ok b, tbl') ↔ _
  rw [Prod.mk.injEq, Except.ok.injEq]

theorem lift_eq_ok {r : Result α} :
    (liftM r : Loading α).run.run tbl = (.ok a, tbl') ↔ r = .ok a ∧ tbl = tbl' := by
  change (r, tbl) = (Except.ok a, tbl') ↔ _
  rw [Prod.mk.injEq]

/-- What can become of a computation: it fails and leaves a table such as `F` says, or it answers as
`P` says. -/
def Leads (x : Loading α) (tbl : Table) (F : Table → Prop) (P : α → Table → Prop) : Prop :=
  match x.run.run tbl with
  | (.error _, tbl') => F tbl'
  | (.ok a, tbl') => P a tbl'

namespace Leads

variable {F : Table → Prop}

theorem of_eq_ok {P : α → Table → Prop} (h : Leads x tbl F P)
    (hrun : x.run.run tbl = (.ok a, tbl')) : P a tbl' := by
  rwa [Leads, hrun] at h

theorem mono {F' : Table → Prop} {P P' : α → Table → Prop} (h : Leads x tbl F P)
    (hF : ∀ tbl, F tbl → F' tbl) (hP : ∀ a tbl, P a tbl → P' a tbl) : Leads x tbl F' P' := by
  revert h
  rw [Leads, Leads]
  rcases x.run.run tbl with ⟨e | a, tbl'⟩
  · exact hF tbl'
  · exact hP a tbl'

theorem of_maintains {I : Table → Prop} {post : α → Prop} (h : Maintains I x post) (htbl : I tbl) :
    Leads x tbl I fun a tbl' => I tbl' ∧ post a := by
  have hx := h tbl htbl
  revert hx
  rw [Leads]
  rcases x.run.run tbl with ⟨e | a, tbl'⟩
  · exact fun hx => hx.1
  · exact fun hx => ⟨hx.1, hx.2 a rfl⟩

theorem lift {r : Result α} (h : F tbl) :
    Leads (liftM r) tbl F fun a tbl' => tbl' = tbl ∧ r = .ok a := by
  cases r with
  | error e => exact h
  | ok a => exact ⟨rfl, rfl⟩

theorem bind {f : α → Loading β} {P : β → Table → Prop} {M : α → Table → Prop}
    (hx : Leads x tbl F M) (hf : ∀ a tbl, M a tbl → Leads (f a) tbl F P) :
    Leads (x >>= f) tbl F P := by
  rw [Leads, run_bind]
  rw [Leads] at hx
  revert hx
  rcases x.run.run tbl with ⟨e | a, mid⟩
  · exact id
  · exact hf a mid

/-- What stands side by side is gone through one after the other, and each part adds to a list. -/
theorem mapM {γ : Type} {I : Table → List γ → Prop} {f : α → Loading β} (news : β → List γ)
    {Q : β → Prop} {as : List α} (hf : ∀ a ∈ as, ∀ tbl cs, I tbl cs →
      Leads (f a) tbl F fun b tbl' => I tbl' (cs ++ news b) ∧ Q b) {cs} (h : I tbl cs) :
    Leads (as.mapM f) tbl F fun bs tbl' => I tbl' (cs ++ bs.flatMap news) ∧ ∀ b ∈ bs, Q b := by
  induction as generalizing tbl cs with
  | nil => exact ⟨by simpa using h, forall_mem_nil _⟩
  | cons a as ih =>
    rw [mapM_cons]
    refine (hf a mem_cons_self tbl cs h).bind fun b mid ⟨hmid, hb⟩ => ?_
    refine (ih (fun a' ha' => hf a' (mem_cons_of_mem _ ha')) hmid).bind
      fun bs last ⟨hlast, hbs⟩ => ?_
    rw [append_assoc] at hlast
    exact ⟨hlast, forall_mem_cons.mpr ⟨hb, hbs⟩⟩

end Leads

end Loading

/-! ### The two passes -/

section Passes

variable {path : PathId} {tbl tbl' : Table}

/-- What the declaration of a class is when the class is entered: its name is made from its simple
name and what is around it, its type parameters have names only, and its body is empty. -/
structure IsHeader (tbl : Table) (path : PathId) (package : PackageId)
    (enclosing : Option ClassId) (d : ClassDecl) : Prop where
  isPrimitive_eq : d.isPrimitive = false
  enclosing_eq : d.enclosing = enclosing
  package_eq : d.package = some package
  enclosingExecutable_eq : d.enclosingExecutable = none
  name_eq : fullName tbl path (tbl.package package).name enclosing d.nesting
    d.simpleName = .ok d.name
  parameters : ∀ v ∈ d.typeParameters, v.bounds = [] ∧
    ∃ text bounds, Signature.splitTypeParameter text tbl.words = .ok (v.name, bounds)
  supertypes : d.superclass = none ∧ d.interfaces = []
  members : d.fields = [] ∧ d.constructors = [] ∧ d.methods = [] ∧ d.memberClasses = []

theorem isHeader_of_classHeader (h : classHeader tbl path package enclosing entry = .ok d) :
    IsHeader tbl path package enclosing d := by
  obtain ⟨kind, -, h⟩ := bind_eq_ok.mp h
  obtain ⟨nesting, -, h⟩ := bind_eq_ok.mp h
  obtain ⟨name, hname, h⟩ := bind_eq_ok.mp h
  by_cases hnamed : ((Name.mk ((entry.get? "name").getD (.text ""))).isEmpty &&
      decide (nesting ≠ .anonymous)) = true
  · rw [if_pos hnamed] at h
    cases h
  · rw [if_neg hnamed] at h
    obtain ⟨flags, -, h⟩ := bind_eq_ok.mp h
    obtain ⟨keywords, hkeywords, h⟩ := bind_eq_ok.mp h
    obtain ⟨items, -, h⟩ := bind_eq_ok.mp h
    obtain ⟨parameters, hparameters, h⟩ := bind_eq_ok.mp h
    cases h
    have hkind : kind ≠ .primitive := by
      rintro rfl
      cases hkeywords
    refine ⟨beq_false_of_ne hkind, rfl, rfl, rfl, hname, fun v hv => ?_, ⟨rfl, rfl⟩,
      ⟨rfl, rfl, rfl, rfl⟩⟩
    obtain ⟨item, -, hv⟩ := exists_of_forall₂_right (mapM_eq_ok.mp hparameters) hv
    obtain ⟨text, -, hv⟩ := bind_eq_ok.mp hv
    obtain ⟨⟨name, bounds⟩, hsplit, hv⟩ := bind_eq_ok.mp hv
    cases hv
    exact ⟨rfl, text, bounds, hsplit⟩

theorem isHeader_of_checkedHeader (h : checkedHeader tbl path package enclosing entry = .ok d) :
    IsHeader tbl path package enclosing d := by
  unfold checkedHeader at h
  by_cases hobject : entry.isObject = true
  · rw [if_pos hobject] at h
    obtain ⟨d, hd, h⟩ := bind_eq_ok.mp h
    split at h
    · obtain ⟨-, -, h⟩ := bind_eq_ok.mp h
      cases h
      exact isHeader_of_classHeader hd
    · cases h
      exact isHeader_of_classHeader hd
  · rw [if_neg hobject] at h
    cases h

/-- The table in which a class is made known to the class around it, if it is a member. -/
def attachTo (tbl : Table) (enclosing : Option ClassId) (nesting : Nesting) (c : ClassId) : Table :=
  match enclosing with
  | some e =>
    if nesting = .member then
      tbl.modifyClass e fun d => { d with memberClasses := d.memberClasses ++ [c] }
    else tbl
  | none => tbl

theorem leads_attachMember {F} (enclosing : Option ClassId) (nesting : Nesting) (c : ClassId) :
    Loading.Leads (attachMember enclosing nesting c) tbl F fun _ tbl' =>
      tbl' = attachTo tbl enclosing nesting c := by
  unfold attachMember attachTo
  split
  · split
    · rfl
    · rfl
  · rfl

/-- What all refinements of classes keep, attaching a class to the class around it keeps. -/
theorem attachTo_induction {P : Table → Prop} (h : P tbl) (enclosing : Option ClassId)
    (nesting : Nesting) (c : ClassId) (hP : ∀ e, P (tbl.modifyClass e fun d =>
      { d with memberClasses := d.memberClasses ++ [c] })) :
    P (attachTo tbl enclosing nesting c) := by
  unfold attachTo
  split
  · split
    · exact hP _
    · exact h
  · exact h

/-- The tables that the first pass over documents goes through, with the packages that it has come
to and the classes that it has entered. -/
inductive Entries (path : PathId) (base : Table) : Table → List PackageId → List ClassId → Prop
  | start : Entries path base base [] []
  | package {tbl ps cs} (h : Entries path base tbl ps cs) (name : Name) :
    Entries path base (tbl.definePackage path name).2 ((tbl.definePackage path name).1 :: ps) cs
  /-- A class is entered in one of these packages, if inside a class then inside one of these. -/
  | enter {tbl mid ps cs package d c} (h : Entries path base tbl ps cs)
    (hheader : IsHeader tbl path package d.enclosing d) (hpackage : package ∈ ps)
    (henclosing : ∀ e ∈ d.enclosing, e ∈ cs) (hregister : tbl.register path d = .ok (c, mid)) :
    Entries path base (attachTo mid d.enclosing d.nesting c) ps (cs ++ [c])
  /-- The enum constants of a class are listed. -/
  | list {tbl ps cs c} (h : Entries path base tbl ps cs) (constants : List Datum) :
    Entries path base (tbl.modifyClass c fun d =>
      { d with fields := constants.map (enumConstant c) }) ps cs

/-- The first pass has come so far. -/
def Entering (path : PathId) (base tbl : Table) : Prop :=
  ∃ ps cs, Entries path base tbl ps cs

/-- The first pass has come to the package. -/
def EntersIn (path : PathId) (base : Table) (package : PackageId) (tbl : Table)
    (cs : List ClassId) : Prop :=
  ∃ ps, package ∈ ps ∧ Entries path base tbl ps cs

theorem EntersIn.entering {base} (h : EntersIn path base package tbl cs) : Entering path base tbl :=
  h.imp fun _ h => ⟨cs, h.2⟩

theorem entries_declareOne {base} {outer : Scope} (h : EntersIn path base package tbl cs)
    (henclosing : ∀ e ∈ enclosing, e ∈ cs) :
    Loading.Leads (declareOne path package entry enclosing outer) tbl (Entering path base)
      fun made tbl' => EntersIn path base package tbl' (cs ++ [made.cls]) ∧
        made.scope.path = outer.path := by
  change Loading.Leads (liftM (checkedHeader tbl path package enclosing entry) >>= _) tbl _ _
  refine (Loading.Leads.lift h.entering).bind fun header _ ⟨heq, hheader⟩ => ?_
  subst heq
  have hheader := isHeader_of_checkedHeader hheader
  obtain rfl := hheader.enclosing_eq
  change Loading.Leads (liftM (Table.register _ path header) >>= _) _ _ _
  refine (Loading.Leads.lift h.entering).bind fun ⟨c, mid⟩ _ ⟨_, hregister⟩ => ?_
  change Loading.Leads (attachMember header.enclosing header.nesting c >>= _) mid _ _
  refine (leads_attachMember _ _ c).bind fun _ _ heq => ?_
  subst heq
  obtain ⟨ps, hpackage, h⟩ := h
  have hentered := h.enter hheader hpackage henclosing hregister
  refine (Loading.Leads.lift ⟨ps, _, hentered⟩).bind fun constants _ ⟨heq, _⟩ => ?_
  subst heq
  exact ⟨⟨ps, hpackage, hentered.list constants⟩, rfl⟩

/-- The first pass over an entry enters the classes that it hands on, in this order: by induction
on the depth of nesting, a class and then, inside it, what its entry holds. -/
theorem entries_declare {base} {fuel : Nat} {outer : Scope}
    (h : EntersIn path base package tbl cs) (henclosing : ∀ e ∈ enclosing, e ∈ cs) :
    Loading.Leads (declare path package fuel entry enclosing outer) tbl (Entering path base)
      fun ps tbl' => EntersIn path base package tbl' (cs ++ ps.map (·.cls)) ∧
        ∀ p ∈ ps, p.scope.path = outer.path := by
  induction fuel generalizing entry enclosing outer tbl cs with
  | zero => exact h.entering
  | succ fuel ih =>
    refine (entries_declareOne h henclosing).bind fun made mid ⟨hmid, hscope⟩ => ?_
    refine (Loading.Leads.lift hmid.entering).bind fun entries _ ⟨heq, _⟩ => ?_
    subst heq
    refine (Loading.Leads.mapM (I := fun tbl cs => EntersIn path base package tbl cs ∧
      made.cls ∈ cs)
      (fun ps : List Pending => ps.map (·.cls)) (Q := fun ps => ∀ p ∈ ps, p.scope.path = outer.path)
      (fun d _ tbl cs hI => ?_) ⟨hmid, by simp⟩).bind fun inner last ⟨⟨hlast, _⟩, hscopes⟩ => ?_
    · have hin : ∀ e ∈ some made.cls, e ∈ cs := by
        rintro e ⟨⟩
        exact hI.2
      refine (ih hI.1 hin).mono (fun _ => id) fun ps tbl' ⟨h, hscopes⟩ =>
        ⟨⟨h, mem_append_left _ hI.2⟩, fun p hp => ?_⟩
      exact (hscopes p hp).trans hscope
    · refine ⟨by simpa [map_flatten, flatMap] using hlast,
        forall_mem_cons.mpr ⟨hscope, fun p hp => ?_⟩⟩
      obtain ⟨ps, hps, hp⟩ := mem_flatten.mp hp
      exact hscopes ps hps p hp

/-- The first pass over documents. -/
theorem entries_openDocuments (path : PathId) (base : Table) (documents : List Datum) :
    Loading.Leads (documents.mapM (openDocument path)) base (Entering path base) fun opened tbl' =>
      (∃ ps, Entries path base tbl' ps ((opened.flatMap (·.2)).map (·.cls))) ∧
        ∀ o ∈ opened, ∀ p ∈ o.2, p.scope.path = path := by
  simp only [map_flatMap]
  refine Loading.Leads.mapM (I := fun tbl cs => ∃ ps, Entries path base tbl ps cs)
    (fun o : Opened × List Pending => o.2.map (·.cls)) (fun document _ tbl cs ⟨ps, h⟩ => ?_)
    ⟨[], .start⟩
  refine (Loading.Leads.lift ⟨ps, cs, h⟩).bind fun name _ ⟨heq, _⟩ => ?_
  subst heq
  have hmade := h.package name
  change Loading.Leads (liftM (items document "imports") >>= _)
    (Table.definePackage _ path name).2 _ _
  refine (Loading.Leads.lift ⟨_, _, hmade⟩).bind fun imports _ ⟨heq, _⟩ => ?_
  subst heq
  refine (Loading.Leads.lift ⟨_, _, hmade⟩).bind fun entries _ ⟨heq, _⟩ => ?_
  subst heq
  refine (Loading.Leads.mapM (I := EntersIn path base _)
    (Q := fun ps => ∀ p ∈ ps, p.scope.path = path) (fun ps : List Pending => ps.map (·.cls))
    (fun d _ tbl cs hI => entries_declare hI (by rintro e ⟨⟩)) ⟨_, mem_cons_self, hmade⟩).bind
    fun declared last ⟨⟨ps, _, hlast⟩, hscopes⟩ => ?_
  refine ⟨⟨ps, by simpa [map_flatten, flatMap] using hlast⟩, fun p hp => ?_⟩
  obtain ⟨ps, hps, hp⟩ := mem_flatten.mp hp
  exact hscopes ps hps p hp

/-- The first pass registers the classes that it enters. -/
theorem Entries.entered {base ps} (h : Entries path base tbl ps cs) (hl : base.Lineal path) :
    Entered path none base tbl cs := by
  have hrefine {tbl : Table} {cs} (h : Entered path none base tbl cs) (e : ClassId) {f}
      (hf : ∀ d, (f d).name = d.name ∧ (f d).enclosing = d.enclosing) :
      Entered path none base (tbl.modifyClass e f) cs := by
    simpa using h.trans hl (entered_modifyClass tbl e hf)
  induction h with
  | start => exact .refl base
  | @package tbl ps cs _ name ih =>
    simpa using ih.trans hl (entered_definePackage (ih.lineal hl) name)
  | @enter tbl mid ps cs package d c _ hheader _ henclosing hregister ih =>
    have hregistered := entered_register (ih.lineal hl) hregister
    have hadded : Entered path none base mid (cs ++ [c]) := by
      refine ih.join hl hregistered fun c' hc' e he => ?_
      rcases mem_append.mp hc' with hc' | hc'
      · exact ih.nested_left hregistered hc' he
      · rcases hregistered.nested c' hc' e he with hout | hsub
        · cases mem_singleton.mp hc'
          exact .inr ((singleton_sublist.mpr (henclosing e hout)).append (.refl [c]))
        · exact .inr (hsub.trans (sublist_append_right _ _))
    exact attachTo_induction (P := (Entered path none base · (cs ++ [c]))) hadded
      d.enclosing d.nesting c fun e => hrefine hadded e fun _ => ⟨rfl, rfl⟩
  | list _ _ ih => exact hrefine ih _ fun _ => ⟨rfl, rfl⟩

/-- The first pass has come to its end with these classes. What reading their bodies and annotating
packages keep, the table has if it was so at that time. -/
def Completing (path : PathId) (base : Table) (pending : List Pending) (tbl : Table) : Prop :=
  ∃ first ps, Entries path base first ps (pending.map (·.cls)) ∧
    (∀ p ∈ pending, p.scope.path = path) ∧
    ∀ I : Table → Prop, (∀ p ∈ pending, Maintains I (define p) fun _ => True) →
      (∀ tbl p uses, I tbl → I (tbl.modifyPackage p fun d =>
        { d with annotations := d.annotations ++ uses })) → I first → I tbl

/-- What becomes of a load of documents: it fails in the first pass or in the second, or completes
both. -/
theorem leads_loadDocuments (path : PathId) (base : Table) (documents : List Datum) :
    Loading.Leads (loadDocuments path documents) base
      (fun tbl => Entering path base tbl ∨ ∃ pending, Completing path base pending tbl)
      fun cs tbl => ∃ pending, cs = pending.map (·.cls) ∧ Completing path base pending tbl := by
  refine Loading.Leads.bind (M := fun r tbl => ∃ pending, r.2 = pending.map (·.cls) ∧
    Completing path base pending tbl) ?_ fun ⟨marks, cs⟩ mid ⟨pending, hcs, hmid⟩ => ?_
  · refine ((entries_openDocuments path base documents).mono (fun _ => .inl) fun _ _ => id).bind
      fun opened first ⟨⟨ps, hentries⟩, hscopes⟩ => ?_
    have hfirst : Completing path base (opened.flatMap (·.2)) first := by
      refine ⟨first, ps, hentries, fun p hp => ?_, fun I _ _ h => h⟩
      obtain ⟨o, ho, hp⟩ := mem_flatMap.mp hp
      exact hscopes o ho p hp
    have hfails (tbl : Table) (h : Completing path base (opened.flatMap (·.2)) tbl) :
        Entering path base tbl ∨ ∃ pending, Completing path base pending tbl :=
      .inr ⟨_, h⟩
    have hdefine : ∀ p ∈ opened.flatMap (·.2),
        Maintains (Completing path base (opened.flatMap (·.2))) (define p) fun _ => True := by
      rintro p hp tbl ⟨first, ps, hentries, hscopes, hkeeps⟩
      refine ⟨⟨first, ps, hentries, hscopes, fun I hI hannotate h => ?_⟩, fun _ _ => trivial⟩
      exact (hI p hp tbl (hkeeps I hI hannotate h)).1
    refine ((Loading.Leads.of_maintains (maintains_packageMarks opened) hfirst).mono hfails
      fun _ _ => id).bind fun marks mid hmid => ?_
    exact ((Loading.Leads.of_maintains (Maintains.forM _ hdefine) hmid.1).mono hfails
      fun _ _ => id).bind fun _ last hlast => ⟨_, rfl, hlast.1⟩
  · change Loading.Leads ((marks.forM fun mark => annotatePackage mark.1 mark.2) >>=
      fun _ => pure cs) mid _ _
    refine ((Loading.Leads.of_maintains (I := Completing path base pending)
      (Maintains.forM marks fun mark _ => Maintains.modifying fun tbl h => ?_) hmid).mono
      (fun _ h => .inr ⟨_, h⟩) fun _ _ => id).bind fun _ last hlast => ⟨pending, hcs, hlast.1⟩
    obtain ⟨first, ps, hentries, hscopes, hkeeps⟩ := h
    exact ⟨first, ps, hentries, hscopes, fun I hI hannotate h =>
      hannotate tbl mark.1 mark.2 (hkeeps I hI hannotate h)⟩

theorem completing_of_loadDocuments {base}
    (h : (loadDocuments path documents).run.run base = (.ok cs, tbl)) :
    ∃ pending, cs = pending.map (·.cls) ∧ Completing path base pending tbl :=
  (leads_loadDocuments path base documents).of_eq_ok h

/-- A load of documents enters the classes that it gives. -/
theorem entered_loadDocuments (hl : tbl.Lineal path)
    (h : (loadDocuments path documents).run.run tbl = (.ok cs, tbl')) :
    Entered path none tbl tbl' cs := by
  obtain ⟨pending, rfl, first, ps, hentries, -, hrest⟩ := completing_of_loadDocuments h
  refine hrest (Entered path none tbl · _) (fun p _ => maintains_define fun t f hf ht => ?_)
    (fun t p uses ht => ?_) (hentries.entered hl)
  · simpa using ht.trans hl (entered_modifyClass t p.cls fun d =>
      ⟨ClassDecl.eq_of_head_eq (hf d) (·.name) fun _ => rfl,
        ClassDecl.eq_of_head_eq (hf d) (·.enclosing) fun _ => rfl⟩)
  · simpa using ht.trans hl (entered_modifyPackage t p _)

theorem eq_ok_of_rollingBack (h : (rollingBack path x).run.run tbl = (.ok a, tbl')) :
    x.run.run tbl = (.ok a, tbl') := by
  rw [Loading.run_rollingBack] at h
  rcases hx : x.run.run tbl with ⟨e | b, mid⟩
  · rw [hx] at h
    cases h
  · rwa [hx] at h

end Passes

/-! ### Loads -/

section Loads

variable {path : PathId} {tbl tbl' : Table}

theorem entered_of_load (hl : tbl.Lineal path) (h : tbl.load path documents = (.ok cs, tbl')) :
    Entered path none tbl tbl' cs :=
  entered_loadDocuments hl (eq_ok_of_rollingBack h)

theorem entered_of_loadJson (hl : tbl.Lineal path) {text : String}
    (h : tbl.loadJson path text = (.ok cs, tbl')) : Entered path none tbl tbl' cs := by
  have hrun := eq_ok_of_rollingBack h
  simp only [Loading.bind_eq_ok, Loading.lift_eq_ok] at hrun
  obtain ⟨documents, _, ⟨-, rfl⟩, hload⟩ := hrun
  exact entered_loadDocuments hl hload

/-- Putting back what the class path registered undoes all that a load has entered. -/
theorem Grown.entered_restore {base} (h : Grown base path tbl) :
    Entered path none base (tbl.modifyPath path fun p =>
      { p with types := (base.path path).types, packages := (base.path path).packages }) [] := by
  have hkept := h.restore
  have hpath (q : PathId) := congrArg (·.getD q.index default) hkept.paths
  exact .of_paths_eq (congrArg (·.size) hkept.paths) (fun q _ => hpath q)
    (congrArg (·.parent) (hpath path)) (congrArg (·.types) (hpath path)) h.classes_size
    fun c hc => ⟨congrArg (·.name) (hkept.classes c hc),
    congrArg (·.enclosing) (hkept.classes c hc)⟩

/-- A load enters some classes, and none if it fails. -/
theorem exists_entered_rollingBack {x} (hfails : FailsGrown path x)
    (hx : ∀ cs tbl', x.run.run tbl = (.ok cs, tbl') → Entered path none tbl tbl' cs) :
    ∃ cs, Entered path none tbl ((rollingBack path x).run.run tbl).2 cs := by
  rw [Loading.run_rollingBack]
  rcases hrun : x.run.run tbl with ⟨e | cs, tbl'⟩
  · exact ⟨[], (hfails tbl e tbl' hrun).entered_restore⟩
  · exact ⟨cs, hx cs tbl' hrun⟩

end Loads

end Stub

/-! ### Sequences of calls -/

/-- A call that changes what a class path registers. -/
inductive RegistryCall where
  | load (documents : List Datum)
  | loadJson (text : String)
  | definePackage (name : Name)
  /-- A class is registered by itself, as the stand-ins for the primitive types are. -/
  | register (d : ClassDecl)

namespace RegistryCall

variable {path : PathId} {tbl : Table}

/-- The table after a call on the class path, whether or not the call succeeds. -/
def perform (path : PathId) (tbl : Table) : RegistryCall → Table
  | load documents => (tbl.load path documents).2
  | loadJson text => (tbl.loadJson path text).2
  | definePackage name => (tbl.definePackage path name).2
  | register d =>
    match tbl.register path d with
    | .ok (_, tbl') => tbl'
    | .error _ => tbl

/-- The table after a sequence of calls on the class path. -/
def run (path : PathId) (tbl : Table) (calls : List RegistryCall) : Table :=
  calls.foldl (perform path) tbl

theorem exists_entered (hl : tbl.Lineal path) (call : RegistryCall) :
    ∃ outer cs, Stub.Entered path outer tbl (call.perform path tbl) cs := by
  cases call with
  | load documents =>
    exact ⟨none, Stub.exists_entered_rollingBack (Stub.failsGrown_loadDocuments documents)
      fun cs tbl' h => Stub.entered_loadDocuments hl h⟩
  | loadJson text =>
    refine ⟨none, Stub.exists_entered_rollingBack
      (Stub.FailsGrown.lift_bind _ Stub.failsGrown_loadDocuments) fun cs tbl' h => ?_⟩
    simp only [Stub.Loading.bind_eq_ok, Stub.Loading.lift_eq_ok] at h
    obtain ⟨documents, _, ⟨-, rfl⟩, hload⟩ := h
    exact Stub.entered_loadDocuments hl hload
  | definePackage name => exact ⟨none, [], Stub.entered_definePackage hl name⟩
  | register d =>
    simp only [perform]
    split
    · exact ⟨d.enclosing, _, Stub.entered_register hl ‹_›⟩
    · exact ⟨none, [], .refl tbl⟩

/-- What all calls keep holds after a sequence of them. -/
theorem run_induction {P : Table → Prop}
    (hstep : ∀ tbl tbl' outer cs, P tbl → Stub.Entered path outer tbl tbl' cs → P tbl')
    (hP : ∀ tbl, P tbl → tbl.Lineal path) (calls : List RegistryCall) (h : P tbl) :
    P (run path tbl calls) := by
  induction calls generalizing tbl with
  | nil => exact h
  | cons call calls ih =>
    obtain ⟨outer, cs, hentered⟩ := call.exists_entered (hP tbl h)
    exact ih (hstep _ _ outer cs h hentered)

theorem lineal_run (calls : List RegistryCall) (hl : tbl.Lineal path) :
    (run path tbl calls).Lineal path :=
  run_induction (fun _ _ _ _ hl h => h.lineal hl) (fun _ hl => hl) calls hl

theorem registered_run (calls : List RegistryCall) (hl : tbl.Lineal path)
    (hr : tbl.Registered path) : (run path tbl calls).Registered path :=
  (run_induction (P := fun tbl => tbl.Lineal path ∧ tbl.Registered path)
    (fun _ _ _ _ hP h => ⟨h.lineal hP.1, h.registered hP.1 hP.2⟩) (fun _ hP => hP.1) calls
    ⟨hl, hr⟩).2

/-- A name that led to a class leads to it after any calls. -/
theorem lookupType_run (calls : List RegistryCall) (hl : tbl.Lineal path)
    (hc : tbl.lookupType path name = some c) : (run path tbl calls).lookupType path name = some c :=
  (run_induction (P := fun tbl => tbl.Lineal path ∧ tbl.lookupType path name = some c)
    (fun _ _ _ _ hP h => ⟨h.lineal hP.1, h.lookupType_eq_some hP.1 hP.2⟩) (fun _ hP => hP.1) calls
    ⟨hl, hc⟩).2

/-- On the way from one table to the other the class path has come to list the given classes after
those that it listed, each after the class around it, and each is found by its name. -/
structure Extends (path : PathId) (tbl tbl' : Table) (cs : List ClassId) : Prop where
  classesOn_eq : tbl'.classesOn path = tbl.classesOn path ++ cs
  enclosing_before : ∀ c ∈ cs, ∀ e, (tbl'.cls c).enclosing = some e → List.Sublist [e, c] cs
  lookupType_name : ∀ c ∈ cs, tbl'.lookupType path (tbl'.cls c).name = some c

theorem extends_of_entered {tbl'} (hl : tbl.Lineal path) (h : Stub.Entered path none tbl tbl' cs) :
    Extends path tbl tbl' cs where
  classesOn_eq := by simp [Table.classesOn, h.types_eq, Function.comp_def]
  enclosing_before c hc e he := (h.nested c hc e he).resolve_left (by simp)
  lookupType_name c hc := h.lookupType_name hl hc

/-- Let a class path start out empty, on top of any ancestors. After any calls its registry is in
order, and further calls do not change where a name leads. A load that then succeeds extends the
list of classes by those that it gives. -/
theorem registry_run (base : Table) (path : PathId) (hl : base.Lineal path)
    (hempty : (base.path path).types = #[]) (before after : List RegistryCall) :
    let tbl := run path base before
    tbl.Registered path ∧
      (∀ name c, tbl.lookupType path name = some c →
        (run path tbl after).lookupType path name = some c) ∧
      (∀ documents cs tbl', tbl.load path documents = (.ok cs, tbl') → Extends path tbl tbl' cs) ∧
      ∀ text cs tbl', tbl.loadJson path text = (.ok cs, tbl') → Extends path tbl tbl' cs := by
  intro tbl
  have hl' : tbl.Lineal path := lineal_run before hl
  have hr : base.Registered path := by constructor <;> simp [hempty]
  refine ⟨registered_run before hl hr, fun name c => lookupType_run after hl', ?_, ?_⟩
  · intro documents cs tbl' h
    exact extends_of_entered hl' (Stub.entered_of_load hl' h)
  · intro text cs tbl' h
    exact extends_of_entered hl' (Stub.entered_of_loadJson hl' h)

set_option maxRecDepth 20000 in
/-- An interface with a member. Neither a load of the same interface nor registering a class under
the binary name of the member takes that name away. -/
theorem registry_run_member :
    let base : Table := (Table.addPath { paths := #[{}] } { parent := some ⟨0⟩ }).2
    let documents := [.object [("package", .text "p"), ("types", .list
      [Stub.interfaceEntry "C" [] [("types", .list [Stub.interfaceEntry "I" [] []])]])]]
    let before := [.definePackage "p", .load documents]
    let after := [.load documents,
      .register { name := "p.C$I", simpleName := "C$I", kind := .cls }]
    (run ⟨1⟩ base before).lookupType ⟨1⟩ "p.C$I" = some ⟨1⟩ ∧
      (run ⟨1⟩ (run ⟨1⟩ base before) after).lookupType ⟨1⟩ "p.C$I" = some ⟨1⟩ := by
  intro base documents before after
  have hsole : Table.Lineal { paths := #[{}] } ⟨0⟩ := by
    refine ⟨by decide, fun q parent h => ?_⟩
    obtain ⟨_ | n⟩ := q
    · cases h
    · cases h
  have hl : base.Lineal ⟨1⟩ := hsole.addPath
  have hmember : (run ⟨1⟩ base before).lookupType ⟨1⟩ "p.C$I" = some ⟨1⟩ := by cbv
  exact ⟨hmember, (registry_run base ⟨1⟩ hl rfl before after).2.1 _ _ hmember⟩

end RegistryCall

end NominalTypes
