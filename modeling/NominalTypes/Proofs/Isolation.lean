import NominalTypes.Proofs.Registry

/-!
# What calls on a class path change elsewhere

A class path sees what its ancestors register, and its loads find packages there. No call on a class
path changes what another class path registers, or any class that is older than the call. Packages
that are older keep their names, but a load attaches the annotations of its documents to them,
whoever made them: `Table.Spared` describes the tables that calls lead to, and
`RegistryCall.Annotates` the calls that leave a trace in an older package.
-/

namespace NominalTypes

open List

variable {documents : List Datum} {cs : List ClassId}

/-- The package with further annotations. -/
def PackageDecl.annotated (d : PackageDecl) (uses : List AnnotationUse) : PackageDecl :=
  { d with annotations := d.annotations ++ uses }

/-- A package is as before if and only if no annotation was added. -/
theorem PackageDecl.annotated_eq_self {d : PackageDecl} {uses} :
    d.annotated uses = d ↔ uses = [] := by
  constructor
  · intro h
    exact append_right_eq_self.mp (congrArg PackageDecl.annotations h)
  · rintro rfl
    rw [annotated, append_nil]

theorem PackageDecl.annotated_annotated (d : PackageDecl) (uses uses' : List AnnotationUse) :
    (d.annotated uses).annotated uses' = d.annotated (uses ++ uses') := by
  simp only [annotated, append_assoc]

namespace Table

variable {path : PathId} {tbl mid tbl' : Table}

/-- All that is not registered on the class path itself is as before, but older packages may have
further annotations. -/
structure Spared (path : PathId) (tbl tbl' : Table) : Prop where
  paths_eq : ∀ q, q ≠ path → tbl'.path q = tbl.path q
  classes_size : tbl.classes.size ≤ tbl'.classes.size
  classes_eq : ∀ c : ClassId, c.index < tbl.classes.size → tbl'.cls c = tbl.cls c
  packages_size : tbl.packages.size ≤ tbl'.packages.size
  packages_eq : ∀ p : PackageId, p.index < tbl.packages.size →
    ∃ uses, tbl'.package p = (tbl.package p).annotated uses

namespace Spared

theorem refl (path : PathId) (tbl : Table) : Spared path tbl tbl where
  paths_eq _ _ := rfl
  classes_size := Nat.le_refl _
  classes_eq _ _ := rfl
  packages_size := Nat.le_refl _
  packages_eq _ _ := ⟨[], (PackageDecl.annotated_eq_self.mpr rfl).symm⟩

theorem trans (h : Spared path tbl mid) (h' : Spared path mid tbl') : Spared path tbl tbl' where
  paths_eq q hq := (h'.paths_eq q hq).trans (h.paths_eq q hq)
  classes_size := Nat.le_trans h.classes_size h'.classes_size
  classes_eq c hc := (h'.classes_eq c (Nat.lt_of_lt_of_le hc h.classes_size)).trans
    (h.classes_eq c hc)
  packages_size := Nat.le_trans h.packages_size h'.packages_size
  packages_eq p hp := by
    obtain ⟨uses, huses⟩ := h.packages_eq p hp
    obtain ⟨uses', huses'⟩ := h'.packages_eq p (Nat.lt_of_lt_of_le hp h.packages_size)
    exact ⟨uses ++ uses', by rw [huses', huses, PackageDecl.annotated_annotated]⟩

/-- Annotations are never taken away, so a package that is as before has been so all the time. -/
theorem package_eq_iff (h : Spared path tbl mid) (h' : Spared path mid tbl') {p : PackageId}
    (hp : p.index < tbl.packages.size) :
    tbl'.package p = tbl.package p ↔
      mid.package p = tbl.package p ∧ tbl'.package p = mid.package p := by
  obtain ⟨uses, huses⟩ := h.packages_eq p hp
  obtain ⟨uses', huses'⟩ := h'.packages_eq p (Nat.lt_of_lt_of_le hp h.packages_size)
  rw [huses', PackageDecl.annotated_eq_self, huses, PackageDecl.annotated_annotated,
    PackageDecl.annotated_eq_self, PackageDecl.annotated_eq_self, append_eq_nil_iff]

end Spared

theorem lookupPackage_eq (tbl : Table) (path : PathId) (name : Name) :
    tbl.lookupPackage path name =
      ((tbl.ancestors path).findSome? (·.ownPackage? name)).or
      ((tbl.path path).ownPackage? name) := by
  rw [lookupPackage, pathChain_eq, findSome?_append]
  simp

end Table

namespace Stub

open Table

variable {path : PathId} {base tbl tbl' : Table} {p : PackageId}

/-! ### Packages of documents -/

theorem Grown.path_eq (h : Grown base path tbl) (q : PathId) (hq : q ≠ path) :
    tbl.path q = base.path q := by
  have hne : q.index ≠ path.index := fun heq => hq (by cases q; cases path; cases heq; rfl)
  rw [Table.path, Table.path, Array.getD_eq_getD_getElem?, Array.getD_eq_getD_getElem?,
    h.paths_eq q.index hne]

theorem Grown.package_eq (h : Grown base path tbl) (hp : p.index < base.packages.size) :
    tbl.package p = base.package p := by
  rw [Table.package, Table.package, Array.getD_eq_getD_getElem?, Array.getD_eq_getD_getElem?,
    h.packages_eq p.index hp]

theorem Grown.spared (h : Grown base path tbl) : Spared path base tbl where
  paths_eq := h.path_eq
  classes_size := h.classes_size
  classes_eq c hc := by
    rw [Table.cls, Table.cls, Array.getD_eq_getD_getElem?, Array.getD_eq_getD_getElem?,
      h.classes_eq c.index hc]
  packages_size := h.packages_size
  packages_eq p hp := ⟨[], by rw [PackageDecl.annotated_eq_self.mpr rfl, h.package_eq hp]⟩

theorem Grown.ancestors_eq (h : Grown base path tbl) (hl : base.Lineal path) :
    tbl.ancestors path = base.ancestors path := by
  refine hl.ancestors_congr h.path_eq ?_ h.paths_size
  have hparent := h.parent_eq
  rw [Table.path, Table.path, Array.getD_eq_getD_getElem?, Array.getD_eq_getD_getElem?]
  cases hb : base.paths[path.index]? <;> cases ht : tbl.paths[path.index]? <;> simp_all

/-- The packages that a load has made come after those that were visible before. -/
theorem Grown.exists_lookupPackage_eq (h : Grown base path tbl) (hl : base.Lineal path)
    (name : Name) : ∃ made : Option PackageId, (∀ p ∈ made, base.packages.size ≤ p.index) ∧
      tbl.lookupPackage path name = (base.lookupPackage path name).or made := by
  obtain ⟨made, hmade, hyoung⟩ := h.registry_eq
  have hown : (tbl.path path).ownPackage? name =
      ((base.path path).ownPackage? name).or ((made.find? (·.1 == name)).map (·.2)) := by
    rw [ClassPath.ownPackage?, ClassPath.ownPackage?, ← Array.find?_toList, ← Array.find?_toList,
      hmade, List.find?_append]
    cases (base.path path).packages.toList.find? (·.1 == name) <;> rfl
  refine ⟨(made.find? (·.1 == name)).map (·.2), fun p hp => ?_, ?_⟩
  · obtain ⟨e, he, rfl⟩ := Option.map_eq_some_iff.mp hp
    exact hyoung e (mem_of_find?_eq_some he)
  · rw [lookupPackage_eq, lookupPackage_eq, h.ancestors_eq hl, hown, Option.or_assoc]

/-- While a load reads, it finds those older packages that were visible before it. -/
theorem Grown.definePackage_eq_iff (h : Grown base path tbl) (hl : base.Lineal path)
    (hp : p.index < base.packages.size) {name} :
    (tbl.definePackage path name).1 = p ↔ base.lookupPackage path name = some p := by
  obtain ⟨made, hyoung, hlookup⟩ := h.exists_lookupPackage_eq hl name
  have hne {q : PackageId} (hq : base.packages.size ≤ q.index) : q ≠ p := by
    rintro rfl
    omega
  simp only [Table.definePackage, hlookup]
  cases hbase : base.lookupPackage path name with
  | some q => simp
  | none =>
    cases made with
    | some q => simpa using hne (hyoung q rfl)
    | none => simpa [Table.addPackage] using hne (q := ⟨tbl.packages.size⟩) h.packages_size

/-! ### Loads -/

/-- The document has annotations for the package, which is visible from the class path. -/
def Annotates (tbl : Table) (path : PathId) (p : PackageId) (document : Datum) : Prop :=
  ∃ name, packageOf document = .ok name ∧ tbl.lookupPackage path name = some p ∧
    items document "annotations" ≠ .ok []

/-- The annotations that are attached to a package. -/
def usesFor (marks : List (PackageId × List AnnotationUse)) (p : PackageId) : List AnnotationUse :=
  (marks.filter (·.1 == p)).flatMap (·.2)

theorem usesFor_cons (mark : PackageId × List AnnotationUse)
    (marks : List (PackageId × List AnnotationUse)) (p : PackageId) :
    usesFor (mark :: marks) p = (if mark.1 = p then mark.2 else []) ++ usesFor marks p := by
  by_cases hmark : mark.1 = p <;> simp [usesFor, hmark]

/-- Nothing is attached to a package if all that is read for it is empty. -/
theorem usesFor_eq_nil {marks} :
    usesFor marks p = [] ↔ ∀ mark ∈ marks, mark.1 = p → mark.2 = [] := by
  simp only [usesFor, flatMap_eq_nil_iff, mem_filter, beq_iff_eq, and_imp]

theorem package_modifyPackage (tbl : Table) (q : PackageId) (f : PackageDecl → PackageDecl)
    (hp : p.index < tbl.packages.size) :
    (tbl.modifyPackage q f).package p = if q = p then f (tbl.package p) else tbl.package p := by
  have hiff : q.index = p.index ↔ q = p :=
    ⟨fun h => by cases q; cases p; cases h; rfl, congrArg PackageId.index⟩
  simp only [Table.modifyPackage, Table.package, Array.getD_eq_getD_getElem?,
    Array.getElem?_modify, hiff]
  split_ifs
  · rw [Array.getElem?_eq_getElem hp]
    rfl
  · rfl

theorem package_attach (marks : List (PackageId × List AnnotationUse)) (tbl : Table)
    (hp : p.index < tbl.packages.size) :
    (attach tbl marks).package p = (tbl.package p).annotated (usesFor marks p) := by
  induction marks generalizing tbl with
  | nil => exact (PackageDecl.annotated_eq_self.mpr rfl).symm
  | cons mark marks ih =>
    refine (ih _ (by simpa [Table.modifyPackage] using hp)).trans ?_
    rw [package_modifyPackage tbl mark.1 _ hp, usesFor_cons, ← PackageDecl.annotated_annotated]
    split_ifs
    · rfl
    · rw [PackageDecl.annotated_eq_self.mpr rfl]

theorem attach_eq (marks : List (PackageId × List AnnotationUse)) (tbl : Table) :
    (attach tbl marks).paths = tbl.paths ∧ (attach tbl marks).classes = tbl.classes ∧
      (attach tbl marks).packages.size = tbl.packages.size := by
  induction marks generalizing tbl with
  | nil => exact ⟨rfl, rfl, rfl⟩
  | cons mark marks ih =>
    obtain ⟨hpaths, hclasses, hsize⟩ := ih (tbl.modifyPackage mark.1 _)
    exact ⟨hpaths, hclasses, hsize.trans Array.size_modify⟩

theorem spared_attach (marks : List (PackageId × List AnnotationUse)) (tbl : Table) :
    Spared path tbl (attach tbl marks) := by
  obtain ⟨hpaths, hclasses, hsize⟩ := attach_eq marks tbl
  refine ⟨fun q _ => ?_, hclasses ▸ Nat.le_refl _, fun c _ => ?_, hsize ▸ Nat.le_refl _,
    fun p hp => ?_⟩
  · rw [Table.path, hpaths, Table.path]
  · rw [Table.cls, hclasses, Table.cls]
  · exact ⟨_, package_attach marks tbl hp⟩

/-- A document has annotations for an older package if and only if some are read for it. -/
theorem IsMarkOf.annotates_iff {document mark} (h : IsMarkOf base path document mark)
    (hl : base.Lineal path) (hp : p.index < base.packages.size) :
    Annotates base path p document ↔ mark.1 = p ∧ mark.2 ≠ [] := by
  obtain ⟨⟨tbl, name, hgrown, hname, hpackage⟩, entries, hentries, hlength⟩ := h
  have hnil : mark.2 = [] ↔ entries = [] := by
    rw [← length_eq_zero_iff, hlength, length_eq_zero_iff]
  rw [hpackage, hgrown.definePackage_eq_iff hl hp, ne_eq, hnil]
  constructor
  · rintro ⟨name', hname', hlookup, hannotations⟩
    cases hname.symm.trans hname'
    exact ⟨hlookup, fun hnil => hannotations (by rw [hentries, hnil])⟩
  · rintro ⟨hlookup, hne⟩
    refine ⟨name, hname, hlookup, fun heq => hne ?_⟩
    cases hentries.symm.trans heq
    rfl

/-- What a load that succeeds makes of the table: it grows, and then annotations are attached. -/
theorem exists_grown_of_loadDocuments
    (h : (loadDocuments path documents).run.run base = (.ok cs, tbl')) :
    ∃ tbl marks, Grown base path tbl ∧ Forall₂ (IsMarkOf base path) documents marks ∧
      tbl' = attach tbl marks := by
  simp only [loadDocuments, Loading.bind_eq_ok, Loading.pure_eq_ok] at h
  obtain ⟨⟨marks, _⟩, tbl, hread, _, _, hmarks, -, rfl⟩ := h
  have hgrown := grows_readDocuments documents base (Grown.refl base path)
  rw [hread] at hgrown
  rw [run_annotatePackages] at hmarks
  cases hmarks
  exact ⟨tbl, marks, hgrown.1, hgrown.2 _ rfl, rfl⟩

theorem spared_modifyPath (tbl : Table) (f : ClassPath → ClassPath) :
    Spared path tbl (tbl.modifyPath path f) where
  paths_eq _ hq := path_modifyPath_of_ne hq f
  classes_size := Nat.le_refl _
  classes_eq _ _ := rfl
  packages_size := Nat.le_refl _
  packages_eq _ _ := ⟨[], (PackageDecl.annotated_eq_self.mpr rfl).symm⟩

theorem spared_rollingBack {α : Type} {x : Loading α} (hfails : FailsGrown path x)
    (hx : ∀ a tbl', x.run.run base = (.ok a, tbl') → Spared path base tbl') :
    Spared path base ((rollingBack path x).run.run base).2 := by
  rw [Loading.run_rollingBack]
  rcases hrun : x.run.run base with ⟨e | a, tbl'⟩
  · exact (hfails base e tbl' hrun).spared.trans (spared_modifyPath tbl' _)
  · exact hx a tbl' hrun

theorem spared_loadDocuments (h : (loadDocuments path documents).run.run base = (.ok cs, tbl')) :
    Spared path base tbl' := by
  obtain ⟨tbl, marks, hgrown, -, rfl⟩ := exists_grown_of_loadDocuments h
  exact hgrown.spared.trans (spared_attach marks tbl)

/-- A load changes an older package if and only if it succeeds and one of its documents has
annotations for it. -/
theorem package_load_eq_iff (hl : base.Lineal path) (documents : List Datum)
    (hp : p.index < base.packages.size) :
    (base.load path documents).2.package p = base.package p ↔
      ¬((∃ cs, (base.load path documents).1 = .ok cs) ∧
        ∃ d ∈ documents, Annotates base path p d) := by
  rcases hload : base.load path documents with ⟨e | cs, tbl'⟩
  · have hkept := (Stub.failsGrown_loadDocuments documents).kept_rollingBack hload
    simp [hkept.packages p hp]
  · obtain ⟨tbl, marks, hgrown, hmarks, rfl⟩ :=
      exists_grown_of_loadDocuments (eq_ok_of_rollingBack hload)
    rw [package_attach marks tbl (Nat.lt_of_lt_of_le hp hgrown.packages_size), hgrown.package_eq hp,
      PackageDecl.annotated_eq_self, usesFor_eq_nil]
    constructor
    · rintro h ⟨-, d, hd, hannotates⟩
      obtain ⟨mark, hmark, hread⟩ := exists_of_forall₂_left hmarks hd
      obtain ⟨heq, hne⟩ := (hread.annotates_iff hl hp).mp hannotates
      exact hne (h mark hmark heq)
    · intro h mark hmark heq
      by_contra hne
      obtain ⟨d, hd, hread⟩ := exists_of_forall₂_right hmarks hmark
      exact h ⟨⟨cs, rfl⟩, d, hd, (hread.annotates_iff hl hp).mpr ⟨heq, hne⟩⟩

/-- A load from text is a load of the documents that it holds. -/
theorem loadJson_eq {text} (h : documentsOfJson text = .ok documents) :
    base.loadJson path text = base.load path documents := by
  rw [Table.loadJson, Table.load, h]
  rfl

theorem loadJson_eq_error {text e} (h : documentsOfJson text = .error e) :
    ∃ tbl, base.loadJson path text = (.error e, tbl) := by
  rw [Table.loadJson, Loading.run_rollingBack, h]
  exact ⟨_, rfl⟩

end Stub

/-! ### Sequences of calls -/

namespace RegistryCall

open Table

variable {path : PathId} {tbl : Table} {p : PackageId}

/-- The call is a load that succeeds, and it has annotations for the package. -/
def Annotates (path : PathId) (tbl : Table) (p : PackageId) : RegistryCall → Prop
  | load documents => (∃ cs, (tbl.load path documents).1 = .ok cs) ∧
      ∃ d ∈ documents, Stub.Annotates tbl path p d
  | loadJson text => ∃ documents, Stub.documentsOfJson text = .ok documents ∧
      (∃ cs, (tbl.load path documents).1 = .ok cs) ∧ ∃ d ∈ documents, Stub.Annotates tbl path p d
  | definePackage _ | register _ => False

theorem spared_perform (path : PathId) (tbl : Table) (call : RegistryCall) :
    Spared path tbl (call.perform path tbl) := by
  cases call with
  | load documents =>
    exact Stub.spared_rollingBack (Stub.failsGrown_loadDocuments documents)
      fun _ _ => Stub.spared_loadDocuments
  | loadJson text =>
    refine Stub.spared_rollingBack (Stub.FailsGrown.lift_bind _ Stub.failsGrown_loadDocuments)
      fun cs tbl' h => ?_
    simp only [Stub.Loading.bind_eq_ok, Stub.Loading.lift_eq_ok] at h
    obtain ⟨documents, _, ⟨-, rfl⟩, hload⟩ := h
    exact Stub.spared_loadDocuments hload
  | definePackage name => exact ((Stub.Grown.refl tbl path).definePackage name).spared
  | register d =>
    simp only [perform]
    split
    · exact ((Stub.Grown.refl tbl path).register ‹_›).1.spared
    · exact .refl path tbl

/-- A call changes an older package if and only if it has annotations for it. -/
theorem package_perform_eq_iff (hl : tbl.Lineal path) (call : RegistryCall)
    (hp : p.index < tbl.packages.size) :
    (call.perform path tbl).package p = tbl.package p ↔ ¬call.Annotates path tbl p := by
  cases call with
  | load documents => exact Stub.package_load_eq_iff hl documents hp
  | loadJson text =>
    cases hdocuments : Stub.documentsOfJson text with
    | ok documents =>
      simp only [perform, Annotates, Stub.loadJson_eq hdocuments, hdocuments, Except.ok.injEq,
        exists_eq_left']
      exact Stub.package_load_eq_iff hl documents hp
    | error e =>
      obtain ⟨tbl', hload⟩ : ∃ tbl', tbl.loadJson path text = (.error e, tbl') :=
        Stub.loadJson_eq_error hdocuments
      have hkept := (Stub.FailsGrown.lift_bind _ Stub.failsGrown_loadDocuments).kept_rollingBack
        hload
      simp only [perform, hload, hkept.packages p hp, true_iff]
      rintro ⟨documents, heq, -⟩
      cases hdocuments.symm.trans heq
  | definePackage name =>
    simp only [perform, Annotates, not_false_eq_true, iff_true]
    exact ((Stub.Grown.refl tbl path).definePackage name).package_eq hp
  | register d =>
    simp only [perform, Annotates, not_false_eq_true, iff_true]
    split
    · exact ((Stub.Grown.refl tbl path).register ‹_›).1.package_eq hp
    · rfl

theorem spared_run (path : PathId) (tbl : Table) (calls : List RegistryCall) :
    Spared path tbl (run path tbl calls) := by
  induction calls generalizing tbl with
  | nil => exact .refl path tbl
  | cons call calls ih => exact (call.spared_perform path tbl).trans (ih _)

/-- An older package is as before if and only if no call has had annotations for it. -/
theorem package_run_eq_iff (hl : tbl.Lineal path) (calls : List RegistryCall)
    (hp : p.index < tbl.packages.size) :
    (run path tbl calls).package p = tbl.package p ↔
      ∀ before call after, calls = before ++ call :: after →
        ¬call.Annotates path (run path tbl before) p := by
  induction calls generalizing tbl with
  | nil => simp [run]
  | cons call calls ih =>
    have hspared := call.spared_perform path tbl
    have hmid : (call.perform path tbl).Lineal path := lineal_run [call] hl
    have hrest := ih hmid (Nat.lt_of_lt_of_le hp hspared.packages_size)
    rw [show run path tbl (call :: calls) = run path (call.perform path tbl) calls from rfl,
      hspared.package_eq_iff (spared_run path _ calls) hp, package_perform_eq_iff hl call hp, hrest]
    constructor
    · rintro ⟨hfirst, hothers⟩ (_ | ⟨_, before⟩) call' after heq
      · cases heq
        exact hfirst
      · cases heq
        exact hothers before call' after rfl
    · intro h
      refine ⟨h [] call calls rfl, fun before call' after heq => ?_⟩
      exact h (call :: before) call' after (by rw [heq]; rfl)

/-- Calls on a class path, whether or not they succeed, leave the ancestors of the class path alone,
and all other class paths, and all classes that are older. Older packages keep what they are, up to
annotations, which are only added; and they keep their annotations as well if and only if no load
that succeeded had a document with annotations for them. -/
theorem ancestors_run (hl : tbl.Lineal path) (calls : List RegistryCall) :
    let tbl' := run path tbl calls
    tbl'.ancestors path = tbl.ancestors path ∧
      (∀ q, q ≠ path → tbl'.path q = tbl.path q) ∧
      (∀ c : ClassId, c.index < tbl.classes.size → tbl'.cls c = tbl.cls c) ∧
      ∀ p : PackageId, p.index < tbl.packages.size →
        (∃ uses, tbl'.package p = (tbl.package p).annotated uses) ∧
        (tbl'.package p = tbl.package p ↔
          ∀ before call after, calls = before ++ call :: after →
            ¬call.Annotates path (run path tbl before) p) := by
  intro tbl'
  have hspared := spared_run path tbl calls
  refine ⟨?_, hspared.paths_eq, hspared.classes_eq, fun p hp => ?_⟩
  · have hrun : tbl'.Lineal path ∧ tbl'.ancestors path = tbl.ancestors path :=
      run_induction (P := fun t => t.Lineal path ∧ t.ancestors path = tbl.ancestors path)
        (fun _ _ _ _ h hentered => ⟨hentered.lineal h.1, (hentered.ancestors_eq h.1).trans h.2⟩)
        (fun _ h => h.1) calls ⟨hl, rfl⟩
    exact hrun.2
  · exact ⟨hspared.packages_eq p hp, package_run_eq_iff hl calls hp⟩

/-- A class path with a package and an annotation type in it, and an empty class path on top. -/
def twoPaths : Table :=
  (Table.addPath
    { classes := #[{ name := "p.M", simpleName := "M", kind := .annotationType }],
      packages := #[{ name := "p", path := some ⟨0⟩ }],
      paths := #[{ types := #[("p.M", ⟨0⟩)], packages := #[("p", ⟨0⟩)] }] }
    { parent := some ⟨0⟩ }).2

theorem lineal_twoPaths : twoPaths.Lineal ⟨1⟩ := by
  refine @Lineal.addPath _ ⟨0⟩ ⟨by decide, fun q parent h => ?_⟩
  obtain ⟨_ | n⟩ := q
  · cases h
  · cases h

/-- A load of a document that has an annotation for the package, and types with the given names. -/
def annotatingLoad (names : List String) : RegistryCall :=
  .load [.object [("package", .text "p"), ("annotations", .list [.text "M"]),
    ("types", .list (names.map fun name => .object [("name", .text name)]))]]

set_option maxRecDepth 20000 in
/-- A load that fails has no annotations for a package, though its document has. -/
theorem ancestors_run_failed :
    twoPaths.Lineal ⟨1⟩ ∧ (run ⟨1⟩ twoPaths [annotatingLoad ["C", "C"]]).classes.size = 2 ∧
      (run ⟨1⟩ twoPaths [annotatingLoad ["C", "C"]]).ancestors ⟨1⟩ = twoPaths.ancestors ⟨1⟩ ∧
      ∀ before call after, [annotatingLoad ["C", "C"]] = before ++ call :: after →
        ¬call.Annotates ⟨1⟩ (run ⟨1⟩ twoPaths before) ⟨0⟩ := by
  have hsize : (run ⟨1⟩ twoPaths [annotatingLoad ["C", "C"]]).classes.size = 2 := by cbv
  have hpackage : (run ⟨1⟩ twoPaths [annotatingLoad ["C", "C"]]).package ⟨0⟩ =
      twoPaths.package ⟨0⟩ := by cbv
  obtain ⟨hancestors, -, -, hpackages⟩ := ancestors_run lineal_twoPaths [annotatingLoad ["C", "C"]]
  exact ⟨lineal_twoPaths, hsize, hancestors, (hpackages ⟨0⟩ (by decide)).2.mp hpackage⟩

set_option maxRecDepth 20000 in
/-- A load on a class path annotates the package of its parent. -/
theorem annotates_ancestor :
    twoPaths.Lineal ⟨1⟩ ∧ twoPaths.lookupPackage ⟨0⟩ "p" = some ⟨0⟩ ∧
      (twoPaths.package ⟨0⟩).annotations = [] ∧
      ((run ⟨1⟩ twoPaths [annotatingLoad []]).package ⟨0⟩).annotations =
        [{ type := ⟨0⟩, values := [] }] := by
  refine ⟨lineal_twoPaths, ?_, ?_, ?_⟩
  · cbv
  · rfl
  · cbv

end RegistryCall

end NominalTypes
