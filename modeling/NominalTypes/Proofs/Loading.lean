import NominalTypes.Stub.Load
import NominalTypes.Proofs.Budget

/-!
# A load that fails changes nothing

A load writes into the table while it reads: it makes packages, enters and registers classes, hangs
member classes on the classes around them, and fills in bodies. Only the registry of its class path
is put back after a failure. Nothing else has to be: until the last entry has been read, every write
goes to a declaration that the load itself has made, and the annotations of packages, which may be
older, are attached when nothing can fail any more.

`Stub.Grown base path tbl` says what a load may have done to the table `base` while it reads, and
`Stub.Maintains` that a computation keeps to such a description, whether it answers or fails. Every
part of the two passes keeps to this one. The classes that a pass hands on are younger than `base`,
which is what the next writes rely on.
-/

namespace NominalTypes

open List

variable {α : Type} {tbl : Table} {enclosing : Option ClassId} {I : Table → Prop}

/-- All registries of `tbl`, and all its packages and classes with all that belongs to them, are
the same in `tbl'`, which may hold more packages and classes. -/
structure Table.Kept (tbl tbl' : Table) : Prop where
  paths : tbl'.paths = tbl.paths
  packages : ∀ p : PackageId, p.index < tbl.packages.size → tbl'.package p = tbl.package p
  classes : ∀ c : ClassId, c.index < tbl.classes.size → tbl'.cls c = tbl.cls c
  core : tbl'.core = tbl.core

/-- The declaration of a class without its type parameters, supertypes, fields, executables and
annotations: what the first pass over documents says of the class. -/
def ClassDecl.head (d : ClassDecl) : ClassDecl :=
  { d with
    typeParameters := []
    superclass := none
    interfaces := []
    fields := []
    constructors := []
    methods := []
    annotations := [] }

theorem ClassDecl.eq_of_head_eq {d d'} (h : d.head = d'.head) (f : ClassDecl → α)
    (hf : ∀ d, f d.head = f d) : f d = f d' := by
  rw [← hf d, h, hf]

namespace Stub

/-- What a load on a class path may have made of the table `base` while it reads: there may be
further packages and classes, and the class path may register others than before. The packages that
it has come to register are new ones. -/
structure Grown (base : Table) (path : PathId) (tbl : Table) : Prop where
  packages_size : base.packages.size ≤ tbl.packages.size
  packages_eq : ∀ i < base.packages.size, tbl.packages[i]? = base.packages[i]?
  classes_size : base.classes.size ≤ tbl.classes.size
  classes_eq : ∀ i < base.classes.size, tbl.classes[i]? = base.classes[i]?
  paths_size : tbl.paths.size = base.paths.size
  paths_eq : ∀ i, i ≠ path.index → tbl.paths[i]? = base.paths[i]?
  parent_eq : (tbl.paths[path.index]?).map (·.parent) = (base.paths[path.index]?).map (·.parent)
  registry_eq : ∃ made, (tbl.path path).packages.toList = (base.path path).packages.toList ++ made ∧
    ∀ e ∈ made, base.packages.size ≤ e.2.index
  core_eq : tbl.core = base.core

namespace Grown

variable {base : Table} {path : PathId}

theorem refl (base : Table) (path : PathId) : Grown base path base where
  packages_size := Nat.le_refl _
  packages_eq _ _ := rfl
  classes_size := Nat.le_refl _
  classes_eq _ _ := rfl
  paths_size := rfl
  paths_eq _ _ := rfl
  parent_eq := rfl
  registry_eq := ⟨[], (append_nil _).symm, forall_mem_nil _⟩
  core_eq := rfl

theorem addPackage (h : Grown base path tbl) (d : PackageDecl) :
    Grown base path (tbl.addPackage d).2 :=
  { h with
    packages_size := by
      simpa [Table.addPackage] using Nat.le_succ_of_le h.packages_size
    packages_eq := fun i hi => by
      have hi' : i < tbl.packages.size := Nat.lt_of_lt_of_le hi h.packages_size
      simpa [Table.addPackage, Array.getElem?_push, Nat.ne_of_lt hi'] using h.packages_eq i hi }

theorem addClass (h : Grown base path tbl) (d : ClassDecl) :
    Grown base path (tbl.addClass d).2 :=
  { h with
    classes_size := by
      simpa [Table.addClass] using Nat.le_succ_of_le h.classes_size
    classes_eq := fun i hi => by
      have hi' : i < tbl.classes.size := Nat.lt_of_lt_of_le hi h.classes_size
      simpa [Table.addClass, Array.getElem?_push, Nat.ne_of_lt hi'] using h.classes_eq i hi }

theorem modifyClass (h : Grown base path tbl) {c} (hc : base.classes.size ≤ c.index)
    (f : ClassDecl → ClassDecl) : Grown base path (tbl.modifyClass c f) :=
  { h with
    classes_size := by simpa [Table.modifyClass] using h.classes_size
    classes_eq := fun i hi => by
      have hne : c.index ≠ i := Nat.ne_of_gt (Nat.lt_of_lt_of_le hi hc)
      simpa [Table.modifyClass, Array.getElem?_modify, hne] using h.classes_eq i hi }

/-- Registering on the class path leaves its parent and all other class paths alone. -/
theorem modifyPath (h : Grown base path tbl) {f} (hf : ∀ p, (f p).parent = p.parent) {made}
    (hpackages : ∀ p, (f p).packages.toList = p.packages.toList ++ made)
    (hmade : ∀ e ∈ made, base.packages.size ≤ e.2.index) :
    Grown base path (tbl.modifyPath path f) :=
  { h with
    paths_size := by simpa [Table.modifyPath] using h.paths_size
    paths_eq := fun i hi => by
      simpa [Table.modifyPath, Array.getElem?_modify, hi.symm] using h.paths_eq i hi
    parent_eq := by
      simpa [Table.modifyPath, Array.getElem?_modify, Function.comp_def, hf] using h.parent_eq
    registry_eq := by
      obtain ⟨older, holder, hyoung⟩ := h.registry_eq
      simp only [Table.modifyPath, Table.path, Array.getD_eq_getD_getElem?, Array.getElem?_modify,
        if_true] at holder ⊢
      cases hp : tbl.paths[path.index]? with
      | none => exact ⟨older, by simpa [hp] using holder, hyoung⟩
      | some p =>
        refine ⟨older ++ made, ?_, forall_mem_append.mpr ⟨hyoung, hmade⟩⟩
        rw [hp] at holder
        simp only [Option.map_some, Option.getD_some, hpackages] at holder ⊢
        rw [holder, append_assoc] }

/-- Putting back what the class path registered gives back all registries of `base`. -/
theorem restore (h : Grown base path tbl) :
    base.Kept (tbl.modifyPath path fun p =>
      { p with types := (base.path path).types, packages := (base.path path).packages }) where
  paths := by
    apply Array.ext_getElem?
    intro i
    by_cases hi : path.index = i
    · subst hi
      have hparent := h.parent_eq
      simp only [Table.modifyPath, Array.getElem?_modify, if_true, Table.path,
        Array.getD_eq_getD_getElem?]
      cases hb : base.paths[path.index]? with
      | none => simpa [hb] using hparent
      | some p =>
        obtain ⟨q, hq, hqp⟩ := Option.map_eq_some_iff.mp (hparent.trans (by rw [hb]; rfl))
        rw [hq]
        simp [hqp]
    · simpa [Table.modifyPath, Array.getElem?_modify, hi] using h.paths_eq i (Ne.symm hi)
  packages p hp := by
    simp only [Table.modifyPath, Table.package, Array.getD_eq_getD_getElem?]
    rw [h.packages_eq p.index hp]
  classes c hc := by
    simp only [Table.modifyPath, Table.cls, Array.getD_eq_getD_getElem?]
    rw [h.classes_eq c.index hc]
  core := h.core_eq

end Grown

/-! ### Computations that keep an invariant -/

/-- A failure keeps what was changed before it. -/
theorem Loading.run_bind {β} (x : Loading α) (f : α → Loading β) (tbl : Table) :
    (x >>= f).run.run tbl =
      match x.run.run tbl with
      | (.ok a, tbl') => (f a).run.run tbl'
      | (.error e, tbl') => (.error e, tbl') := by
  change ExceptT.bindCont f (x.run.run tbl).1 (x.run.run tbl).2 = _
  rcases x.run.run tbl with ⟨e | a, tbl'⟩ <;> rfl

theorem Loading.run_rollingBack (path : PathId) (x : Loading α) (tbl : Table) :
    (rollingBack path x).run.run tbl =
      match x.run.run tbl with
      | (.ok a, tbl') => (.ok a, tbl')
      | (.error e, tbl') => (.error e, tbl'.modifyPath path fun p =>
          { p with types := (tbl.path path).types, packages := (tbl.path path).packages }) := by
  rw [rollingBack, Loading.run_bind]
  change ((tryCatch x _ : Loading α).run.run tbl) = _
  simp only [tryCatch, tryCatchThe, MonadExceptOf.tryCatch, ExceptT.tryCatch, ExceptT.run_mk]
  rw [StateT.run_bind]
  change (x.run.run tbl >>= _ : Id _) = _
  rcases x.run.run tbl with ⟨e | a, tbl'⟩ <;> rfl

/-- Whether it answers or fails, the computation keeps the invariant of the table, and its answers
are such as `post` says. -/
def Maintains {α : Type} (I : Table → Prop) (x : Loading α) (post : α → Prop) : Prop :=
  ∀ tbl, I tbl → I (x.run.run tbl).2 ∧ ∀ a, (x.run.run tbl).1 = .ok a → post a

namespace Maintains

variable {β : Type}

theorem pure {post : α → Prop} {a} (ha : post a) :
    Maintains I (Pure.pure a) post := by
  intro tbl h
  refine ⟨h, fun b hb => ?_⟩
  cases hb
  exact ha

theorem throw (post : α → Prop) (e : Error) :
    Maintains I (MonadExcept.throw e) post := by
  intro tbl h
  exact ⟨h, fun b hb => nomatch hb⟩

theorem lift (r : Result α) : Maintains I (liftM r) fun a => r = .ok a := by
  intro tbl h
  cases r with
  | error e => exact ⟨h, fun b hb => nomatch hb⟩
  | ok a =>
    refine ⟨h, fun b hb => ?_⟩
    cases hb
    rfl

theorem bind {x} {f : α → Loading β} {mid : α → Prop} {post : β → Prop} (hx : Maintains I x mid)
    (hf : ∀ a, mid a → Maintains I (f a) post) :
    Maintains I (x >>= f) post := by
  intro tbl h
  obtain ⟨hI, hmid⟩ := hx tbl h
  rw [Loading.run_bind]
  rcases hr : x.run.run tbl with ⟨e | a, tbl'⟩
  · rw [hr] at hI
    exact ⟨hI, fun b hb => nomatch hb⟩
  · rw [hr] at hI hmid
    exact hf a (hmid a rfl) tbl' hI

theorem mono {x} {mid post : α → Prop} (hx : Maintains I x mid) (h : ∀ a, mid a → post a) :
    Maintains I x post :=
  fun tbl ht => ⟨(hx tbl ht).1, fun a ha => h a ((hx tbl ht).2 a ha)⟩

theorem get : Maintains I (MonadState.get : Loading Table) I := by
  intro tbl h
  refine ⟨h, fun b hb => ?_⟩
  cases hb
  exact h

theorem set (h : I tbl) : Maintains I (MonadStateOf.set tbl : Loading PUnit) fun _ => True :=
  fun _ _ => ⟨h, fun _ _ => trivial⟩

theorem modifying {f} (hf : ∀ tbl, I tbl → I (f tbl)) :
    Maintains I (modify f : Loading PUnit) fun _ => True :=
  fun tbl h => ⟨hf tbl h, fun _ _ => trivial⟩

theorem forall₂_mapM {f : α → Loading β} {post : α → β → Prop} (as : List α)
    (hf : ∀ a ∈ as, Maintains I (f a) (post a)) :
    Maintains I (as.mapM f) (Forall₂ post as) := by
  induction as with
  | nil =>
    exact pure .nil
  | cons a as ih =>
    rw [mapM_cons]
    refine bind (hf a mem_cons_self) fun b hb => ?_
    refine bind (ih fun a' ha' => hf a' (mem_cons_of_mem _ ha')) fun bs hbs => ?_
    exact pure (.cons hb hbs)

theorem mapM {f : α → Loading β} {post : β → Prop} (as : List α)
    (hf : ∀ a ∈ as, Maintains I (f a) post) :
    Maintains I (as.mapM f) fun bs => ∀ b ∈ bs, post b := by
  refine (forall₂_mapM as hf).mono fun bs hbs => ?_
  clear hf
  induction hbs with
  | nil => exact forall_mem_nil _
  | cons hb _ ih => exact forall_mem_cons.mpr ⟨hb, ih⟩

theorem forM {f : α → Loading PUnit} (as : List α)
    (hf : ∀ a ∈ as, Maintains I (f a) fun _ => True) :
    Maintains I (as.forM f) fun _ => True := by
  induction as with
  | nil => exact pure trivial
  | cons a as ih =>
    exact bind (hf a mem_cons_self) fun _ _ =>
      ih fun a' ha' => hf a' (mem_cons_of_mem _ ha')

end Maintains

/-! ### The two passes -/

section Passes

variable {base : Table} {path : PathId}

theorem Grown.definePackage (h : Grown base path tbl) (name : Name) :
    Grown base path (tbl.definePackage path name).2 := by
  simp only [Table.definePackage]
  split
  · exact h
  · refine (h.addPackage _).modifyPath (fun _ => rfl) (fun _ => Array.toList_push) ?_
    exact forall_mem_singleton.mpr h.packages_size

/-- A class is entered and registered on the class path; it is younger than `base`. -/
theorem Grown.register {tbl'} (h : Grown base path tbl) {d c}
    (hr : tbl.register path d = .ok (c, tbl')) :
    Grown base path tbl' ∧ base.classes.size ≤ c.index := by
  simp only [Table.register] at hr
  split at hr
  · cases hr
  · cases hr
    have hmade : ∀ p ∈ ([] : List (Name × PackageId)), base.packages.size ≤ p.2.index :=
      forall_mem_nil _
    exact ⟨(h.addClass d).modifyPath (fun _ => rfl) (fun _ => (append_nil _).symm) hmade,
      h.classes_size⟩

theorem grows_attachMember (he : ∀ e ∈ enclosing, base.classes.size ≤ e.index) (nesting : Nesting)
    (c : ClassId) :
    Maintains (Grown base path) (attachMember enclosing nesting c) fun _ => True := by
  unfold attachMember
  split
  · split
    · exact Maintains.modifying fun tbl h => h.modifyClass (he _ rfl) _
    · exact Maintains.pure trivial
  · exact Maintains.pure trivial

/-- Entering one class writes to the class itself and, if it is a member, to the class around it;
that has to be younger than `base` as well. -/
theorem grows_declareOne (he : ∀ e ∈ enclosing, base.classes.size ≤ e.index) (package : PackageId)
    (entry : Datum) (outer : Scope) :
    Maintains (Grown base path) (declareOne path package entry enclosing outer)
      fun p => base.classes.size ≤ p.cls.index := by
  refine Maintains.get.bind fun _ _ => (Maintains.lift _).bind fun header _ => ?_
  refine Maintains.get.bind fun tbl htbl => (Maintains.lift _).bind fun made hmade => ?_
  obtain ⟨hgrown, hyoung⟩ := htbl.register hmade
  refine (Maintains.set hgrown).bind fun _ _ => ?_
  refine (grows_attachMember he _ _).bind fun _ _ => (Maintains.lift _).bind fun constants _ => ?_
  refine (Maintains.modifying fun tbl h => h.modifyClass hyoung _).bind fun _ _ => ?_
  exact Maintains.get.bind fun _ _ => Maintains.pure hyoung

/-- The first pass over an entry: by induction on the depth of nesting, every class that is entered
is younger than `base`, so the classes nested in it may be hung on it. -/
theorem grows_declare (package : PackageId) (fuel : Nat) (entry : Datum)
    (he : ∀ e ∈ enclosing, base.classes.size ≤ e.index) (outer : Scope) :
    Maintains (Grown base path) (declare path package fuel entry enclosing outer)
      fun ps => ∀ p ∈ ps, base.classes.size ≤ p.cls.index := by
  induction fuel generalizing entry enclosing outer with
  | zero => exact Maintains.throw _ _
  | succ fuel ih =>
    refine (grows_declareOne he package entry outer).bind fun made hmade => ?_
    refine (Maintains.lift _).bind fun nested _ => ?_
    have hinner : ∀ e ∈ some made.cls, base.classes.size ≤ e.index := by
      rintro e ⟨⟩
      exact hmade
    refine (Maintains.mapM nested fun d _ => ih d hinner made.scope).bind fun inner hinner => ?_
    refine Maintains.pure (forall_mem_cons.mpr ⟨hmade, fun p hp => ?_⟩)
    obtain ⟨ps, hps, hp⟩ := mem_flatten.mp hp
    exact hinner ps hps p hp

/-- The package is the one of the document: it was visible by then, or it was made. -/
def IsPackageOf (base : Table) (path : PathId) (document : Datum) (p : PackageId) : Prop :=
  ∃ tbl name, Grown base path tbl ∧ packageOf document = .ok name ∧
    p = (tbl.definePackage path name).1

theorem grows_openDocument (document : Datum) :
    Maintains (Grown base path) (openDocument path document) fun o =>
      (o.1.document = document ∧ IsPackageOf base path document o.1.package) ∧
        ∀ p ∈ o.2, base.classes.size ≤ p.cls.index := by
  refine (Maintains.lift _).bind fun name hname => Maintains.get.bind fun tbl htbl => ?_
  refine (Maintains.set (htbl.definePackage name)).bind fun _ _ => ?_
  refine (Maintains.lift _).bind fun imports _ => (Maintains.lift _).bind fun entries _ => ?_
  refine (Maintains.mapM entries fun entry _ =>
    grows_declare _ _ entry (by rintro e ⟨⟩) _).bind fun declared hdeclared => ?_
  refine Maintains.pure ⟨⟨rfl, tbl, name, htbl, hname, rfl⟩, fun p hp => ?_⟩
  obtain ⟨ps, hps, hp⟩ := mem_flatten.mp hp
  exact hdeclared ps hps p hp

/-- The second pass over a class refines that class only, and nothing that the first pass has said
of it: what all such refinements keep, the pass keeps. -/
theorem maintains_define {p}
    (hI : ∀ tbl f, (∀ d, (f d).head = d.head) → I tbl → I (tbl.modifyClass p.cls f)) :
    Maintains I (define p) fun _ => True := by
  have hrefine (f : ClassDecl → ClassDecl) (hf : ∀ d, (f d).head = d.head) :
      Maintains I (refine p.cls f) fun _ => True :=
    Maintains.modifying fun tbl h => hI tbl f hf h
  have hbounds : Maintains I (defineBounds p) fun _ => True := by
    refine (Maintains.lift _).bind fun texts _ => Maintains.forM _ fun text _ => ?_
    exact Maintains.get.bind fun _ _ => (Maintains.lift _).bind fun _ _ => hrefine _ (by intro; rfl)
  have hheader : Maintains I (defineHeader p) fun _ => True := by
    refine hbounds.bind fun _ _ => Maintains.get.bind fun _ _ => ?_
    refine (Maintains.lift _).bind fun _ _ => (hrefine _ (by intro; rfl)).bind fun _ _ => ?_
    refine Maintains.get.bind fun _ _ => (Maintains.lift _).bind fun _ _ => ?_
    refine (hrefine _ (by intro; rfl)).bind fun _ _ => Maintains.get.bind fun _ _ => ?_
    exact (Maintains.lift _).bind fun _ _ => hrefine _ (by intro; rfl)
  have hfield (entry : Datum) : Maintains I (defineField p entry) fun _ => True :=
    Maintains.get.bind fun _ _ => (Maintains.lift _).bind fun _ _ => hrefine _ (by intro; rfl)
  have hconstructor (entry : Datum) : Maintains I (defineConstructor p entry) fun _ => True :=
    Maintains.get.bind fun _ _ => (Maintains.lift _).bind fun _ _ => hrefine _ (by intro; rfl)
  have hmethod (entry : Datum) : Maintains I (defineMethod p entry) fun _ => True :=
    Maintains.get.bind fun _ _ => (Maintains.lift _).bind fun _ _ =>
      (Maintains.lift _).bind fun _ _ => hrefine _ (by intro; rfl)
  refine hheader.bind fun _ _ => (Maintains.lift _).bind fun fields _ => ?_
  refine (Maintains.forM fields fun entry _ => hfield entry).bind fun _ _ => ?_
  refine Maintains.get.bind fun _ _ => (Maintains.lift _).bind fun constructors _ => ?_
  refine (Maintains.forM constructors fun entry _ => hconstructor entry).bind fun _ _ => ?_
  exact (Maintains.lift _).bind fun methods _ => Maintains.forM methods fun entry _ => hmethod entry

/-- There is an annotation for each entry. -/
theorem length_annotations {scope document uses} (h : annotations tbl scope document = .ok uses) :
    ∃ entries, items document "annotations" = .ok entries ∧ uses.length = entries.length := by
  obtain ⟨entries, hentries, huses⟩ := bind_eq_ok.mp h
  exact ⟨entries, hentries, (mapM_eq_ok.mp huses).length_eq.symm⟩

/-- What is read for an opened document: its package, and an annotation for each entry. -/
def ReadsMark (o : Opened × List Pending) (mark : PackageId × List AnnotationUse) : Prop :=
  mark.1 = o.1.package ∧ ∃ entries, items o.1.document "annotations" = .ok entries ∧
    mark.2.length = entries.length

/-- Reading the annotations of packages changes nothing. -/
theorem maintains_packageMarks (opened : List (Opened × List Pending)) :
    Maintains I (opened.mapM fun (o, _) => do
      return (o.package, ← annotations (← get) o.scope o.document))
      (Forall₂ ReadsMark opened) := by
  have hmark (o : Opened × List Pending) : Maintains I
      (do return (o.1.package, ← annotations (← get) o.1.scope o.1.document)) (ReadsMark o) :=
    Maintains.get.bind fun _ _ => (Maintains.lift _).bind fun _ huses =>
      Maintains.pure ⟨rfl, length_annotations huses⟩
  exact Maintains.forall₂_mapM opened fun o _ => hmark o

/-- What a load reads for a document: its package, and an annotation for each entry. -/
def IsMarkOf (base : Table) (path : PathId) (document : Datum)
    (mark : PackageId × List AnnotationUse) : Prop :=
  IsPackageOf base path document mark.1 ∧ ∃ entries, items document "annotations" = .ok entries ∧
    mark.2.length = entries.length

/-- Both passes over documents, up to the last point at which a load can fail. -/
theorem grows_readDocuments (documents : List Datum) :
    Maintains (Grown base path) (readDocuments path documents) fun r =>
      Forall₂ (IsMarkOf base path) documents r.1 := by
  refine (Maintains.forall₂_mapM documents fun d _ => grows_openDocument d).bind
    fun opened hopened => ?_
  refine (maintains_packageMarks opened).bind fun marks hmarks => ?_
  refine (Maintains.forM _ fun p hp => ?_).bind fun _ _ => Maintains.pure ?_
  · obtain ⟨o, ho, hp⟩ := mem_flatMap.mp hp
    obtain ⟨_, -, -, hyoung⟩ := exists_of_forall₂_right hopened ho
    exact maintains_define fun _ f _ h => h.modifyClass (hyoung p hp) f
  · refine forall₂_join hopened.flip hmarks
      fun o _ document mark ⟨⟨hdocument, hpackage⟩, _⟩ hmark => ?_
    rw [IsMarkOf, hmark.1, ← hdocument]
    exact ⟨hdocument ▸ hpackage, hmark.2⟩

end Passes

/-! ### Failure -/

/-- The table in which annotations are attached to packages. -/
def attach (tbl : Table) (marks : List (PackageId × List AnnotationUse)) : Table :=
  marks.foldl (fun tbl mark => tbl.modifyPackage mark.1 fun d =>
    { d with annotations := d.annotations ++ mark.2 }) tbl

/-- The computation fails only while it has made no more of the table than a load may. -/
def FailsGrown {α : Type} (path : PathId) (x : Loading α) : Prop :=
  ∀ base e tbl, x.run.run base = (.error e, tbl) → Grown base path tbl

section Failure

variable {β : Type} {path : PathId}

/-- Attaching the annotations of packages cannot fail. -/
theorem run_annotatePackages (marks : List (PackageId × List AnnotationUse)) (tbl : Table) :
    (marks.forM fun (package, uses) => annotatePackage package uses).run.run tbl =
      (.ok (), attach tbl marks) := by
  induction marks generalizing tbl with
  | nil => rfl
  | cons mark marks ih => exact ih _

/-- The annotations of packages may be older than the load, and are attached when nothing can fail
any more. -/
theorem failsGrown_loadDocuments (documents : List Datum) :
    FailsGrown path (loadDocuments path documents) := by
  intro base e tbl h
  have hread := (grows_readDocuments documents base (Grown.refl base path)).1
  rw [loadDocuments, Loading.run_bind] at h
  rcases hr : (readDocuments path documents).run.run base with ⟨e' | ⟨marks, classes⟩, tbl'⟩
  · rw [hr] at h hread
    cases h
    exact hread
  · rw [hr] at h
    simp only [Loading.run_bind, run_annotatePackages] at h
    cases h

theorem FailsGrown.lift_bind {f : α → Loading β} (r : Result α)
    (hf : ∀ a, FailsGrown path (f a)) : FailsGrown path (liftM r >>= f) := by
  intro base e tbl h
  cases r with
  | error e' =>
    cases h
    exact Grown.refl base path
  | ok a => exact hf a base e tbl h

theorem FailsGrown.kept_rollingBack {x : Loading α} (hx : FailsGrown path x) {base : Table}
    {e : Error} (h : (rollingBack path x).run.run base = (.error e, tbl)) : base.Kept tbl := by
  rcases hr : x.run.run base with ⟨e' | a, tbl'⟩
  · have hgrown := hx base e' tbl' hr
    rw [Loading.run_rollingBack, hr] at h
    cases h
    exact hgrown.restore
  · rw [Loading.run_rollingBack, hr] at h
    cases h

end Failure

end Stub

/-- A load that fails leaves all registries, packages and classes as they were, those of the class
path itself included; so does a load from text. -/
theorem load_error_keeps (tbl tbl' : Table) (path : PathId) (e : Error) :
    (∀ documents, tbl.load path documents = (.error e, tbl') → tbl.Kept tbl') ∧
      ∀ text, tbl.loadJson path text = (.error e, tbl') → tbl.Kept tbl' := by
  constructor
  · intro documents h
    exact (Stub.failsGrown_loadDocuments documents).kept_rollingBack h
  · intro text h
    exact (Stub.FailsGrown.lift_bind _ Stub.failsGrown_loadDocuments).kept_rollingBack h

/-- A load that enters a class with a member class, and then a class of the same name. Two classes
are left in the table, and are out of reach. -/
theorem load_error_keeps_duplicate :
    let documents : List Datum := [.object [("package", .text "p"), ("types", .list [
      .object [("name", .text "C"), ("types", .list [.object [("name", .text "I")]])],
      .object [("name", .text "C")]])]]
    ∃ tbl' : Table,
      Table.load { paths := #[{}] } ⟨0⟩ documents =
        (.error (.structural (.duplicateType "p.C")), tbl') ∧
      tbl'.classes.size = 2 ∧ Table.Kept { paths := #[{}] } tbl' := by
  intro documents
  have hfails : (Table.load { paths := #[{}] } ⟨0⟩ documents).1 =
      .error (.structural (.duplicateType "p.C")) := by cbv
  have hsize : (Table.load { paths := #[{}] } ⟨0⟩ documents).2.classes.size = 2 := by cbv
  rcases hload : Table.load { paths := #[{}] } ⟨0⟩ documents with ⟨result, tbl'⟩
  rw [hload] at hfails hsize
  cases hfails
  exact ⟨tbl', rfl, hsize, (load_error_keeps _ tbl' ⟨0⟩ _).1 documents hload⟩

/-- The entry of an interface with the given name and interfaces. -/
def Stub.interfaceEntry (name : String) (above : List String) (rest : List (String × Datum)) :
    Datum :=
  .object ([("name", .text name), ("kind", .text "interface"),
    ("interfaces", .list (above.map .text))] ++ rest)

set_option maxRecDepth 20000 in
/-- An import that is no text is met when a name is looked up among the imports. -/
example :
    (Table.load { paths := #[{}] } ⟨0⟩ [.object [("package", .text "p"),
      ("imports", .list [.int 1]), ("types", .list [Stub.interfaceEntry "C" ["I"] []])]]).1 =
      .error (.shape .notTypeText) := by
  cbv

/-! ### The order of the types -/

set_option maxRecDepth 20000 in
/-- A name that denotes a member class of a class two steps above is known only if the step between
has been read before. Listed from the top down the three types load, and the field has the member
class as its type; listed from the bottom up they do not load. -/
theorem load_order_matters :
    let base : Datum := Stub.interfaceEntry "C" []
      [("types", .list [Stub.interfaceEntry "I" [] []])]
    let middle := Stub.interfaceEntry "B" ["C"] []
    let leaf := Stub.interfaceEntry "A" ["B"]
      [("fields", .list [.object [("name", .text "f"), ("type", .text "I")]])]
    let load (entries : List Datum) := Table.load { paths := #[{}] } ⟨0⟩
      [.object [("package", .text "p"), ("types", .list entries)]]
    (load [base, middle, leaf]).map id (fun tbl => (tbl.cls ⟨3⟩).fields.map (·.type)) =
        (.ok [⟨0⟩, ⟨1⟩, ⟨2⟩, ⟨3⟩], [.named ⟨1⟩ []]) ∧
      (load [leaf, middle, base]).1 = .error (.signature (.unknownType "I") "I" 0) := by
  refine ⟨?_, ?_⟩
  · cbv
  · cbv

end NominalTypes
