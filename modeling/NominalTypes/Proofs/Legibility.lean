import NominalTypes.CoreLibrary.System
import NominalTypes.Proofs.Bodies

/-!
# What loads leave in the table

A load that fails leaves declarations behind, and no load asks whether the expressions that it reads
denote types. Still every table that loads lead to is legible: each class stands after the class
around it, and the expressions in the bodies of all classes are of the form that is read. The one
exception is the class of enums, which an enum has above it without a count of its arguments.
-/

namespace NominalTypes

open List

namespace Table

variable {tbl tbl' : Table} {c e : ClassId} {d : ClassDecl} {path : PathId}
  {f : ClassDecl → ClassDecl}

/-- Classes are entered after the classes around them, none of which stands in for a primitive
type. -/
def Nested (tbl : Table) : Prop :=
  ∀ c e, (tbl.cls c).enclosing = some e → e.index < c.index ∧ (tbl.cls e).isPrimitive = false

/-- The table is nested, and all expressions in it are such as loads leave. -/
structure Legible (tbl : Table) : Prop where
  nested : tbl.Nested
  exprs : tbl.ExprsFrom 0 (Stub.Inscription tbl.arity fun _ => True)

/-- The class of enums takes one argument wherever it is applied to an enum. -/
def UnaryEnums (tbl : Table) : Prop :=
  ∀ c k, .applied k [.named c []] none [] ∈ (tbl.cls c).exprs → tbl.arity k = 1

/-- All expressions in the table are of the form that is read. -/
def Readable (tbl : Table) : Prop :=
  ∀ c, ∀ e ∈ (tbl.cls c).exprs, e.Written tbl.arity fun _ _ => True

theorem Legible.readable (h : tbl.Legible) (henums : tbl.UnaryEnums) : tbl.Readable := by
  intro c e he
  rcases h.exprs c (Nat.zero_le _) e he with hwritten | ⟨k, -, rfl⟩
  · exact hwritten
  · exact .applied (forall_mem_singleton.mpr .named) (cons_ne_nil _ _) (henums c k he).symm

theorem lt_size_of_enclosing (he : (tbl.cls c).enclosing = some e) :
    c.index < tbl.classes.size := by
  by_contra hc
  rw [cls_eq_default (Nat.le_of_not_lt hc)] at he
  cases he

theorem lt_size_of_arity (h : tbl.arity c ≠ 0) : c.index < tbl.classes.size := by
  by_contra hc
  rw [arity, cls_eq_default (Nat.le_of_not_lt hc)] at h
  exact h rfl

namespace Nested

theorem congr (h : tbl.Nested) (hcls : ∀ c, (tbl'.cls c).enclosing = (tbl.cls c).enclosing ∧
    (tbl'.cls c).isPrimitive = (tbl.cls c).isPrimitive) : tbl'.Nested := by
  intro c e he
  rw [(hcls c).1] at he
  rw [(hcls e).2]
  exact h c e he

theorem modifyClass (h : tbl.Nested) (c : ClassId)
    (hf : ∀ d, (f d).enclosing = d.enclosing ∧ (f d).isPrimitive = d.isPrimitive) :
    (tbl.modifyClass c f).Nested := by
  refine h.congr fun c' => ?_
  rcases Stub.cls_modifyClass tbl c f c' with ⟨-, -, hcls⟩ | ⟨-, hcls⟩
  · rw [hcls]
    exact hf _
  · rw [hcls]
    exact ⟨rfl, rfl⟩

theorem register (h : tbl.Nested) (hd : ∀ e, d.enclosing = some e →
    e.index < tbl.classes.size ∧ (tbl.cls e).isPrimitive = false)
    (hr : tbl.register path d = .ok (c, tbl')) : tbl'.Nested := by
  have hc := (Stub.register_eq_ok hr).2.1
  have hold {e : ClassId} (he : e.index < tbl.classes.size) : tbl'.cls e = tbl.cls e := by
    rcases Stub.cls_of_register hr e with ⟨rfl, -⟩ | ⟨-, hcls⟩
    · omega
    · exact hcls
  intro c' e he
  rcases Stub.cls_of_register hr c' with ⟨rfl, hcls⟩ | ⟨-, hcls⟩
  · rw [hcls] at he
    obtain ⟨hlt, hprimitive⟩ := hd e he
    exact ⟨hc ▸ hlt, hold hlt ▸ hprimitive⟩
  · rw [hcls] at he
    obtain ⟨hlt, hprimitive⟩ := h c' e he
    exact ⟨hlt, hold (hlt.trans (lt_size_of_enclosing he)) ▸ hprimitive⟩

end Nested

end Table

namespace Stub

open Table

variable {tbl base : Table} {path : PathId} {ps : List PackageId} {cs : List ClassId}
  {pending : List Pending}

/-- The first pass enters classes inside those that it has entered before. -/
theorem Entries.nested (h : Entries path base tbl ps cs) (hbase : base.Nested) :
    tbl.Nested ∧ ∀ c ∈ cs, c.index < tbl.classes.size ∧ (tbl.cls c).isPrimitive = false := by
  have hrefine {tbl : Table} {cs : List ClassId} (h : tbl.Nested ∧ ∀ c ∈ cs,
      c.index < tbl.classes.size ∧ (tbl.cls c).isPrimitive = false) (c : ClassId) {f}
      (hf : ∀ d, (f d).enclosing = d.enclosing ∧ (f d).isPrimitive = d.isPrimitive) :
      (tbl.modifyClass c f).Nested ∧ ∀ c' ∈ cs, c'.index < (tbl.modifyClass c f).classes.size ∧
        ((tbl.modifyClass c f).cls c').isPrimitive = false := by
    refine ⟨h.1.modifyClass c hf, fun c' hc' => ⟨by simpa [modifyClass] using (h.2 c' hc').1, ?_⟩⟩
    rcases cls_modifyClass tbl c f c' with ⟨-, -, hcls⟩ | ⟨-, hcls⟩
    · rw [hcls, (hf _).2, (h.2 c' hc').2]
    · rw [hcls, (h.2 c' hc').2]
  induction h with
  | start => exact ⟨hbase, forall_mem_nil _⟩
  | package _ name ih => simpa only [Nested, cls, classes_definePackage] using ih
  | @enter tbl mid ps cs package d c _ hheader _ henclosing hregister ih =>
    obtain ⟨-, hc, hclasses, -⟩ := register_eq_ok hregister
    have hmid := ih.1.register (fun e he => ih.2 e (henclosing e he)) hregister
    have hentered : ∀ c' ∈ cs ++ [c], c'.index < mid.classes.size ∧
        (mid.cls c').isPrimitive = false := by
      intro c' hc'
      rw [hclasses, Array.size_push]
      rcases cls_of_register hregister c' with ⟨rfl, hcls⟩ | ⟨hne, hcls⟩
      · exact ⟨by omega, hcls ▸ hheader.isPrimitive_eq⟩
      · obtain ⟨hlt, hprimitive⟩ :=
          ih.2 c' ((mem_append.mp hc').resolve_right (mt mem_singleton.mp hne))
        exact ⟨by omega, hcls ▸ hprimitive⟩
    exact attachTo_induction (P := fun t => t.Nested ∧ ∀ c' ∈ cs ++ [c],
      c'.index < t.classes.size ∧ (t.cls c').isPrimitive = false) ⟨hmid, hentered⟩
      d.enclosing d.nesting c fun e => hrefine ⟨hmid, hentered⟩ e fun _ => ⟨rfl, rfl⟩
  | list _ _ ih => exact hrefine ih _ fun _ => ⟨rfl, rfl⟩

/-- What has been read before keeps its form, for the classes that are entered are new. -/
theorem Entries.legible (h : Entries path base tbl ps cs) (hbase : base.Legible) : tbl.Legible := by
  refine ⟨(h.nested hbase.nested).1, h.exprsFrom (fun c hc e he => ?_) fun _ _ => .inl .named⟩
  refine (hbase.exprs c hc e he).imp_left (·.mono (fun c hc => ?_) fun _ _ _ => trivial)
  exact h.young.2.2 c (lt_size_of_arity hc)

theorem Completing.legible (h : Completing path base pending tbl) (hbase : base.Legible) :
    tbl.Legible := by
  obtain ⟨first, ps, hentries, hscopes, hrest⟩ := h
  have hfirst := hentries.legible hbase
  have hnested : tbl.Nested := hrest Table.Nested
    (fun p _ => maintains_define fun t f hf ht => ht.modifyClass p.cls fun d =>
      ⟨ClassDecl.eq_of_head_eq (hf d) (·.enclosing) fun _ => rfl,
        ClassDecl.eq_of_head_eq (hf d) (·.isPrimitive) fun _ => rfl⟩)
    (fun _ _ _ ht => ht) hfirst.nested
  have hdone : Inscribed first path (fun _ => True) 0 tbl := hrest _
    (fun p hp => hscopes p hp ▸ inscribed_define p)
    (fun _ _ _ h => ⟨h.paths_eq, h.arity_eq, h.found, h.exprs⟩)
    ⟨rfl, rfl, fun _ _ => trivial, hfirst.exprs⟩
  exact ⟨hnested, hdone.arity_eq ▸ hdone.exprs⟩

end Stub

namespace Table

variable {tbl tbl' : Table} {path : PathId} {c : ClassId} {d : ClassDecl}

theorem Legible.of_classes_eq (h : tbl.Legible) (heq : tbl'.classes = tbl.classes) :
    tbl'.Legible := by
  have hcls (c : ClassId) : tbl'.cls c = tbl.cls c := by rw [cls, heq, cls]
  have harity : tbl'.arity = tbl.arity := funext fun c => by rw [arity, hcls, arity]
  refine ⟨h.nested.congr fun c => by rw [hcls c]; exact ⟨rfl, rfl⟩, ?_⟩
  rw [harity]
  exact Stub.exprsFrom_of_classes_eq h.exprs heq

theorem Legible.register (h : tbl.Legible) (hexprs : d.exprs = []) (henclosing : d.enclosing = none)
    (hr : tbl.register path d = .ok (c, tbl')) : tbl'.Legible := by
  refine ⟨h.nested.register (by simp [henclosing]) hr,
    Stub.exprsFrom_register (fun c' hc' e he => ?_) hexprs hr⟩
  refine (h.exprs c' hc' e he).imp_left (·.mono (fun k hk => ?_) fun _ _ _ => trivial)
  rcases Stub.cls_of_register hr k with ⟨rfl, -⟩ | ⟨-, hcls⟩
  · have hlt := lt_size_of_arity hk
    have hc := (Stub.register_eq_ok hr).2.1
    omega
  · rw [arity, hcls, arity]

/-- A load keeps the table legible, whether it succeeds or fails. -/
theorem Legible.load (h : tbl.Legible) (path : PathId) (documents : List Datum) :
    (tbl.load path documents).2.Legible := by
  have hrun : ((Stub.loadDocuments path documents).run.run tbl).2.Legible := by
    have hleads := Stub.leads_loadDocuments path tbl documents
    rw [Stub.Loading.Leads] at hleads
    split at hleads
    · rename_i heq
      rw [heq]
      rcases hleads with ⟨ps, cs, hentries⟩ | ⟨pending, hcompleting⟩
      · exact hentries.legible h
      · exact hcompleting.legible h
    · rename_i heq
      rw [heq]
      obtain ⟨pending, -, hcompleting⟩ := hleads
      exact hcompleting.legible h
  refine hrun.of_classes_eq ?_
  rw [Table.load, Stub.Loading.run_rollingBack]
  rcases (Stub.loadDocuments path documents).run.run tbl with ⟨e | cs, tbl'⟩ <;> rfl

/-- The tables that loads lead to, beginning without classes. Stand-ins for primitive types are
registered by themselves; class paths, packages and the roles of classes are not looked at. -/
inductive Loaded : Table → Prop
  | start {tbl : Table} (h : tbl.classes = #[]) : Loaded tbl
  | standIn {tbl tbl' : Table} {path name c} (h : Loaded tbl)
      (hr : tbl.register path (CoreLibrary.primitiveClass name) = .ok (c, tbl')) : Loaded tbl'
  | load {tbl : Table} (h : Loaded tbl) (path : PathId) (documents : List Datum) :
      Loaded (tbl.load path documents).2
  | other {tbl tbl' : Table} (h : Loaded tbl) (heq : tbl'.classes = tbl.classes) : Loaded tbl'

theorem Loaded.legible (h : tbl.Loaded) : tbl.Legible := by
  induction h with
  | @start tbl h =>
    have hcls (c : ClassId) : tbl.cls c = default := cls_eq_default (by simp [h])
    refine ⟨fun c e he => ?_, fun c _ e he => ?_⟩
    · rw [hcls] at he
      cases he
    · rw [hcls] at he
      cases he
  | standIn _ hr ih => exact ih.register rfl rfl hr
  | load _ path documents ih => exact ih.load path documents
  | other _ heq ih => exact ih.of_classes_eq heq

theorem Loaded.loadJson (h : tbl.Loaded) (path : PathId) (text : String) :
    (tbl.loadJson path text).2.Loaded := by
  cases hdocuments : Stub.documentsOfJson text with
  | ok documents =>
    rw [Stub.loadJson_eq hdocuments]
    exact h.load path documents
  | error e =>
    refine h.other ?_
    rw [Table.loadJson, Stub.Loading.run_rollingBack, hdocuments]
    rfl

/-- The first table of a session is one of these. -/
theorem loaded_system : system.Loaded := by
  have hstandIns (names : List String) {tbl tbl' : Table} {path : PathId} (h : tbl.Loaded)
      (hmade : names.foldlM (fun tbl name => do
        return (← tbl.register path (CoreLibrary.primitiveClass name)).2) tbl = .ok tbl') :
      tbl'.Loaded := by
    induction names generalizing tbl with
    | nil =>
      cases hmade
      exact h
    | cons name names ih =>
      obtain ⟨_, hmade', hmade⟩ := bind_eq_ok.mp hmade
      obtain ⟨⟨c, next⟩, hr, hnext⟩ := bind_eq_ok.mp hmade'
      cases hnext
      exact ih (h.standIn hr) hmade
  rw [system]
  split
  · rename_i tbl hbuild
    obtain ⟨first, hfirst, hbuild⟩ := bind_eq_ok.mp hbuild
    split at hbuild
    · rename_i hload
      cases hbuild
      have hloaded := (hstandIns _ (.start rfl) hfirst).load ⟨0⟩ CoreLibrary.documents
      rw [show first.load ⟨0⟩ CoreLibrary.documents = _ from hload] at hloaded
      exact hloaded.other rfl
    · cases hbuild
  · exact .start rfl

end Table

end NominalTypes
