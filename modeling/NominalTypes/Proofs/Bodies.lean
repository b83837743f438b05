import NominalTypes.Proofs.Denotation
import NominalTypes.Proofs.Isolation

/-!
# The types of what a load declares

A load reads the expressions in the bodies of its classes, and looks at none of the types that they
denote. Whether they denote any is found out when a type is asked for. This file says for which
declarations the answer is a type: the expressions of all loaded classes are of the form of
`Expr.Written`, and an expression of this form denotes a type exactly if its parts are of the right
kinds.

The first pass leaves the bodies blank but for enum constants. While the second pass fills them in,
the class paths and the numbers of type parameters are as the first pass left them, so that what has
been read keeps its form; this is `Stub.Inscribed`. There is one expression that is not read: an
enum has the class of enums, applied to itself, above it. That class has to take one argument.
-/

namespace NominalTypes

open List

variable {c : ClassId} {entry : Datum} {e : Expr} {es : List Expr} {d : ClassDecl} {tbl : Table}
  {path : PathId} {f : ClassDecl → ClassDecl} {package : PackageId} {enclosing : Option ClassId}
  {scope : Scope} {p : Pending} {documents : List Datum} {x : ExecutableId}

/-- The type expressions of an executable. -/
def ExecutableDecl.exprs (d : ExecutableDecl) : List Expr :=
  d.returnType :: (d.parameters.map (·.type) ++ d.thrown ++ d.typeParameters.flatMap (·.bounds))

/-- The type expressions of a class and its members. -/
def ClassDecl.exprs (d : ClassDecl) : List Expr :=
  d.superclass.toList ++ d.interfaces ++ d.typeParameters.flatMap (·.bounds) ++
    d.fields.map (·.type) ++ (d.constructors ++ d.methods).flatMap (·.exprs)

theorem mem_or_of_mem_modify {α : Type} {as : List α} {i} {f : α → α} {a} (h : a ∈ as.modify i f) :
    a ∈ as ∨ ∃ b, a = f b := by
  obtain ⟨j, hj⟩ := mem_iff_getElem?.mp h
  rw [getElem?_modify] at hj
  obtain ⟨b, hb, rfl⟩ := Option.map_eq_some_iff.mp hj
  split
  · exact .inr ⟨b, rfl⟩
  · exact .inl (mem_of_getElem? hb)

theorem ClassDecl.mem_exprs : e ∈ d.exprs ↔ d.superclass = some e ∨ e ∈ d.interfaces ∨
      (∃ v ∈ d.typeParameters, e ∈ v.bounds) ∨ (∃ f ∈ d.fields, f.type = e) ∨
      (∃ x ∈ d.constructors, e ∈ x.exprs) ∨ ∃ x ∈ d.methods, e ∈ x.exprs := by
  simp only [exprs, mem_append, Option.mem_toList, mem_flatMap,
    mem_map, or_and_right, exists_or, or_assoc]

/-- What the class path has as the class of enums takes one argument. -/
def Table.EnumIsUnary (tbl : Table) (path : PathId) : Prop :=
  ∀ c, tbl.lookupType path "java.lang.Enum" = some c → tbl.arity c = 1

theorem Table.lookupType_congr {tbl' : Table} (h : tbl'.paths = tbl.paths) (path : PathId)
    (name : String) : tbl'.lookupType path name = tbl.lookupType path name := by
  have hchain (fuel : Nat) (p : PathId) :
      tbl'.pathChainWithin fuel p = tbl.pathChainWithin fuel p := by
    induction fuel generalizing p with
    | zero => simp only [pathChainWithin, Table.path, h]
    | succ fuel ih => simp only [pathChainWithin, Table.path, h, ih]
  rw [lookupType, pathChain, h, hchain]
  rfl

/-- Whether it does depends on the class paths and on the numbers of type parameters only. -/
theorem Table.EnumIsUnary.congr {tbl' : Table} (h : tbl'.EnumIsUnary path)
    (hpaths : tbl'.paths = tbl.paths) (harity : tbl'.arity = tbl.arity) : tbl.EnumIsUnary path := by
  intro c hc
  rw [← harity]
  exact h c (lookupType_congr hpaths path _ ▸ hc)

/-- The expressions of all classes from an index on have the property. -/
def Table.ExprsFrom (tbl : Table) (size : Nat) (P : ClassId → Expr → Prop) : Prop :=
  ∀ c : ClassId, size ≤ c.index → ∀ e ∈ (tbl.cls c).exprs, P c e

theorem Table.arity_modifyClass (c : ClassId)
    (hf : ∀ d, (f d).typeParameters.length = d.typeParameters.length) :
    (tbl.modifyClass c f).arity = tbl.arity := by
  funext c'
  rcases Stub.cls_modifyClass tbl c f c' with ⟨-, -, hcls⟩ | ⟨-, hcls⟩
  · rw [arity, hcls, hf, arity]
  · rw [arity, hcls, arity]

namespace Stub

/-! ### The first pass -/

section FirstPass

variable {size : Nat} {tbl' : Table} {P : ClassId → Expr → Prop}

theorem exprsFrom_size (tbl : Table) (P : ClassId → Expr → Prop) :
    tbl.ExprsFrom tbl.classes.size P := by
  intro c hc e he
  rw [Table.cls_eq_default hc] at he
  cases he

theorem exprsFrom_of_classes_eq (h : tbl.ExprsFrom size P) (heq : tbl'.classes = tbl.classes) :
    tbl'.ExprsFrom size P := by
  intro c hc e he
  rw [Table.cls, heq] at he
  exact h c hc e he

theorem exprsFrom_modifyClass (h : tbl.ExprsFrom size P) (c : ClassId)
    (hf : ∀ d : ClassDecl, ∀ e ∈ (f d).exprs, e ∈ d.exprs ∨ P c e) :
    (tbl.modifyClass c f).ExprsFrom size P := by
  intro c' hc' e he
  rcases cls_modifyClass tbl c f c' with ⟨rfl, -, hcls⟩ | ⟨-, hcls⟩
  · rw [hcls] at he
    rcases hf _ e he with he | hP
    · exact h c' hc' e he
    · exact hP
  · rw [hcls] at he
    exact h c' hc' e he

theorem exprsFrom_register (h : tbl.ExprsFrom size P) (hd : d.exprs = [])
    (hr : tbl.register path d = .ok (c, tbl')) : tbl'.ExprsFrom size P := by
  intro c' hc' e he
  rcases cls_of_register hr c' with ⟨-, hcls⟩ | ⟨-, hcls⟩
  · rw [hcls, hd] at he
    cases he
  · rw [hcls] at he
    exact h c' hc' e he

theorem IsHeader.exprs_eq (h : IsHeader tbl path package enclosing d) : d.exprs = [] := by
  have hbounds : d.typeParameters.flatMap (·.bounds) = [] :=
    flatMap_eq_nil_iff.mpr fun v hv => (h.parameters v hv).1
  obtain ⟨hsuperclass, hinterfaces⟩ := h.supertypes
  obtain ⟨hfields, hconstructors, hmethods, -⟩ := h.members
  simp [ClassDecl.exprs, hbounds, hsuperclass, hinterfaces, hfields, hconstructors, hmethods]

theorem classes_definePackage (tbl : Table) (path : PathId) (name : Name) :
    (tbl.definePackage path name).2.classes = tbl.classes := by
  simp only [Table.definePackage]
  split
  · rfl
  · rfl

/-- The first pass writes no expressions but the names of enums. -/
theorem Entries.exprsFrom {base ps cs} (h : Entries path base tbl ps cs)
    (hbase : base.ExprsFrom size P) (hnamed : ∀ c d, P c (.named d [])) : tbl.ExprsFrom size P := by
  induction h with
  | start => exact hbase
  | package _ name ih => exact exprsFrom_of_classes_eq ih (classes_definePackage _ _ name)
  | @enter tbl mid ps cs package d c _ hheader _ _ hregister ih =>
    have hmid := exprsFrom_register ih hheader.exprs_eq hregister
    exact attachTo_induction (P := (·.ExprsFrom size P)) hmid d.enclosing d.nesting c fun e =>
      exprsFrom_modifyClass hmid e fun _ _ he => .inl he
  | list _ constants ih =>
    refine exprsFrom_modifyClass ih _ fun d e he => ?_
    simp only [ClassDecl.mem_exprs, mem_map] at he ⊢
    rcases he with he | he | he | ⟨f, ⟨name, -, rfl⟩, rfl⟩ | he
    · exact .inl (.inl he)
    · exact .inl (.inr (.inl he))
    · exact .inl (.inr (.inr (.inl he)))
    · exact .inr (hnamed _ _)
    · exact .inl (.inr (.inr (.inr (.inr he))))

/-- The classes that are entered are younger than those before, which keep their type parameters. -/
theorem Entries.young {base ps cs} (h : Entries path base tbl ps cs) :
    base.classes.size ≤ tbl.classes.size ∧ (∀ c ∈ cs, base.classes.size ≤ c.index) ∧
      ∀ c : ClassId, c.index < base.classes.size → tbl.arity c = base.arity c := by
  induction h with
  | start => exact ⟨Nat.le_refl _, forall_mem_nil _, fun _ _ => rfl⟩
  | @package tbl ps cs _ name ih =>
    simpa only [Table.arity, Table.cls, classes_definePackage] using ih
  | @enter tbl mid ps cs package d c _ _ _ _ hregister ih =>
    obtain ⟨hle, hyoung, harity⟩ := ih
    obtain ⟨-, hc, hclasses, -⟩ := register_eq_ok hregister
    have hattached := attachTo_induction
      (P := fun t => t.arity = mid.arity ∧ t.classes.size = mid.classes.size) ⟨rfl, rfl⟩
      d.enclosing d.nesting c fun e =>
        ⟨Table.arity_modifyClass e fun _ => rfl, by simp [Table.modifyClass]⟩
    refine ⟨?_, forall_mem_append.mpr ⟨hyoung, forall_mem_singleton.mpr (hc ▸ hle)⟩,
      fun c' hc' => ?_⟩
    · simp [hattached.2, hclasses]
      omega
    · rw [hattached.1, ← harity c' hc', Table.arity, Table.arity]
      rcases cls_of_register hregister c' with ⟨rfl, -⟩ | ⟨-, hcls⟩
      · omega
      · rw [hcls]
  | @list tbl ps cs c _ _ ih =>
    obtain ⟨hle, hyoung, harity⟩ := ih
    refine ⟨by simpa [Table.modifyClass] using hle, hyoung, fun c' hc' => ?_⟩
    rw [Table.arity_modifyClass, harity c' hc']
    exact fun _ => rfl

end FirstPass

/-! ### The second pass -/

/-- An expression as a load may leave it in the body of a class: of the form that is read, or a
class of enums applied to the class itself. -/
def Inscription (arity : ClassId → Nat) (enums : ClassId → Prop) (c : ClassId) (e : Expr) : Prop :=
  (e.Written arity fun _ _ => True) ∨ ∃ k, enums k ∧ e = .applied k [.named c []] none []

/-- While bodies are read, the class paths and the numbers of type parameters are those of the table
`first`, and all expressions of the classes from an index on are such as loads leave. -/
structure Inscribed (first : Table) (path : PathId) (enums : ClassId → Prop) (size : Nat)
    (tbl : Table) : Prop where
  paths_eq : tbl.paths = first.paths
  arity_eq : tbl.arity = first.arity
  found : ∀ k, first.lookupType path "java.lang.Enum" = some k → enums k
  exprs : tbl.ExprsFrom size (Inscription first.arity enums)

section SecondPass

variable {first : Table} {size : Nat} {enums : ClassId → Prop}

section Inscribed

variable (h : Inscribed first path enums size tbl)

include h

theorem Inscribed.modifyClass (c : ClassId)
    (hcount : ∀ d, (f d).typeParameters.length = d.typeParameters.length)
    (hf : ∀ d : ClassDecl, ∀ e ∈ (f d).exprs, e ∈ d.exprs ∨ Inscription first.arity enums c e) :
    Inscribed first path enums size (tbl.modifyClass c f) where
  paths_eq := h.paths_eq
  arity_eq := (Table.arity_modifyClass c hcount).trans h.arity_eq
  found := h.found
  exprs := exprsFrom_modifyClass h.exprs c hf

/-- What is read while bodies are read. -/
theorem Inscribed.written_parseType {text}
    (he : Signature.parseType tbl scope text = .ok e) : e.Written first.arity fun _ _ => True := by
  rw [← h.arity_eq]
  exact (Signature.written_of_parseType he).1.mono (fun _ _ => rfl) fun _ _ _ => trivial

theorem Inscribed.written_types {key}
    (hes : types tbl scope entry key = .ok es) :
    ∀ e ∈ es, e.Written first.arity fun _ _ => True := by
  obtain ⟨ds, -, hes⟩ := bind_eq_ok.mp hes
  intro e he
  obtain ⟨d, -, he⟩ := exists_of_forall₂_right (mapM_eq_ok.mp hes) he
  obtain ⟨text, -, he⟩ := bind_eq_ok.mp he
  exact h.written_parseType he

theorem Inscribed.written_parameterBounds {declaration}
    (hes : parameterBounds tbl scope declaration = .ok es) :
    ∀ e ∈ es, e.Written first.arity fun _ _ => True := by
  obtain ⟨⟨name, bounds⟩, -, hes⟩ := bind_eq_ok.mp hes
  cases bounds with
  | none =>
    cases hes
    exact forall_mem_nil _
  | some text =>
    dsimp only at hes
    split at hes
    · cases hes
      exact forall_mem_nil _
    · intro e he
      rw [← h.arity_eq]
      exact (Signature.written_of_parseBounds hes e he).1.mono (fun _ _ => rfl) fun _ _ _ => trivial

theorem Inscribed.written_returnType {isConstructor}
    (he : returnType tbl scope isConstructor entry = .ok e) :
    e.Written first.arity fun _ _ => True := by
  rw [returnType] at he
  split at he
  · obtain ⟨c, -, he⟩ := bind_eq_ok.mp he
    cases he
    exact .named
  · obtain ⟨text, -, he⟩ := bind_eq_ok.mp he
    exact h.written_parseType he

theorem Inscribed.written_parameter {className name count index made}
    (hmade : parameter tbl scope className name count index entry = .ok made) :
    made.1.type.Written first.arity fun _ _ => True := by
  obtain ⟨d, -, hmade⟩ := bind_eq_ok.mp hmade
  obtain ⟨text, -, hmade⟩ := bind_eq_ok.mp hmade
  split at hmade
  · cases hmade
  · obtain ⟨e, he, hmade⟩ := bind_eq_ok.mp hmade
    obtain ⟨flags, -, hmade⟩ := bind_eq_ok.mp hmade
    obtain ⟨marks, -, hmade⟩ := bind_eq_ok.mp hmade
    cases hmade
    exact h.written_parseType he

theorem Inscribed.written_executable {id name made}
    (hmade : executable tbl scope id name entry = .ok made) :
    ∀ e ∈ made.exprs, e.Written first.arity fun _ _ => True := by
  rw [executable] at hmade
  split at hmade
  · obtain ⟨flags, -, hmade⟩ := bind_eq_ok.mp hmade
    obtain ⟨entries, -, hmade⟩ := bind_eq_ok.mp hmade
    obtain ⟨declarations, -, hmade⟩ := bind_eq_ok.mp hmade
    obtain ⟨bounds, hbounds, hmade⟩ := bind_eq_ok.mp hmade
    obtain ⟨result, hresult, hmade⟩ := bind_eq_ok.mp hmade
    obtain ⟨items, -, hmade⟩ := bind_eq_ok.mp hmade
    obtain ⟨parameters, hparameters, hmade⟩ := bind_eq_ok.mp hmade
    obtain ⟨thrown, hthrown, hmade⟩ := bind_eq_ok.mp hmade
    obtain ⟨marks, -, hmade⟩ := bind_eq_ok.mp hmade
    obtain ⟨default, -, hmade⟩ := bind_eq_ok.mp hmade
    cases hmade
    refine forall_mem_cons.mpr ⟨h.written_returnType hresult, ?_⟩
    refine forall_mem_append.mpr ⟨forall_mem_append.mpr ⟨?_, h.written_types hthrown⟩, ?_⟩
    · intro e he
      simp only [mem_map, exists_exists_and_eq_and] at he
      obtain ⟨made, hmade, rfl⟩ := he
      obtain ⟨item, -, hitem⟩ := exists_of_forall₂_right (mapM_eq_ok.mp hparameters) hmade
      exact h.written_parameter hitem
    · intro e he
      obtain ⟨v, hv, he⟩ := mem_flatMap.mp he
      obtain ⟨⟨name, es⟩, hes, rfl⟩ := mem_map.mp hv
      obtain ⟨text, -, htext⟩ :=
        exists_of_forall₂_right (mapM_eq_ok.mp hbounds) (of_mem_zip hes).2
      exact h.written_parameterBounds htext e he
  · cases hmade

theorem Inscribed.written_field {made}
    (hmade : field tbl p entry = .ok made) :
    made.type.Written first.arity fun _ _ => True := by
  obtain ⟨name, -, hmade⟩ := bind_eq_ok.mp hmade
  obtain ⟨type, -, hmade⟩ := bind_eq_ok.mp hmade
  obtain ⟨flags, -, hmade⟩ := bind_eq_ok.mp hmade
  obtain ⟨text, -, hmade⟩ := bind_eq_ok.mp hmade
  obtain ⟨e, he, hmade⟩ := bind_eq_ok.mp hmade
  obtain ⟨marks, -, hmade⟩ := bind_eq_ok.mp hmade
  cases hmade
  exact h.written_parseType he

theorem Inscribed.written_interfaces (hes : interfaces tbl p = .ok es) :
    ∀ e ∈ es, e.Written first.arity fun _ _ => True := by
  obtain ⟨written, hwritten, hes⟩ := bind_eq_ok.mp hes
  split at hes
  · obtain ⟨root, -, hes⟩ := bind_eq_ok.mp hes
    cases hes
    exact forall_mem_append.mpr ⟨h.written_types hwritten, forall_mem_singleton.mpr .named⟩
  · cases hes
    exact h.written_types hwritten

end Inscribed

/-- The superclass that an enum has where none is written is the enum class with one argument. -/
theorem Inscribed.inscription_superclass (h : Inscribed first p.scope.path enums size tbl) {above}
    (habove : superclass tbl p = .ok above) :
    ∀ e ∈ above, Inscription first.arity enums p.cls e := by
  rw [superclass] at habove
  split at habove
  · obtain ⟨text, -, habove⟩ := bind_eq_ok.mp habove
    obtain ⟨e, he, habove⟩ := bind_eq_ok.mp habove
    cases habove
    rintro e ⟨⟩
    exact .inl (h.written_parseType he)
  · split at habove
    · obtain ⟨c, -, habove⟩ := bind_eq_ok.mp habove
      cases habove
      rintro e ⟨⟩
      exact .inl .named
    · split at habove
      · obtain ⟨c, hc, habove⟩ := bind_eq_ok.mp habove
        cases habove
        rintro e ⟨⟩
        refine .inr ⟨c, h.found c ?_, rfl⟩
        rw [Table.requireType, Table.lookupType_congr h.paths_eq] at hc
        split at hc
        · cases hc
          assumption
        · cases hc
      · cases habove
        rintro e ⟨⟩

/-- Reading the body of a class keeps the number of its type parameters, and adds expressions such
as loads leave. -/
theorem inscribed_define (p : Pending) :
    Maintains (Inscribed first p.scope.path enums size) (define p) fun _ => True := by
  have hrefine (f : ClassDecl → ClassDecl)
      (hcount : ∀ d, (f d).typeParameters.length = d.typeParameters.length)
      (hf : ∀ d : ClassDecl, ∀ e ∈ (f d).exprs,
        e ∈ d.exprs ∨ Inscription first.arity enums p.cls e) :
      Maintains (Inscribed first p.scope.path enums size) (refine p.cls f) fun _ => True :=
    Maintains.modifying fun tbl h => h.modifyClass p.cls hcount hf
  have hread {es : List Expr} (hes : ∀ e ∈ es, e.Written first.arity fun _ _ => True) :
      ∀ e ∈ es, Inscription first.arity enums p.cls e :=
    fun e he => .inl (hes e he)
  have hbounds :
      Maintains (Inscribed first p.scope.path enums size) (defineBounds p) fun _ => True := by
    refine (Maintains.lift _).bind fun texts _ => Maintains.forM _ fun text _ => ?_
    refine Maintains.get.bind fun tbl htbl => (Maintains.lift _).bind fun es hes => ?_
    refine hrefine _ (by simp) fun d e he => ?_
    have hes := hread (htbl.written_parameterBounds hes)
    simp only [ClassDecl.mem_exprs] at he ⊢
    rcases he with he | he | ⟨v, hv, he⟩ | he
    · exact .inl (.inl he)
    · exact .inl (.inr (.inl he))
    · rcases mem_or_of_mem_modify hv with hv | ⟨w, rfl⟩
      · exact .inl (.inr (.inr (.inl ⟨v, hv, he⟩)))
      · exact .inr (hes e he)
    · exact .inl (.inr (.inr (.inr he)))
  have hheader :
      Maintains (Inscribed first p.scope.path enums size) (defineHeader p) fun _ => True := by
    refine hbounds.bind fun _ _ => Maintains.get.bind fun tbl htbl => ?_
    refine (Maintains.lift _).bind fun above habove => ?_
    have habove := htbl.inscription_superclass habove
    refine (hrefine _ (by simp) fun d e he => ?_).bind fun _ _ => ?_
    · simp only [ClassDecl.mem_exprs] at he ⊢
      grind
    refine Maintains.get.bind fun tbl htbl => (Maintains.lift _).bind fun es hes => ?_
    have hes := hread (htbl.written_interfaces hes)
    refine (hrefine _ (by simp) fun d e he => ?_).bind fun _ _ => ?_
    · simp only [ClassDecl.mem_exprs] at he ⊢
      grind
    refine Maintains.get.bind fun _ _ => (Maintains.lift _).bind fun _ _ => ?_
    exact hrefine _ (by simp) fun d e he => .inl he
  have hfield (entry : Datum) :
      Maintains (Inscribed first p.scope.path enums size) (defineField p entry) fun _ => True := by
    refine Maintains.get.bind fun tbl htbl => (Maintains.lift _).bind fun made hmade => ?_
    have hmade := hread (forall_mem_singleton.mpr (htbl.written_field hmade))
    refine hrefine _ (by simp) fun d e he => ?_
    simp only [ClassDecl.mem_exprs] at he ⊢
    grind
  have hconstructor (entry : Datum) :
      Maintains (Inscribed first p.scope.path enums size) (defineConstructor p entry)
        fun _ => True := by
    refine Maintains.get.bind fun tbl htbl => (Maintains.lift _).bind fun made hmade => ?_
    have hmade := hread (htbl.written_executable hmade)
    refine hrefine _ (by simp) fun d e he => ?_
    simp only [ClassDecl.mem_exprs] at he ⊢
    grind
  have hmethod (entry : Datum) :
      Maintains (Inscribed first p.scope.path enums size) (defineMethod p entry) fun _ => True := by
    refine Maintains.get.bind fun tbl htbl => (Maintains.lift _).bind fun name _ => ?_
    refine (Maintains.lift _).bind fun made hmade => ?_
    have hmade := hread (htbl.written_executable hmade)
    refine hrefine _ (by simp) fun d e he => ?_
    simp only [ClassDecl.mem_exprs] at he ⊢
    grind
  refine hheader.bind fun _ _ => (Maintains.lift _).bind fun fields _ => ?_
  refine (Maintains.forM fields fun entry _ => hfield entry).bind fun _ _ => ?_
  refine Maintains.get.bind fun _ _ => (Maintains.lift _).bind fun constructors _ => ?_
  refine (Maintains.forM constructors fun entry _ => hconstructor entry).bind fun _ _ => ?_
  exact (Maintains.lift _).bind fun methods _ => Maintains.forM methods fun entry _ => hmethod entry

end SecondPass

/-- The classes that a load gives are younger than the table before, and the bodies of all younger
classes are blank after the first pass and of the form that is read after the second. -/
theorem written_of_load {base : Table} {cs} (h : base.load path documents = (.ok cs, tbl))
    (henum : tbl.EnumIsUnary path) :
    ∀ c ∈ cs, ∀ e ∈ (tbl.cls c).exprs, e.Written tbl.arity fun _ _ => True := by
  obtain ⟨pending, rfl, first, ps, hentries, hscopes, hrest⟩ :=
    completing_of_loadDocuments (eq_ok_of_rollingBack h)
  have hfirst : Inscribed first path (first.lookupType path "java.lang.Enum" = some ·)
      base.classes.size first :=
    ⟨rfl, rfl, fun _ => id, hentries.exprsFrom (exprsFrom_size base _) fun _ _ => .inl .named⟩
  have hdone := hrest _ (fun p hp => hscopes p hp ▸ inscribed_define p)
    (fun _ _ _ h => ⟨h.paths_eq, h.arity_eq, h.found, h.exprs⟩) hfirst
  have henum' : first.EnumIsUnary path := henum.congr hdone.paths_eq hdone.arity_eq
  intro c hc e he
  rw [hdone.arity_eq]
  rcases hdone.exprs c (hentries.young.2.1 c hc) e he with hwritten | ⟨k, hk, rfl⟩
  · exact hwritten
  · exact .applied (forall_mem_singleton.mpr .named) (cons_ne_nil _ _) (henum' k hk).symm

end Stub

/-! ### The types of loaded declarations -/

namespace Table

variable (tbl : Table)

/-- The elements that a class brings with it: itself, its type parameters, fields and executables,
and the parameters and type parameters of these. -/
def elementsOf (c : ClassId) : List Element :=
  .type c :: ((tbl.typeVars (.cls c)).map .typeParameter ++ (tbl.fieldsOf c).map .field ++
    (tbl.constructorsOf c ++ tbl.methodsOf c).flatMap fun x =>
      .executable x :: ((tbl.parametersOf x).map .parameter ++
        (tbl.typeVars (.executable x)).map .typeParameter))

/-- The expressions that an element is declared with. A constructor returns nothing, whatever stands
there. -/
def exprsOf : Element → List Expr
  | .type c => (tbl.cls c).superclass.toList ++ (tbl.cls c).interfaces
  | .executable x => (if x.isConstructor then [] else [(tbl.executable x).returnType]) ++
      (tbl.executable x).parameters.map (·.type) ++ (tbl.executable x).thrown
  | .field f => [(tbl.field f).type]
  | .parameter p => [(tbl.parameter p).type]
  | .typeParameter v => (tbl.typeVar v).bounds
  | _ => []

/-- The element has a type; its bounds, its superclass and its interfaces are types. -/
structure HasTypes (x : Element) : Prop where
  type : ∃ t, tbl.typeOf x = .ok t
  bounds : ∃ ts, tbl.elementBounds x = .ok ts
  superclass : ∀ c, x = .type c → ∃ t, tbl.superclassType c = .ok t
  interfaces : ∀ c, x = .type c → ∃ ts, tbl.interfaceTypes c = .ok ts

variable {tbl}

theorem exists_executableType :
    (∃ t, tbl.executableType x = .ok t) ↔
      ∀ e ∈ tbl.exprsOf (.executable x), ∃ t, tbl.descriptor e = .ok t := by
  have hresult : (∃ t, tbl.resultType x = .ok t) ↔
      ∀ e ∈ if x.isConstructor then [] else [(tbl.executable x).returnType],
        ∃ t, tbl.descriptor e = .ok t := by
    rw [resultType]
    split_ifs
    · exact ⟨fun _ => forall_mem_nil _, fun _ => ⟨_, rfl⟩⟩
    · rw [forall_mem_singleton]
  rw [exprsOf, forall_mem_append, forall_mem_append, ← hresult, ← exists_descriptors,
    ← exists_descriptors]
  constructor
  · rintro ⟨t, h⟩
    obtain ⟨result, hresult, h⟩ := bind_eq_ok.mp h
    obtain ⟨parameters, hparameters, h⟩ := bind_eq_ok.mp h
    obtain ⟨thrown, hthrown, -⟩ := bind_eq_ok.mp h
    exact ⟨⟨⟨result, hresult⟩, parameters, hparameters⟩, thrown, hthrown⟩
  · rintro ⟨⟨⟨result, hresult⟩, parameters, hparameters⟩, thrown, hthrown⟩
    exact ⟨_, bind_eq_ok.mpr ⟨result, hresult, bind_eq_ok.mpr ⟨parameters, hparameters,
      bind_eq_ok.mpr ⟨thrown, hthrown, rfl⟩⟩⟩⟩

theorem exists_boundsOf {v} :
    (∃ ts, tbl.boundsOf v = .ok ts) ↔
      ∀ e ∈ (tbl.typeVar v).bounds, ∃ t, tbl.descriptor e = .ok t := by
  rw [boundsOf]
  split
  · rename_i hbounds
    rw [hbounds]
    exact ⟨fun _ => forall_mem_nil _, fun _ => ⟨_, rfl⟩⟩
  · exact exists_descriptors

/-- A declaration has types exactly if all its expressions denote some. -/
theorem hasTypes_iff {x} (hx : x ∈ tbl.elementsOf c) :
    tbl.HasTypes x ↔ ∀ e ∈ tbl.exprsOf x, ∃ t, tbl.descriptor e = .ok t := by
  cases x with
  | type d =>
    have hsuperclass : (∃ t, tbl.superclassType d = .ok t) ↔
        ∀ e ∈ (tbl.cls d).superclass.toList, ∃ t, tbl.descriptor e = .ok t := by
      rw [superclassType]
      cases (tbl.cls d).superclass with
      | none => exact ⟨fun _ => forall_mem_nil _, fun _ => ⟨_, rfl⟩⟩
      | some e => rw [Option.toList_some, forall_mem_singleton]
    rw [exprsOf, forall_mem_append, ← hsuperclass, ← exists_descriptors]
    exact ⟨fun h => ⟨h.superclass d rfl, h.interfaces d rfl⟩,
      fun h => ⟨⟨_, rfl⟩, ⟨_, rfl⟩, by rintro _ ⟨⟩; exact h.1, by rintro _ ⟨⟩; exact h.2⟩⟩
  | executable x =>
    rw [← exists_executableType]
    exact ⟨fun h => h.type, fun h => ⟨h, ⟨_, rfl⟩, by rintro _ ⟨⟩, by rintro _ ⟨⟩⟩⟩
  | field f =>
    rw [exprsOf, forall_mem_singleton]
    exact ⟨fun h => h.type, fun h => ⟨h, ⟨_, rfl⟩, by rintro _ ⟨⟩, by rintro _ ⟨⟩⟩⟩
  | parameter p =>
    rw [exprsOf, forall_mem_singleton]
    exact ⟨fun h => h.type, fun h => ⟨h, ⟨_, rfl⟩, by rintro _ ⟨⟩, by rintro _ ⟨⟩⟩⟩
  | typeParameter v =>
    rw [exprsOf, ← exists_boundsOf]
    exact ⟨fun h => h.bounds, fun h => ⟨⟨_, rfl⟩, h, by rintro _ ⟨⟩, by rintro _ ⟨⟩⟩⟩
  | package | captureSite | capturedParameter => simp [elementsOf] at hx

theorem getD_mem {α : Type} {as : List α} {i} (h : i < as.length) (a : α) :
    as.getD i a ∈ as := by
  rw [getD_eq_getElem _ _ h]
  exact getElem_mem h

/-- The expressions of an executable of a class are among those of the class. -/
theorem mem_exprs_of_executable (hx : x ∈ tbl.constructorsOf c ++ tbl.methodsOf c)
    (he : e ∈ (tbl.executable x).exprs) : e ∈ (tbl.cls c).exprs := by
  rw [ClassDecl.mem_exprs]
  simp only [constructorsOf, methodsOf, mem_append, mem_map, mem_range] at hx
  rcases hx with ⟨i, hi, rfl⟩ | ⟨i, hi, rfl⟩
  · exact .inr (.inr (.inr (.inr (.inl ⟨_, getD_mem hi _, he⟩))))
  · exact .inr (.inr (.inr (.inr (.inr ⟨_, getD_mem hi _, he⟩))))

theorem mem_exprs_of_mem_exprsOf {x} (hx : x ∈ tbl.elementsOf c) (he : e ∈ tbl.exprsOf x) :
    e ∈ (tbl.cls c).exprs := by
  simp only [elementsOf, mem_cons, mem_append, mem_map, mem_flatMap] at hx
  rcases hx with rfl | (⟨v, hv, rfl⟩ | ⟨f, hf, rfl⟩) | ⟨x, hx, rfl | ⟨p, hp, rfl⟩ | ⟨v, hv, rfl⟩⟩
  · rw [ClassDecl.mem_exprs]
    rcases mem_append.mp he with he | he
    · exact .inl (Option.mem_toList.mp he)
    · exact .inr (.inl he)
  · obtain ⟨i, hi, rfl⟩ := mem_map.mp hv
    exact ClassDecl.mem_exprs.mpr
      (.inr (.inr (.inl ⟨_, getD_mem (mem_range.mp hi) _, he⟩)))
  · obtain ⟨i, hi, rfl⟩ := mem_map.mp hf
    cases mem_singleton.mp he
    exact ClassDecl.mem_exprs.mpr
      (.inr (.inr (.inr (.inl ⟨_, getD_mem (mem_range.mp hi) _, rfl⟩))))
  · refine mem_exprs_of_executable (mem_append.mpr hx) ?_
    simp only [exprsOf, ExecutableDecl.exprs, mem_append, mem_cons] at he ⊢
    grind
  · obtain ⟨i, hi, rfl⟩ := mem_map.mp hp
    cases mem_singleton.mp he
    refine mem_exprs_of_executable (mem_append.mpr hx) (mem_cons_of_mem _ ?_)
    exact mem_append_left _ (mem_append_left _
      (mem_map_of_mem (getD_mem (mem_range.mp hi) _)))
  · obtain ⟨i, hi, rfl⟩ := mem_map.mp hv
    refine mem_exprs_of_executable (mem_append.mpr hx) (mem_cons_of_mem _ ?_)
    exact mem_append_right _
      (mem_flatMap.mpr ⟨_, getD_mem (mem_range.mp hi) _, he⟩)

/-- A class path that knows the primitive type `int`. -/
def withInt : Table where
  classes := #[{ name := "int", simpleName := "int", kind := .primitive }]
  paths := #[{ types := #[("int", ⟨0⟩)] }]

/-- An interface with a type parameter, and another with two fields. The argument of the first field
is a primitive type. -/
def primitiveArgument : List Datum :=
  [.object [("package", .text "p"), ("types", .list [
    .object [("name", .text "N"), ("kind", .text "interface"), ("type_params", .list [.text "T"])],
    .object [("name", .text "C"), ("kind", .text "interface"), ("fields", .list [
      .object [("name", .text "f"), ("type", .text "N<int>")],
      .object [("name", .text "g"), ("type", .text "N<C>")]])]])]]

set_option maxRecDepth 20000 in
theorem load_primitiveArgument :
    ∃ tbl, withInt.load ⟨0⟩ primitiveArgument = (.ok [⟨1⟩, ⟨2⟩], tbl) ∧
      tbl.lookupType ⟨0⟩ "java.lang.Enum" = none ∧
      tbl.elementsOf ⟨2⟩ = [.type ⟨2⟩, .field ⟨⟨2⟩, 0⟩, .field ⟨⟨2⟩, 1⟩] ∧
      tbl.exprsOf (.field ⟨⟨2⟩, 0⟩) = [.applied ⟨1⟩ [.named ⟨0⟩ []] none []] ∧
      tbl.exprsOf (.field ⟨⟨2⟩, 1⟩) = [.applied ⟨1⟩ [.named ⟨2⟩ []] none []] ∧
      tbl.wellKinded (.applied ⟨1⟩ [.named ⟨0⟩ []] none []) = false ∧
      tbl.wellKinded (.applied ⟨1⟩ [.named ⟨2⟩ []] none []) = true ∧
      Signature.parseType tbl { path := ⟨0⟩, package := "p" } "N<int>" =
        .ok (.applied ⟨1⟩ [.named ⟨0⟩ []] none []) ∧
      tbl.typeOf (.field ⟨⟨2⟩, 0⟩) = .error (.kind (.typeArgument (.primitive .int))) := by
  refine ⟨(withInt.load ⟨0⟩ primitiveArgument).2, ?_⟩
  cbv

end Table

end NominalTypes
