import NominalTypes.Member.All
import NominalTypes.Proofs.Hierarchy
import NominalTypes.Proofs.Structure

/-!
# The members of a class, its own and inherited ones

The members of a class are collected class by class, from the classes that a breadth-first search
finds, and of several members with one key the first is kept. The classes are in the order of their
distance, so what is kept is declared as near as anything with its key.
-/

namespace NominalTypes

open List

variable {α κ : Type}

/-! ### What is kept -/

/-- The second list consists of different members of the first; for each member the first one that
is related to it has been kept. -/
structure FirstKept (R : α → α → Prop) (xs kept : List α) : Prop where
  distinct : kept.Pairwise fun x y => ¬R x y
  subset : ∀ x ∈ kept, x ∈ xs
  first : ∀ m ∈ xs, ∃ before x after, xs = before ++ x :: after ∧ x ∈ kept ∧ R x m ∧
    ∀ y ∈ before, ¬R y m

namespace FirstKept

variable {R : α → α → Prop} {xs kept : List α}

/-- A member that is related to none before is kept. -/
theorem keep (h : FirstKept R xs kept) (hR : Equivalence R) {x} (hx : ∀ y ∈ kept, ¬R y x) :
    FirstKept R (xs ++ [x]) (kept ++ [x]) where
  distinct := pairwise_append.mpr
    ⟨h.distinct, pairwise_singleton _ _, fun y hy z hz => mem_singleton.mp hz ▸ hx y hy⟩
  subset y hy := by
    rcases mem_append.mp hy with hy | hy
    · exact mem_append_left _ (h.subset y hy)
    · exact mem_append_right _ hy
  first m hm := by
    rcases mem_append.mp hm with hm | hm
    · obtain ⟨before, y, after, rfl, hy, hym, hbefore⟩ := h.first m hm
      exact ⟨before, y, after ++ [x], by simp, mem_append_left _ hy, hym, hbefore⟩
    · cases mem_singleton.mp hm
      refine ⟨xs, x, [], rfl, by simp, hR.refl x, fun y hy hyx => ?_⟩
      obtain ⟨_, z, _, -, hz, hzy, -⟩ := h.first y hy
      exact hx z hz (hR.trans hzy hyx)

/-- A member that is related to one before is left out. -/
theorem leave (h : FirstKept R xs kept) (hR : Equivalence R) {x y} (hy : y ∈ kept) (hyx : R y x) :
    FirstKept R (xs ++ [x]) kept where
  distinct := h.distinct
  subset z hz := mem_append_left _ (h.subset z hz)
  first m hm := by
    rcases mem_append.mp hm with hm | hm
    · obtain ⟨before, z, after, rfl, hz, hzm, hbefore⟩ := h.first m hm
      exact ⟨before, z, after ++ [x], by simp, hz, hzm, hbefore⟩
    · cases mem_singleton.mp hm
      obtain ⟨before, z, after, rfl, hz, hzy, hbefore⟩ := h.first y (h.subset y hy)
      refine ⟨before, z, after ++ [x], by simp, hz, hR.trans hzy hyx, fun w hw hwx => ?_⟩
      exact hbefore w hw (hR.trans hwx (hR.symm hyx))

theorem map {β : Type} {S : β → β → Prop} {f : α → β} (h : FirstKept R xs kept)
    (hf : ∀ x ∈ xs, ∀ y ∈ xs, R x y ↔ S (f x) (f y)) : FirstKept S (xs.map f) (kept.map f) where
  distinct := by
    refine pairwise_map.mpr (h.distinct.imp_of_mem fun hx hy hxy hS => hxy ?_)
    exact (hf _ (h.subset _ hx) _ (h.subset _ hy)).mpr hS
  subset y hy := by
    obtain ⟨x, hx, rfl⟩ := mem_map.mp hy
    exact mem_map_of_mem (h.subset x hx)
  first m hm := by
    obtain ⟨w, hw, rfl⟩ := mem_map.mp hm
    obtain ⟨before, x, after, rfl, hx, hxw, hbefore⟩ := h.first w hw
    refine ⟨before.map f, f x, after.map f, by simp, mem_map_of_mem hx,
      (hf x (by simp) w hw).mp hxw, fun y hy hS => ?_⟩
    obtain ⟨z, hz, rfl⟩ := mem_map.mp hy
    exact hbefore z hz ((hf z (by simp [hz]) w hw).mpr hS)

end FirstKept

namespace Table

/-- Two members have keys, which are the same. -/
def SameKey (key : α → Result κ) (same : κ → κ → Bool) (x y : α) : Prop :=
  ∃ k l, key x = .ok k ∧ key y = .ok l ∧ same k l = true

/-- Of several members with one key the first is kept. -/
theorem exists_unmasked {key : α → Result κ} {same : κ → κ → Bool}
    (hsame : Equivalence fun k l => same k l = true) {xs} (hkeys : ∀ x ∈ xs, ∃ k, key x = .ok k) :
    ∃ kept, unmasked key same xs = .ok kept ∧ FirstKept (SameKey key same) xs kept := by
  obtain ⟨keyed, hkeyed, hmap, hkey⟩ : ∃ keyed : List (κ × α),
      xs.mapM (fun x => do return (← key x, x)) = (.ok keyed : Result _) ∧ keyed.map (·.2) = xs ∧
        ∀ e ∈ keyed, key e.2 = .ok e.1 := by
    induction xs with
    | nil => exact ⟨[], rfl, rfl, forall_mem_nil _⟩
    | cons x xs ih =>
      rw [forall_mem_cons] at hkeys
      obtain ⟨k, hk⟩ := hkeys.1
      obtain ⟨keyed, hkeyed, rfl, hkey⟩ := ih hkeys.2
      refine ⟨(k, x) :: keyed, ?_, rfl, forall_mem_cons.mpr ⟨hk, hkey⟩⟩
      rw [mapM_cons, hk, hkeyed]
      rfl
  have hfold (es : List (κ × α)) : FirstKept (fun e f => same e.1 f.1 = true) es (es.foldl
      (fun kept e => if kept.any fun f => same f.1 e.1 then kept else kept ++ [e]) []) := by
    have hequiv : Equivalence fun e f : κ × α => same e.1 f.1 = true :=
      ⟨fun e => hsame.refl e.1, fun h => hsame.symm h, fun h h' => hsame.trans h h'⟩
    induction es using reverseRecOn with
    | nil => exact ⟨.nil, forall_mem_nil _, forall_mem_nil _⟩
    | append_singleton es e ih =>
      rw [foldl_append, foldl_cons, foldl_nil]
      split_ifs with hany
      · obtain ⟨f, hf, hfe⟩ := any_eq_true.mp hany
        exact ih.leave hequiv hf hfe
      · refine ih.keep hequiv fun f hf hfe => hany (any_eq_true.mpr ⟨f, hf, hfe⟩)
  refine ⟨_, by rw [unmasked, hkeyed]; rfl, ?_⟩
  rw [← hmap]
  refine (hfold keyed).map fun e he f hf => ⟨fun h => ⟨_, _, hkey e he, hkey f hf, h⟩, ?_⟩
  rintro ⟨k, l, hk, hl, h⟩
  cases hk.symm.trans (hkey e he)
  cases hl.symm.trans (hkey f hf)
  exact h

/-! ### The members of a class -/

variable {tbl : Table} {c : ClassId}

theorem equivalence_sameAll : Equivalence fun ps qs => Ty.sameAll ps qs = true where
  refl ps := Ty.sameAll_of_forall₂ (forall₂_same.mpr fun p _ => Ty.same_refl p)
  symm h := Ty.sameAll_of_forall₂ ((Ty.forall₂_of_sameAll h).flip.imp fun _ _ => Ty.same_symm)
  trans {ps qs rs} h h' := by
    have hps := Ty.forall₂_of_sameAll h
    have hqs := Ty.forall₂_of_sameAll h'
    clear h h'
    refine Ty.sameAll_of_forall₂ ?_
    induction hps generalizing rs with
    | nil =>
      cases hqs
      exact .nil
    | cons hp _ ih =>
      cases hqs with
      | cons hq hqs => exact .cons (Ty.same_trans hp hq) (ih hqs)

theorem equivalence_name : Equivalence fun m n : Name => (m == n) = true :=
  ⟨fun _ => BEq.rfl, BEq.symm, BEq.trans⟩

/-- The name by which a member is known. -/
def nameKey (name : α → Name) (x : α) : Result Name := do
  (name x).requireKey
  return name x

variable (tbl) in
/-- The name and the erased parameters by which a method is known. -/
def methodKey (fuel : Nat) (e : ExecutableId) : Result (Name × List Ty) := do
  let parameters ← tbl.erasedParameters fuel e
  (tbl.executable e).name.requireKey
  return ((tbl.executable e).name, parameters)

/-- The supertype expressions of the class name classes, and its members have keys: names by which
things can be looked up, as by any text, and parameters whose types can be erased. -/
structure Listable (tbl : Table) (fuel : Nat) (c : ClassId) : Prop where
  supertypes : ∃ ds, tbl.rawSupertypes c = .ok ds
  fields : ∀ f ∈ tbl.fieldsOf c, (tbl.field f).name.requireKey = .ok ()
  constructors : ∀ e ∈ tbl.constructorsOf c, ∃ ps, tbl.erasedParameters fuel e = .ok ps
  methods : ∀ e ∈ tbl.methodsOf c, (tbl.executable e).name.requireKey = .ok () ∧
    ∃ ps, tbl.erasedParameters fuel e = .ok ps
  classes : ∀ m ∈ (tbl.cls c).memberClasses, (tbl.cls m).simpleName.requireKey = .ok ()

/-- The members of a class are fields, then constructors, then methods, then member classes, in each
group those whose keys no nearer class declares. -/
theorem members_nearest (tbl : Table) {fuel : Nat}
    (hlistable : ∀ n d, tbl.StepsAbove c n d → tbl.Listable fuel d) :
    ∃ classes fields constructors methods nested, tbl.BreadthFirst c classes ∧
      tbl.members fuel (.type c) = .ok (fields.map .field ++ constructors.map .executable ++
        methods.map .executable ++ nested.map .type) ∧
      FirstKept (SameKey (nameKey fun f => (tbl.field f).name) (· == ·))
        (classes.flatMap tbl.fieldsOf) fields ∧
      FirstKept (SameKey (tbl.erasedParameters fuel) Ty.sameAll)
        (classes.flatMap tbl.constructorsOf) constructors ∧
      FirstKept (SameKey (tbl.methodKey fuel) fun k l => k.1 == l.1 && Ty.sameAll k.2 l.2)
        (classes.flatMap tbl.methodsOf) methods ∧
      FirstKept (SameKey (nameKey fun m => (tbl.cls m).simpleName) (· == ·))
        (classes.flatMap fun d => (tbl.cls d).memberClasses) nested := by
  obtain ⟨classes, -, hclasses, hbreadth⟩ := exists_hierarchy fun n d hd =>
    (hlistable n d hd).supertypes
  have hkeys {β : Type} {declared : ClassId → List β} {p : β → Prop}
      (h : ∀ d, tbl.Listable fuel d → ∀ x ∈ declared d, p x) :
      ∀ x ∈ classes.flatMap declared, p x := by
    intro x hx
    obtain ⟨d, hd, hx⟩ := mem_flatMap.mp hx
    obtain ⟨n, hn⟩ := (hbreadth.mem_iff d).mp hd
    exact h d (hlistable n d hn) x hx
  have hname {β : Type} (name : β → Name) {x : β} (hx : (name x).requireKey = .ok ()) :
      ∃ k, nameKey name x = .ok k := ⟨name x, by rw [nameKey, hx]; rfl⟩
  have hmethodEquivalence : Equivalence fun k l : Name × List Ty =>
      (k.1 == l.1 && Ty.sameAll k.2 l.2) = true := by
    simp only [Bool.and_eq_true]
    exact ⟨fun k => ⟨equivalence_name.refl k.1, equivalence_sameAll.refl k.2⟩,
      fun h => ⟨equivalence_name.symm h.1, equivalence_sameAll.symm h.2⟩,
      fun h h' => ⟨equivalence_name.trans h.1 h'.1, equivalence_sameAll.trans h.2 h'.2⟩⟩
  obtain ⟨fields, hfields, hfirst₁⟩ := exists_unmasked equivalence_name
    (hkeys fun d hd f hf => hname (fun f => (tbl.field f).name) (hd.fields f hf))
  obtain ⟨constructors, hconstructors, hfirst₂⟩ := exists_unmasked equivalence_sameAll
    (hkeys fun d hd e he => hd.constructors e he)
  have hmethodKeys : ∀ e ∈ classes.flatMap tbl.methodsOf, ∃ k, tbl.methodKey fuel e = .ok k := by
    refine hkeys fun d hd e he => ?_
    obtain ⟨hkey, ps, hps⟩ := hd.methods e he
    exact ⟨((tbl.executable e).name, ps), by rw [methodKey, hps, hkey]; rfl⟩
  obtain ⟨methods, hmethods, hfirst₃⟩ := exists_unmasked hmethodEquivalence hmethodKeys
  obtain ⟨nested, hnested, hfirst₄⟩ := exists_unmasked equivalence_name
    (hkeys fun d hd m hm => hname (fun m => (tbl.cls m).simpleName) (hd.classes m hm))
  refine ⟨classes, fields, constructors, methods, nested, hbreadth, ?_, hfirst₁, hfirst₂, hfirst₃,
    hfirst₄⟩
  have hmembers : tbl.members fuel (.type c) = (do
      let classes ← tbl.hierarchy c
      let fields ← unmasked (nameKey fun f => (tbl.field f).name) (· == ·)
        (classes.flatMap tbl.fieldsOf)
      let constructors ← unmasked (tbl.erasedParameters fuel) Ty.sameAll
        (classes.flatMap tbl.constructorsOf)
      let methods ← unmasked (tbl.methodKey fuel) (fun k l => k.1 == l.1 && Ty.sameAll k.2 l.2)
        (classes.flatMap tbl.methodsOf)
      let nested ← unmasked (nameKey fun m => (tbl.cls m).simpleName) (· == ·)
        (classes.flatMap fun d => (tbl.cls d).memberClasses)
      return fields.map .field ++ constructors.map .executable ++ methods.map .executable ++
        nested.map .type) := rfl
  rw [hmembers, hclasses]
  simp only [bind, Except.bind, hfields, hconstructors, hmethods, hnested]
  rfl

/-- A class with a field and a method, and a subclass that declares both again. -/
def redeclaring : Table :=
  let declaring (name : String) (c : ClassId) : ClassDecl :=
    { name := name, simpleName := name, kind := .cls, superclass := some (.named c []),
      fields := [{ name := "x", type := .named ⟨0⟩ [] }],
      methods := [
        { name := "m", returnType := .named ⟨0⟩ [],
          parameters := [{ name := "p", type := .named ⟨0⟩ [] }] }] }
  { classes := #[
      { name := "java.lang.Object", simpleName := "Object", kind := .cls },
      declaring "A" ⟨0⟩, declaring "B" ⟨1⟩] }

theorem members_nearest_redeclared :
    (∀ d, redeclaring.Listable 2 d) ∧
      ∃ classes methods, redeclaring.BreadthFirst ⟨2⟩ classes ∧
        FirstKept (SameKey (redeclaring.methodKey 2) fun k l => k.1 == l.1 && Ty.sameAll k.2 l.2)
          (classes.flatMap redeclaring.methodsOf) methods := by
  have hlistable : ∀ d, redeclaring.Listable 2 d := by
    have hdeclaring (i : Nat) (h : i = 1 ∨ i = 2) : redeclaring.Listable 2 ⟨i⟩ := by
      rcases h with rfl | rfl <;>
        exact ⟨⟨_, rfl⟩, forall_mem_singleton.mpr rfl, forall_mem_nil _,
          forall_mem_singleton.mpr ⟨rfl, _, rfl⟩, forall_mem_nil _⟩
    rintro ⟨i⟩
    match i with
    | 0 => exact ⟨⟨_, rfl⟩, forall_mem_nil _, forall_mem_nil _, forall_mem_nil _,
        forall_mem_nil _⟩
    | 1 => exact hdeclaring 1 (.inl rfl)
    | 2 => exact hdeclaring 2 (.inr rfl)
    | i + 3 => exact ⟨⟨_, rfl⟩, forall_mem_nil _, forall_mem_nil _, forall_mem_nil _,
        forall_mem_nil _⟩
  obtain ⟨classes, _, _, methods, _, hbreadth, -, -, -, hmethods, -⟩ :=
    members_nearest redeclaring (c := ⟨2⟩) fun _ d _ => hlistable d
  exact ⟨hlistable, classes, methods, hbreadth, hmethods⟩

end Table

end NominalTypes
