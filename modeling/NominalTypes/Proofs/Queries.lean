import NominalTypes.Member.Annotations
import NominalTypes.Proofs.AllMembers
import NominalTypes.Proofs.Loading
import NominalTypes.Proofs.Overriding

/-!
# The end of hierarchy queries

A class may be its own superclass, for no load refuses it. Searches that remember the classes they
have seen end all the same: the test for subclasses, and the list of all members. The two others go
up without a memory. Inherited annotations are collected along the superclasses and end with them.
The supertype that a class declares is found in an orderly table, and in a circle it is missed.
-/

namespace NominalTypes

open List

variable {α β κ : Type}

/-- From some budget on the search answers or fails for good, and is not cut off. -/
def Ends (f : Nat → Result α) : Prop :=
  ∃ r, r ≠ .error .exhausted ∧ ∃ n, ∀ k ≥ n, f k = r

namespace Ends

variable {f : Nat → Result α}

theorem const {r : Result α} (h : r ≠ .error .exhausted) : Ends fun _ => r :=
  ⟨r, h, 0, fun _ _ => rfl⟩

theorem ok (a : α) : Ends fun _ => .ok a :=
  const nofun

theorem bind {g : α → Nat → Result β} (hf : Ends f) (hg : ∀ a, (∃ k, f k = .ok a) → Ends (g a)) :
    Ends fun k => f k >>= fun a => g a k := by
  obtain ⟨r, hr, n, hn⟩ := hf
  cases r with
  | error e =>
    refine ⟨.error e, fun h => hr (congrArg Except.error (Except.error.inj h)), n, fun k hk => ?_⟩
    simp only [hn k hk]
    rfl
  | ok a =>
    obtain ⟨s, hs, m, hm⟩ := hg a ⟨n, hn n (Nat.le_refl n)⟩
    refine ⟨s, hs, max n m, fun k hk => ?_⟩
    simp only [hn k (Nat.le_trans (Nat.le_max_left n m) hk)]
    exact hm k (Nat.le_trans (Nat.le_max_right n m) hk)

theorem map (g : α → β) (hf : Ends f) : Ends fun k => f k >>= fun a => .ok (g a) :=
  hf.bind fun a _ => ok (g a)

theorem step {g} (h : Ends f) (hsucc : ∀ k, g (k + 1) = f k) : Ends g := by
  obtain ⟨r, hr, n, hn⟩ := h
  refine ⟨r, hr, n + 1, fun k hk => ?_⟩
  obtain ⟨k, rfl⟩ := Nat.exists_eq_add_of_le' (Nat.le_trans (Nat.le_add_left 1 n) hk)
  rw [hsucc, hn k (Nat.le_of_succ_le_succ hk)]

theorem mapM {f : Nat → α → Result β} {xs : List α} (h : ∀ x ∈ xs, Ends fun k => f k x) :
    Ends fun k => xs.mapM (f k) := by
  induction xs with
  | nil =>
    exact ok []
  | cons x xs ih =>
    obtain ⟨hx, hxs⟩ := forall_mem_cons.mp h
    simp only [mapM_cons]
    exact hx.bind fun y _ => (ih hxs).map (y :: ·)

end Ends

theorem ends_requireKey (n : Name) : Ends fun _ => n.requireKey := by
  refine .const ?_
  rw [Name.requireKey]
  split <;> rintro ⟨⟩

namespace Table

variable {tbl : Table}

/-! ### Annotations -/

theorem ends_requireDeclaration (c : ClassId) : Ends fun _ => tbl.requireDeclaration c := by
  refine .const ?_
  rw [requireDeclaration]
  split <;> rintro ⟨⟩

theorem ends_literalType (c : ClassId) : Ends fun _ => tbl.literalType c := by
  refine .const ?_
  simp only [literalType, primitiveType]
  repeat' split
  all_goals rintro ⟨⟩

theorem ends_constantValue (d : Datum) : Ends fun _ => constantValue d := by
  refine .const ?_
  cases d <;> exact nofun

theorem ends_arrayValue (items : List AnnotationValue) : Ends fun _ => tbl.arrayValue items := by
  have hcategory (a : AnnotationValue) : Ends fun _ => tbl.category a := by
    refine .const ?_
    cases a <;> exact nofun
  refine (Ends.mapM fun a _ => hcategory a).bind fun names _ => ?_
  split
  · exact .const nofun
  · exact .ok _

theorem ends_byAttribute (type : ClassId) {values : List (String × Result AnnotationValue)}
    (h : ∀ v ∈ values, Ends fun _ => v.2) : Ends fun _ => tbl.byAttribute type values := by
  have hkeys (ms : List ExecutableDecl) : Ends fun _ => ms.forM fun m => m.name.requireKey := by
    induction ms with
    | nil => exact .ok _
    | cons m ms ih => exact (ends_requireKey m.name).bind fun _ _ => ih
  refine (hkeys _).bind fun _ _ => ?_
  split
  · refine Ends.mapM fun x hx => ?_
    obtain ⟨m, -, hm⟩ := mem_filterMap.mp hx
    obtain ⟨v, hv, rfl⟩ := Option.map_eq_some_iff.mp hm
    exact (h v (mem_of_find?_eq_some hv)).map (m, ·)
  · exact .const nofun

mutual

theorem ends_resolveArgument : ∀ a, Ends fun _ => tbl.resolveArgument a
  | .datum d => by
    rw [resolveArgument]
    exact ends_constantValue d
  | .classLiteral c => by
    rw [resolveArgument]
    exact (ends_literalType c).map _
  | .enumConstant f => by
    rw [resolveArgument]
    exact .ok _
  | .nested type values => by
    rw [resolveArgument]
    exact (ends_byAttribute type (ends_resolveNamed values)).map _
  | .array items => by
    rw [resolveArgument]
    exact (ends_resolveArguments items).bind fun values _ => ends_arrayValue values

theorem ends_resolveArguments : ∀ as, Ends fun _ => tbl.resolveArguments as
  | [] => by
    rw [resolveArguments]
    exact .ok _
  | a :: as => by
    rw [resolveArguments]
    exact (ends_resolveArgument a).bind fun x _ => (ends_resolveArguments as).map (x :: ·)

theorem ends_resolveNamed : ∀ as, ∀ v ∈ tbl.resolveNamed as, Ends fun _ => v.2
  | [] => by
    rw [resolveNamed]
    exact forall_mem_nil _
  | (name, a) :: as => by
    rw [resolveNamed]
    exact forall_mem_cons.mpr ⟨ends_resolveArgument a, ends_resolveNamed as⟩

end

theorem ends_annotationsOf (x : Element) : Ends fun _ => tbl.annotationsOf x :=
  Ends.mapM fun a _ => (ends_byAttribute a.type (ends_resolveNamed a.values)).map _

/-- By induction along the superclasses, which come to an end. -/
theorem ends_inheritAnnotations (hnames : ∀ c, ∃ ds, tbl.rawSupertypes c = .ok ds) {c}
    (hc : Acc (fun e d => tbl.rawSuperclass d = .ok (some e)) c) (present : List Annotation) :
    Ends fun k => tbl.inheritAnnotations k present c := by
  induction hc generalizing present with
  | intro c _ ih =>
    have hsuper : ∃ above, tbl.rawSuperclass c = .ok above := by
      obtain ⟨ds, hds⟩ := hnames c
      rw [rawSupertypes, mapM_eq_ok] at hds
      rw [rawSuperclass]
      cases hsuper : (tbl.cls c).superclass with
      | none => exact ⟨none, rfl⟩
      | some e =>
        obtain ⟨d, -, hd⟩ := exists_of_forall₂_left hds (x := e) (by simp [supertypeExprs, hsuper])
        exact ⟨some d, by simp [Option.mapM, hd]⟩
    obtain ⟨above, habove⟩ := hsuper
    cases above with
    | none =>
      refine (Ends.ok present).step fun k => ?_
      rw [inheritAnnotations, habove]
      rfl
    | some e =>
      have hnext : Ends fun k => tbl.requireDeclaration e >>= fun _ =>
          tbl.annotationsOf (.type e) >>= fun written =>
            tbl.inheritAnnotations k (tbl.addInherited present written) e :=
        (ends_requireDeclaration e).bind fun _ _ => (ends_annotationsOf _).bind fun written _ =>
          ih e habove _
      refine hnext.step fun k => ?_
      rw [inheritAnnotations, habove]
      rfl

/-! ### Members -/

theorem ends_unmasked {key : Nat → α → Result κ} {same : κ → κ → Bool} {members : List α}
    (h : ∀ x ∈ members, Ends fun k => key k x) : Ends fun k => unmasked (key k) same members :=
  (Ends.mapM fun x hx => (h x hx).map (·, x)).map _

theorem ends_unmaskedByName (name : α → Name) (members : List α) :
    Ends fun _ => unmaskedByName name members :=
  ends_unmasked fun x _ => (ends_requireKey (name x)).map _

theorem ends_members (hnames : ∀ c, ∃ ds, tbl.rawSupertypes c = .ok ds)
    (herase : ∀ d, ∀ e ∈ tbl.constructorsOf d ++ tbl.methodsOf d, ∀ p ∈ tbl.parametersOf e,
      Ends fun k => tbl.typeOf (.parameter p) >>= tbl.erase k) (c : ClassId) :
    Ends fun k => tbl.members k (.type c) := by
  have hhierarchy : Ends fun _ => tbl.hierarchy c := by
    obtain ⟨classes, -, hclasses, -⟩ := exists_hierarchy fun _ d _ => hnames d
    rw [hclasses]
    exact .ok classes
  have hparameters {declared : ClassId → List ExecutableId}
      (hdeclared : ∀ d, ∀ e ∈ declared d, e ∈ tbl.constructorsOf d ++ tbl.methodsOf d)
      (classes : List ClassId) : ∀ e ∈ classes.flatMap declared,
      Ends fun k => tbl.erasedParameters k e := by
    intro e he
    obtain ⟨d, -, he⟩ := mem_flatMap.mp he
    exact Ends.mapM fun p hp => herase d e (hdeclared d e he) p hp
  have hconstructors := hparameters fun d e he => mem_append_left (tbl.methodsOf d) he
  have hmethods := hparameters fun d e he => mem_append_right (tbl.constructorsOf d) he
  refine hhierarchy.bind fun classes _ => (ends_unmaskedByName _ _).bind fun _ _ => ?_
  have hkey : ∀ e ∈ classes.flatMap tbl.methodsOf, Ends fun k => tbl.methodKey k e := fun e he =>
    (hmethods classes e he).bind fun ps _ => (ends_requireKey _).map fun _ => (_, ps)
  have hkeys : Ends fun k => unmasked (tbl.methodKey k)
    (fun k l => k.1 == l.1 && Ty.sameAll k.2 l.2)
      (classes.flatMap tbl.methodsOf) := ends_unmasked hkey
  exact (ends_unmasked (hconstructors classes)).bind fun _ _ => hkeys.bind fun _ _ =>
    (ends_unmaskedByName _ _).map _

/-! ### All queries -/

/-- If supertype expressions name classes, then circles or not, the test for subclasses has an
answer, and the members of a class are listed as soon as the types of parameters can be erased.
Inherited annotations are collected if the superclasses of the class come to an end. In an orderly
table the supertypes of a class are found. -/
theorem ends_hierarchyQueries (hnames : ∀ c, ∃ ds, tbl.rawSupertypes c = .ok ds) (c : ClassId) :
    (∀ d, ∃ b, tbl.isSubclassOf c d = .ok b) ∧
      ((∀ d, ∀ e ∈ tbl.constructorsOf d ++ tbl.methodsOf d, ∀ p ∈ tbl.parametersOf e,
        Ends fun k => tbl.typeOf (.parameter p) >>= tbl.erase k) →
        Ends fun k => tbl.members k (.type c)) ∧
      (Acc (fun e d => tbl.rawSuperclass d = .ok (some e)) c →
        Ends fun k => tbl.allAnnotations k (.type c)) ∧
      (tbl.Orderly → ∀ d,
        Ends fun k => (tbl.resolveSupertype k (tbl.selfType c) d : Result (Option Ty))) := by
  refine ⟨fun d => isSubclassOf_isOk hnames c d, fun herase => ends_members hnames herase c,
    fun hc => (ends_annotationsOf _).bind fun written _ => ?_, fun horderly d => ?_⟩
  · simp only
    split
    · exact ends_inheritAnnotations hnames hc written
    · exact .ok _
  · obtain ⟨r, hr, -⟩ := horderly.exists_resolves (p := fun _ => True) (fun _ _ _ _ _ => trivial)
      (tbl.formed_selfType c) trivial d
    exact ⟨.ok r, nofun, hr.settles.1⟩

/-- Two interfaces that extend each other, of which the second extends a third one. -/
def circle : Table :=
  let entry (name : String) (above : List Expr) : ClassDecl :=
    { name := s!"p.{name}", simpleName := name, kind := .interface, package := some ⟨0⟩,
      access := Access.ofFlags [.isInterface, .isAbstract], interfaces := above }
  { classes := #[entry "X" [], entry "A" [.named ⟨2⟩ []], entry "B" [.named ⟨1⟩ [], .named ⟨0⟩ []]]
    packages := #[{ name := "p", path := some ⟨0⟩ }]
    paths := #[{ types := #[("p.X", ⟨0⟩), ("p.A", ⟨1⟩), ("p.B", ⟨2⟩)],
                 packages := #[("p", ⟨0⟩)] }] }

set_option maxRecDepth 20000 in
/-- The members of an interface in a circle are listed. -/
theorem ends_hierarchyQueries_circle : circle.isSubclassOf ⟨1⟩ ⟨1⟩ = .ok true ∧
    (∃ b, circle.isSubclassOf ⟨1⟩ ⟨0⟩ = .ok b) ∧ Ends fun k => circle.members k (.type ⟨1⟩) := by
  have hclass (c : ClassId) : (∃ ds, circle.rawSupertypes c = .ok ds) ∧
      circle.constructorsOf c ++ circle.methodsOf c = [] := by
    obtain ⟨i⟩ := c
    match i with
    | 0 | 1 | 2 => exact ⟨⟨_, rfl⟩, rfl⟩
    | n + 3 =>
      have hdefault : circle.cls ⟨n + 3⟩ = default := cls_eq_default (Nat.le_add_left 3 n)
      rw [rawSupertypes, supertypeExprs, constructorsOf, methodsOf, hdefault]
      exact ⟨⟨_, rfl⟩, rfl⟩
  have h := ends_hierarchyQueries (fun c => (hclass c).1) ⟨1⟩
  refine ⟨by cbv, h.1 ⟨0⟩, h.2.1 fun d e he => ?_⟩
  rw [(hclass d).2] at he
  cases he

set_option maxRecDepth 20000 in
/-- The circle is loaded, and going up from one of its interfaces to the third one goes round for
ever. -/
theorem exhausted_circle :
    Table.load { paths := #[{}] } ⟨0⟩ [.object [("package", .text "p"), ("types", .list [
      Stub.interfaceEntry "X" [] [], Stub.interfaceEntry "A" ["B"] [],
      Stub.interfaceEntry "B" ["A", "X"] []])]] = (.ok [⟨0⟩, ⟨1⟩, ⟨2⟩], circle) ∧
      ∀ k, (circle.resolveSupertype k (circle.selfType ⟨1⟩) ⟨0⟩ : Result (Option Ty)) =
        .error .exhausted := by
  refine ⟨by cbv, fun k => ?_⟩
  have hclimb (n : Nat) : climb (circle.ascend k ⟨0⟩) n (.declared ⟨1⟩ [] none []) =
        .error .exhausted ∧
      climb (circle.ascend k ⟨0⟩) n (.declared ⟨2⟩ [] none []) = .error .exhausted := by
    induction n with
    | zero => exact ⟨rfl, rfl⟩
    | succ n ih =>
      have ha : circle.ascend k ⟨0⟩ (.declared ⟨1⟩ [] none []) =
        .ok (.above [.declared ⟨2⟩ [] none []]) := by cbv
      have hb : circle.ascend k ⟨0⟩ (.declared ⟨2⟩ [] none []) =
        .ok (.above [.declared ⟨1⟩ [] none [], .declared ⟨0⟩ [] none []]) := by cbv
      rw [climb, climb, ha, hb]
      simp only [bind, Except.bind, firstFound, ih, and_self]
  rw [resolveSupertype_eq_climb]
  exact (hclimb k).1

end Table

end NominalTypes
