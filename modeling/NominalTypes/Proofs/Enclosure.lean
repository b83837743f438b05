import NominalTypes.Element.Basic
import NominalTypes.Proofs.Steps

/-!
# Enclosing and enclosed declarations

Which declaration is inside which is recorded twice. A class lists its members, and a member knows
the class around it; a class knows its package, and what a package contains is found by going
through the class path on which the package was made.

`Table.Arranged` says how the two records fit together on a class path and its ancestors. Every step
of a load keeps it, so it holds of a class path that was filled while its ancestors did not change,
which is `Table.Built`. From it follows what is enclosed in what. A class and its members always
agree. A package and a top-level class need not: a class may be declared as a top-level class
although it stands inside another one, and a class that is loaded into a package of an ancestor is
not on the class path that the package goes through.
-/

namespace NominalTypes

open List

variable {c : ClassId} {d : ClassDecl} {p : PackageId}

namespace Table

variable {tbl tbl' : Table} {path q : PathId}

/-! ### Records that fit together -/

/-- What a class path records of a class that it registers fits together: the package of the class
is visible, the class stands inside a class of the same class path that lists it if it is a member,
and it lists only such members. -/
structure Placed (tbl : Table) (q : PathId) (c : ClassId) : Prop where
  isPrimitive : (tbl.cls c).package = none → (tbl.cls c).isPrimitive = true
  visible : ∀ p, (tbl.cls c).package = some p → tbl.HasPackage q p
  enclosingExecutable : (tbl.cls c).enclosingExecutable = none
  nesting : (tbl.cls c).enclosing = none → (tbl.cls c).nesting = .topLevel
  enclosing : ∀ e, (tbl.cls c).enclosing = some e →
    e ∈ tbl.classesOn q ∧ ((tbl.cls c).nesting = .member → c ∈ (tbl.cls e).memberClasses)
  members : ∀ m ∈ (tbl.cls c).memberClasses,
    m ∈ tbl.classesOn q ∧ (tbl.cls m).enclosing = some c ∧ (tbl.cls m).nesting = .member

/-- Only the heads of the classes of the class path count. -/
theorem Placed.congr (h : tbl.Placed q c) (hc : c ∈ tbl.classesOn q)
    (hvisible : ∀ p, tbl.HasPackage q p → tbl'.HasPackage q p)
    (hon : tbl'.classesOn q = tbl.classesOn q)
    (hclasses : ∀ c ∈ tbl.classesOn q, (tbl'.cls c).head = (tbl.cls c).head) : tbl'.Placed q c := by
  have hhead {α : Type} (f : ClassDecl → α) (hf : ∀ d, f d.head = f d) {c : ClassId}
      (hc : c ∈ tbl.classesOn q) : f (tbl'.cls c) = f (tbl.cls c) :=
    ClassDecl.eq_of_head_eq (hclasses c hc) f hf
  have hpackage := hhead (·.package) (fun _ => rfl) hc
  have henclosing := hhead (·.enclosing) (fun _ => rfl) hc
  have hnesting := hhead (·.nesting) (fun _ => rfl) hc
  refine ⟨?_, fun p hp => hvisible p (h.visible p (hpackage ▸ hp)), ?_, ?_, fun e he => ?_,
    fun m hm => ?_⟩
  · rw [hpackage, hhead (·.isPrimitive) (fun _ => rfl) hc]
    exact h.isPrimitive
  · rw [hhead (·.enclosingExecutable) (fun _ => rfl) hc]
    exact h.enclosingExecutable
  · rw [henclosing, hnesting]
    exact h.nesting
  · obtain ⟨hmem, hlisted⟩ := h.enclosing e (henclosing ▸ he)
    rw [hon, hnesting, hhead (·.memberClasses) (fun _ => rfl) hmem]
    exact ⟨hmem, hlisted⟩
  · obtain ⟨hmem, hm⟩ := h.members m (hhead (·.memberClasses) (fun _ => rfl) hc ▸ hm)
    rw [hon, hhead (·.enclosing) (fun _ => rfl) hmem, hhead (·.nesting) (fun _ => rfl) hmem]
    exact ⟨hmem, hm⟩

/-- What a class path and its ancestors record fits together: a class is registered on one of them
only, a package knows its name and the class path on which it was made, and no two packages have one
name. -/
structure Arranged (tbl : Table) (path : PathId) : Prop where
  lineal : tbl.Lineal path
  class_lt : ∀ q c, tbl.Sees path q → c ∈ tbl.classesOn q → c.index < tbl.classes.size
  once : ∀ q r c, tbl.Sees path q → tbl.Sees path r → c ∈ tbl.classesOn q →
    c ∈ tbl.classesOn r → q = r
  package_lt : ∀ q e, tbl.Sees path q → e ∈ (tbl.path q).packages → e.2.index < tbl.packages.size
  made : ∀ q e, tbl.Sees path q → e ∈ (tbl.path q).packages →
    (tbl.package e.2).name = e.1 ∧ (tbl.package e.2).path = some q
  package_eq : ∀ q r e e', tbl.Sees path q → tbl.Sees path r → e ∈ (tbl.path q).packages →
    e' ∈ (tbl.path r).packages → (e.1 == e'.1) = true → e.2 = e'.2
  placed : ∀ q c, tbl.Sees path q → c ∈ tbl.classesOn q → tbl.Placed q c

namespace Arranged

theorem sees_of_congr (hpaths : ∀ r, tbl.Sees path r → tbl'.path r = tbl.path r)
    (h : tbl'.Sees path q) : tbl.Sees path q := by
  induction h with
  | self => exact .self
  | parent hup _ ih =>
    rw [hpaths _ .self] at hup
    exact .parent hup (ih fun r hr => hpaths r (.parent hup hr))

/-- Only the class paths that are seen count, the heads of their classes, and the names and class
paths of their packages. -/
theorem congr (h : tbl.Arranged path) (hl : tbl'.Lineal path)
    (hpaths : ∀ q, tbl.Sees path q → tbl'.path q = tbl.path q)
    (hclasses : ∀ c : ClassId, c.index < tbl.classes.size →
      c.index < tbl'.classes.size ∧ (tbl'.cls c).head = (tbl.cls c).head)
    (hpackages : ∀ p : PackageId, p.index < tbl.packages.size →
      p.index < tbl'.packages.size ∧ (tbl'.package p).name = (tbl.package p).name ∧
        (tbl'.package p).path = (tbl.package p).path) : tbl'.Arranged path := by
  have hsees {q : PathId} (hq : tbl'.Sees path q) : tbl.Sees path q := sees_of_congr hpaths hq
  have hon {q : PathId} (hq : tbl.Sees path q) : tbl'.classesOn q = tbl.classesOn q := by
    rw [classesOn, hpaths q hq, classesOn]
  refine ⟨hl, fun q c hq hc => ?_, fun q r c hq hr hc hc' => ?_, fun q e hq he => ?_,
    fun q e hq he => ?_, fun q r e e' hq hr he he' => ?_, fun q c hq hc => ?_⟩
  · exact (hclasses c (h.class_lt q c (hsees hq) (hon (hsees hq) ▸ hc))).1
  · exact h.once q r c (hsees hq) (hsees hr) (hon (hsees hq) ▸ hc) (hon (hsees hr) ▸ hc')
  · exact (hpackages _ (h.package_lt q e (hsees hq) (hpaths q (hsees hq) ▸ he))).1
  · have he := hpaths q (hsees hq) ▸ he
    obtain ⟨-, hname, hpath⟩ := hpackages _ (h.package_lt q e (hsees hq) he)
    rw [hname, hpath]
    exact h.made q e (hsees hq) he
  · exact h.package_eq q r e e' (hsees hq) (hsees hr) (hpaths q (hsees hq) ▸ he)
      (hpaths r (hsees hr) ▸ he')
  · replace hq := hsees hq
    refine (h.placed q c hq (hon hq ▸ hc)).congr (hon hq ▸ hc) (fun p hp => ?_) (hon hq) fun c hc =>
      (hclasses c (h.class_lt q c hq hc)).2
    obtain ⟨r, name, hr, hmem⟩ := hp
    refine ⟨r, name, hr.congr fun s hs => ?_, hpaths r (hq.trans hr) ▸ hmem⟩
    rw [hpaths s (hq.trans hs)]

/-! ### New class paths -/

/-- A class path that registers nothing is arranged if its parent is. -/
theorem onTop {up} (h : tbl.Arranged up) (hl : tbl.Lineal path)
    (hparent : (tbl.path path).parent = some up) (htypes : (tbl.path path).types = #[])
    (hpackages : (tbl.path path).packages = #[]) : tbl.Arranged path := by
  have hclass {q : PathId} {c : ClassId} (hq : tbl.Sees path q) (hc : c ∈ tbl.classesOn q) :
      tbl.Sees up q := by
    cases hq with
    | self => simp [classesOn, htypes] at hc
    | parent hup hq => cases hparent.symm.trans hup; exact hq
  have hpackage {q : PathId} {e : Name × PackageId} (hq : tbl.Sees path q)
      (he : e ∈ (tbl.path q).packages) : tbl.Sees up q := by
    cases hq with
    | self => simp [hpackages] at he
    | parent hup hq => cases hparent.symm.trans hup; exact hq
  exact ⟨hl, fun q c hq hc => h.class_lt q c (hclass hq hc) hc,
    fun q r c hq hr hc hc' => h.once q r c (hclass hq hc) (hclass hr hc') hc hc',
    fun q e hq he => h.package_lt q e (hpackage hq he) he,
    fun q e hq he => h.made q e (hpackage hq he) he,
    fun q r e e' hq hr he he' => h.package_eq q r e e' (hpackage hq he) (hpackage hr he') he he',
    fun q c hq hc => h.placed q c (hclass hq hc) hc⟩

theorem of_empty (hl : tbl.Lineal path) (h : tbl.path path = {}) : tbl.Arranged path := by
  have hself {q : PathId} (hq : tbl.Sees path q) : q = path := by
    cases hq with
    | self => rfl
    | parent hup _ => rw [h] at hup; cases hup
  have hclass {q : PathId} {c : ClassId} (hq : tbl.Sees path q) : c ∉ tbl.classesOn q := by
    rw [hself hq, classesOn, h]
    exact not_mem_nil
  have hpackage {q : PathId} {e : Name × PackageId} (hq : tbl.Sees path q) :
      e ∉ (tbl.path q).packages := by
    rw [hself hq, h]
    exact Array.not_mem_empty e
  exact ⟨hl, fun q c hq hc => absurd hc (hclass hq), fun q r c hq _ hc => absurd hc (hclass hq),
    fun q e hq he => absurd he (hpackage hq), fun q e hq he => absurd he (hpackage hq),
    fun q r e e' hq _ he => absurd he (hpackage hq), fun q c hq hc => absurd hc (hclass hq)⟩

/-! ### Steps of a load -/

theorem definePackage (h : tbl.Arranged path) (name : Name) :
    (tbl.definePackage path name).2.Arranged path := by
  have hwider := Stub.wider_definePackage tbl path name
  have hl := hwider.lineal h.lineal
  unfold Table.definePackage at hwider hl ⊢
  cases hfound : tbl.lookupPackage path name with
  | some p => exact h
  | none =>
    simp only [hfound] at hwider hl ⊢
    generalize htbl : modifyPath _ _ _ = tbl' at hwider hl ⊢
    have hsees {q : PathId} : tbl'.Sees path q ↔ tbl.Sees path q := hwider.sees_iff
    have hclasses : tbl'.classes = tbl.classes := by rw [← htbl]; rfl
    have hother {q : PathId} (hq : q ≠ path) : tbl'.path q = tbl.path q := by
      rw [← htbl]
      exact Stub.path_modifyPath_of_ne hq _
    have hself : tbl'.path path =
        { tbl.path path with
          packages := (tbl.path path).packages.push (name, ⟨tbl.packages.size⟩) } := by
      rw [← htbl]
      exact Stub.path_modifyPath_self h.lineal.lt_size _
    have hcls (c : ClassId) : tbl'.cls c = tbl.cls c := by rw [cls, hclasses, cls]
    have hon (q : PathId) : tbl'.classesOn q = tbl.classesOn q := by
      by_cases hq : q = path
      · rw [hq, classesOn, hself, classesOn]
      · rw [classesOn, hother hq, classesOn]
    have hpackage (q : PathId) (e : Name × PackageId) (he : e ∈ (tbl'.path q).packages) :
        e ∈ (tbl.path q).packages ∨ q = path ∧ e = (name, ⟨tbl.packages.size⟩) := by
      by_cases hq : q = path
      · subst hq
        rw [hself] at he
        exact (Array.mem_push.mp he).imp_right fun he => ⟨rfl, he⟩
      · exact .inl (hother hq ▸ he)
    have hnew : tbl'.package ⟨tbl.packages.size⟩ = { name, path := some path } := by
      rw [← htbl]
      simp [Table.package, Table.modifyPath, Table.addPackage]
    have hold (p : PackageId) (hp : p.index < tbl.packages.size) :
        tbl'.package p = tbl.package p := by
      rw [← htbl]
      simp [Table.package, Table.modifyPath, Table.addPackage, Array.getElem?_push, Nat.ne_of_lt hp]
    have hsize : tbl'.packages.size = tbl.packages.size + 1 := by
      rw [← htbl]
      simp [Table.modifyPath, Table.addPackage]
    refine ⟨hl, fun q c hq hc => ?_, fun q r c hq hr hc hc' => ?_, fun q e hq he => ?_,
      fun q e hq he => ?_, fun q r e e' hq hr he he' heq => ?_, fun q c hq hc => ?_⟩
    · rw [hclasses]
      exact h.class_lt q c (hsees.mp hq) (hon q ▸ hc)
    · exact h.once q r c (hsees.mp hq) (hsees.mp hr) (hon q ▸ hc) (hon r ▸ hc')
    · rw [hsize]
      rcases hpackage q e he with he | ⟨-, rfl⟩
      · exact Nat.lt_succ_of_lt (h.package_lt q e (hsees.mp hq) he)
      · exact Nat.lt_succ_self _
    · rcases hpackage q e he with he | ⟨rfl, rfl⟩
      · rw [hold _ (h.package_lt q e (hsees.mp hq) he)]
        exact h.made q e (hsees.mp hq) he
      · rw [hnew]
        exact ⟨rfl, rfl⟩
    · have hfree {q : PathId} {e : Name × PackageId} (hq : tbl'.Sees path q)
          (he : e ∈ (tbl.path q).packages) : ¬(e.1 == name) = true := by
        rw [not_beq_of_lookupPackage h.lineal hfound (hsees.mp hq) he]
        exact Bool.false_ne_true
      rcases hpackage q e he with he | ⟨rfl, rfl⟩
      · rcases hpackage r e' he' with he' | ⟨rfl, rfl⟩
        · exact h.package_eq q r e e' (hsees.mp hq) (hsees.mp hr) he he' heq
        · exact absurd heq (hfree hq he)
      · rcases hpackage r e' he' with he' | ⟨rfl, rfl⟩
        · exact absurd (BEq.symm heq) (hfree hr he')
        · rfl
    · exact (h.placed q c (hsees.mp hq) (hon q ▸ hc)).congr (hon q ▸ hc)
        (fun p hp => hwider.hasPackage hp) (hon q) fun c _ => by rw [hcls]

end Arranged

/-- A declaration can be entered on the class path: its package is visible, the class around it is
registered there, and it has no members yet. -/
structure Enterable (tbl : Table) (path : PathId) (d : ClassDecl) : Prop where
  isPrimitive : d.package = none → d.isPrimitive = true
  visible : ∀ p, d.package = some p → tbl.HasPackage path p
  enclosingExecutable : d.enclosingExecutable = none
  nesting : d.enclosing = none → d.nesting = .topLevel
  enclosing : ∀ e, d.enclosing = some e → e ∈ tbl.classesOn path
  members : d.memberClasses = []

/-- Entering a class lists it among the members of the class around it, if it is one, and leaves the
declarations of other classes alone. -/
theorem cls_attachTo (h : tbl.register path d = .ok (c, tbl'))
    (he : ∀ e, d.enclosing = some e → e.index < tbl.classes.size) :
    (Stub.attachTo tbl' d.enclosing d.nesting c).cls c = d ∧
      (Stub.attachTo tbl' d.enclosing d.nesting c).classes.size = tbl.classes.size + 1 ∧
      ∀ c', c' ≠ c → ∃ more,
        (Stub.attachTo tbl' d.enclosing d.nesting c).cls c' =
          { tbl.cls c' with memberClasses := (tbl.cls c').memberClasses ++ more } ∧
        ∀ m, m ∈ more ↔ m = c ∧ d.enclosing = some c' ∧ d.nesting = .member := by
  obtain ⟨-, hc, hclasses, -⟩ := Stub.register_eq_ok h
  have hcls := Stub.cls_of_register h
  have hself : tbl'.cls c = d := by
    rcases hcls c with ⟨-, hc⟩ | ⟨hne, -⟩
    · exact hc
    · exact absurd rfl hne
  have hother (c' : ClassId) (hne : c' ≠ c) : tbl'.cls c' = tbl.cls c' := by
    rcases hcls c' with ⟨heq, -⟩ | ⟨-, hc'⟩
    · exact absurd heq hne
    · exact hc'
  have hsize : tbl'.classes.size = tbl.classes.size + 1 := by rw [hclasses, Array.size_push]
  -- Where nothing is attached, no class has further members.
  have hplain (hno : ∀ e, d.enclosing = some e → d.nesting ≠ .member) (c' : ClassId)
      (hne : c' ≠ c) : ∃ more, tbl'.cls c' =
          { tbl.cls c' with memberClasses := (tbl.cls c').memberClasses ++ more } ∧
        ∀ m, m ∈ more ↔ m = c ∧ d.enclosing = some c' ∧ d.nesting = .member := by
    refine ⟨[], by rw [hother c' hne, append_nil], fun m => ?_⟩
    simp only [not_mem_nil, false_iff]
    rintro ⟨-, henclosing, hmember⟩
    exact hno c' henclosing hmember
  unfold Stub.attachTo
  split
  · rename_i e hene
    split
    · rename_i hmember
      have hlt := he e hene
      have hec : e ≠ c := by
        rintro rfl
        omega
      refine ⟨?_, by simp [modifyClass, hsize], fun c' hne => ?_⟩
      · rcases Stub.cls_modifyClass tbl' e _ c with ⟨heq, -⟩ | ⟨-, hc⟩
        · exact absurd heq.symm hec
        · rw [hc, hself]
      · rcases Stub.cls_modifyClass tbl' e _ c' with ⟨rfl, -, hc'⟩ | ⟨hno, hc'⟩
        · refine ⟨[c], by rw [hc', hother c' hne], fun m => ?_⟩
          simp [hene, hmember]
        · have hce : c' ≠ e := by
            rcases hno with hno | hno
            · exact hno
            · omega
          refine ⟨[], by rw [hc', hother c' hne, append_nil], fun m => ?_⟩
          simp [hene, hce.symm]
    · rename_i hmember
      exact ⟨hself, hsize, hplain fun _ _ => hmember⟩
  · rename_i hnone
    exact ⟨hself, hsize, hplain fun e hene => by rw [hnone] at hene; cases hene⟩

/-- Registering a class changes the list of the classes of the class path only. -/
theorem classesOn_register (hl : tbl.Lineal path) (h : tbl.register path d = .ok (c, tbl')) :
    tbl'.packages = tbl.packages ∧ (∀ q, (tbl'.path q).packages = (tbl.path q).packages) ∧
      ∀ q c', c' ∈ tbl'.classesOn q ↔ c' ∈ tbl.classesOn q ∨ q = path ∧ c' = c := by
  obtain ⟨-, -, -, hpaths⟩ := Stub.register_eq_ok h
  have hself : tbl'.path path =
      { tbl.path path with types := (tbl.path path).types.push (d.name, c) } := by
    rw [Table.path, hpaths]
    exact Stub.path_modifyPath_self hl.lt_size _
  have hother (q : PathId) (hq : q ≠ path) : tbl'.path q = tbl.path q := by
    rw [Table.path, hpaths]
    exact Stub.path_modifyPath_of_ne hq _
  refine ⟨?_, fun q => ?_, fun q c' => ?_⟩
  · unfold register at h
    split at h
    · cases h
    · cases h
      rfl
  · by_cases hq : q = path
    · rw [hq, hself]
    · rw [hother q hq]
  · by_cases hq : q = path
    · simp [classesOn, hq, hself]
    · simp [classesOn, hother q hq, hq]

namespace Arranged

variable (h : tbl.Arranged path)

include h

/-- The classes that were there before stay in their places when a class is entered. -/
theorem placed_enter {made c'} (hd : tbl.Enterable path d)
    (hq : tbl.Sees path q) (hc' : c' ∈ tbl.classesOn q) (hwider : tbl.Wider made)
    (hmem : ∀ q c', c' ∈ made.classesOn q ↔ c' ∈ tbl.classesOn q ∨ q = path ∧ c' = c)
    (hself : made.cls c = d) (hother : ∀ c', c' ≠ c → ∃ more,
      made.cls c' = { tbl.cls c' with memberClasses := (tbl.cls c').memberClasses ++ more } ∧
        ∀ m, m ∈ more ↔ m = c ∧ d.enclosing = some c' ∧ d.nesting = .member)
    (hfresh : ∀ {c'}, c' ∈ tbl.classesOn q → c' ≠ c) : made.Placed q c' := by
  have hplaced := h.placed q c' hq hc'
  obtain ⟨more, hcls, hmore⟩ := hother c' (hfresh hc')
  refine ⟨hcls ▸ hplaced.isPrimitive, fun p hp => ?_, hcls ▸ hplaced.enclosingExecutable,
    hcls ▸ hplaced.nesting, fun e he => ?_, fun m hm => ?_⟩
  · rw [hcls] at hp
    exact hwider.hasPackage (hplaced.visible p hp)
  · rw [hcls] at he ⊢
    obtain ⟨he, hlisted⟩ := hplaced.enclosing e he
    obtain ⟨more', hcls', -⟩ := hother e (hfresh he)
    refine ⟨(hmem q e).mpr (.inl he), fun hmember => ?_⟩
    rw [hcls']
    exact mem_append_left _ (hlisted hmember)
  · rw [hcls] at hm
    rcases mem_append.mp hm with hm | hm
    · obtain ⟨hm, henclosing, hmember⟩ := hplaced.members m hm
      obtain ⟨more', hcls', -⟩ := hother m (hfresh hm)
      rw [hcls']
      exact ⟨(hmem q m).mpr (.inl hm), henclosing, hmember⟩
    · obtain ⟨rfl, henclosing, hmember⟩ := (hmore m).mp hm
      -- The class around the new one is on the class path, and on no other.
      have hqp : q = path := h.once q path c' hq .self hc' (hd.enclosing c' henclosing)
      rw [hself]
      exact ⟨(hmem q m).mpr (.inr ⟨hqp, rfl⟩), henclosing, hmember⟩

/-- A class is entered. -/
theorem enter (hd : tbl.Enterable path d)
    (hr : tbl.register path d = .ok (c, tbl')) :
    (Stub.attachTo tbl' d.enclosing d.nesting c).Arranged path := by
  have hlt (e : ClassId) (he : d.enclosing = some e) := h.class_lt path e .self (hd.enclosing e he)
  obtain ⟨hself, hsize, hother⟩ := cls_attachTo hr hlt
  obtain ⟨hentered, hregistered, hmem⟩ := classesOn_register h.lineal hr
  have hc := (Stub.register_eq_ok hr).2.1
  obtain ⟨hpaths, hpackages⟩ := Stub.paths_attachTo tbl' d.enclosing d.nesting c
  have hwider := (Stub.wider_register hr).trans (.of_paths_eq hpaths)
  have hpath (q : PathId) : (Stub.attachTo tbl' d.enclosing d.nesting c).path q = tbl'.path q := by
    rw [Table.path, hpaths, Table.path]
  rw [hentered] at hpackages
  generalize Stub.attachTo tbl' d.enclosing d.nesting c = made at *
  have hsees {q : PathId} : made.Sees path q ↔ tbl.Sees path q := hwider.sees_iff
  have hpackage (p : PackageId) : made.package p = tbl.package p := by
    rw [Table.package, hpackages, Table.package]
  replace hregistered (q : PathId) : (made.path q).packages = (tbl.path q).packages := by
    rw [hpath, hregistered]
  replace hmem (q : PathId) (c' : ClassId) :
      c' ∈ made.classesOn q ↔ c' ∈ tbl.classesOn q ∨ q = path ∧ c' = c := by
    rw [classesOn, hpath]
    exact hmem q c'
  -- The class is younger than all that were registered before.
  have hfresh {q : PathId} (hq : tbl.Sees path q) {c' : ClassId} (hc' : c' ∈ tbl.classesOn q) :
      c' ≠ c := by
    rintro rfl
    have := h.class_lt q c' hq hc'
    omega
  refine ⟨hwider.lineal h.lineal, fun q c' hq hc' => ?_, fun q r c' hq hs hc' hc'' => ?_,
    fun q e hq he => ?_, fun q e hq he => ?_, fun q r e e' hq hs he he' => ?_,
    fun q c' hq hc' => ?_⟩
  · rw [hsize]
    rcases (hmem q c').mp hc' with hc' | ⟨-, rfl⟩
    · exact Nat.lt_succ_of_lt (h.class_lt q c' (hsees.mp hq) hc')
    · omega
  · rcases (hmem q c').mp hc' with hc' | ⟨rfl, rfl⟩
    · rcases (hmem r c').mp hc'' with hc'' | ⟨-, rfl⟩
      · exact h.once q r c' (hsees.mp hq) (hsees.mp hs) hc' hc''
      · exact absurd rfl (hfresh (hsees.mp hq) hc')
    · rcases (hmem r c').mp hc'' with hc'' | ⟨rfl, -⟩
      · exact absurd rfl (hfresh (hsees.mp hs) hc'')
      · rfl
  · rw [hpackages]
    exact h.package_lt q e (hsees.mp hq) (hregistered q ▸ he)
  · rw [hpackage]
    exact h.made q e (hsees.mp hq) (hregistered q ▸ he)
  · exact h.package_eq q r e e' (hsees.mp hq) (hsees.mp hs) (hregistered q ▸ he)
      (hregistered r ▸ he')
  · rcases (hmem q c').mp hc' with hc' | ⟨rfl, rfl⟩
    · exact h.placed_enter hd (hsees.mp hq) hc' hwider hmem hself hother (hfresh (hsees.mp hq))
    · refine ⟨hself ▸ hd.isPrimitive, fun p hp => hwider.hasPackage (hd.visible p (hself ▸ hp)),
        hself ▸ hd.enclosingExecutable, hself ▸ hd.nesting, fun e he => ?_, fun m hm => ?_⟩
      · rw [hself] at he ⊢
        have hmem' := hd.enclosing e he
        refine ⟨(hmem q e).mpr (.inl hmem'), fun hmember => ?_⟩
        obtain ⟨more, hcls, hmore⟩ := hother e (hfresh .self hmem')
        rw [hcls]
        exact mem_append_right _ ((hmore c').mpr ⟨rfl, he, hmember⟩)
      · rw [hself, hd.members] at hm
        cases hm

theorem refine (c : ClassId) {f : ClassDecl → ClassDecl}
    (hf : ∀ d, (f d).head = d.head) : (tbl.modifyClass c f).Arranged path := by
  refine h.congr ⟨h.lineal.lt_size, h.lineal.parent_lt⟩ (fun _ _ => rfl) (fun c' hc' => ?_)
    fun p hp => ⟨hp, rfl, rfl⟩
  refine ⟨by simpa [modifyClass] using hc', ?_⟩
  rcases Stub.cls_modifyClass tbl c f c' with ⟨-, -, hcls⟩ | ⟨-, hcls⟩
  · rw [hcls, hf]
  · rw [hcls]

theorem annotate (p : PackageId) (uses : List AnnotationUse) :
    (tbl.modifyPackage p
      fun d => { d with annotations := d.annotations ++ uses }).Arranged path := by
  refine h.congr ⟨h.lineal.lt_size, h.lineal.parent_lt⟩ (fun _ _ => rfl) (fun c hc => ⟨hc, rfl⟩)
    fun p' hp => ?_
  rw [Stub.package_modifyPackage tbl p _ hp]
  refine ⟨by simpa [modifyPackage] using hp, ?_⟩
  split_ifs
  · exact ⟨rfl, rfl⟩
  · exact ⟨rfl, rfl⟩

/-- The first pass of a load. The packages that it has come to stay visible, and the class path goes
on to register the classes that it has entered, since class paths register more and more. -/
theorem entries {ps cs} (hentries : Stub.Entries path tbl tbl' ps cs) : tbl'.Arranged path ∧
    (∀ p ∈ ps, tbl'.HasPackage path p) ∧ ∀ c ∈ cs, c ∈ tbl'.classesOn path := by
  induction hentries with
  | start => exact ⟨h, forall_mem_nil _, forall_mem_nil _⟩
  | @package tbl ps cs _ name ih =>
    obtain ⟨ih, hpackages, hclasses⟩ := ih
    have hwider := Stub.wider_definePackage tbl path name
    refine ⟨ih.definePackage name, forall_mem_cons.mpr ⟨?_, fun p hp => ?_⟩, fun c hc => ?_⟩
    · exact Stub.hasPackage_definePackage ih.lineal name
    · exact hwider.hasPackage (hpackages p hp)
    · exact hwider.mem_classesOn (hclasses c hc)
  | @enter tbl mid ps cs package d c _ hheader hpackage henclosing hregister ih =>
    obtain ⟨ih, hpackages, hclasses⟩ := ih
    have hattach : mid.Wider (Stub.attachTo mid d.enclosing d.nesting c) :=
      .of_paths_eq (Stub.paths_attachTo mid d.enclosing d.nesting c).1
    have hwider := (Stub.wider_register hregister).trans hattach
    have hd : tbl.Enterable path d := by
      refine ⟨?_, ?_, hheader.enclosingExecutable_eq, fun hnone => ?_,
        fun e he => hclasses e (henclosing e he), hheader.members.2.2.2⟩
      · rw [hheader.package_eq]
        rintro ⟨⟩
      · rw [hheader.package_eq]
        rintro p ⟨⟩
        exact hpackages package hpackage
      · have hname := hheader.name_eq
        rw [hnone, Stub.fullName] at hname
        split_ifs at hname with hnesting
        exact not_not.mp hnesting
    refine ⟨ih.enter hd hregister, fun p hp => ?_,
      forall_mem_append.mpr ⟨fun c hc => ?_, forall_mem_singleton.mpr ?_⟩⟩
    · exact hwider.hasPackage (hpackages p hp)
    · exact hwider.mem_classesOn (hclasses c hc)
    · exact hattach.mem_classesOn (Stub.mem_classesOn_of_register ih.lineal hregister)
  | @list tbl ps cs c _ constants ih =>
    obtain ⟨ih, hpackages, hclasses⟩ := ih
    have hwider : tbl.Wider (tbl.modifyClass c fun d =>
        { d with fields := constants.map (Stub.enumConstant c) }) := .of_paths_eq rfl
    exact ⟨ih.refine c fun _ => rfl, fun p hp => hwider.hasPackage (hpackages p hp),
      fun c hc => hwider.mem_classesOn (hclasses c hc)⟩

/-- A load that fails changes nothing. -/
theorem kept (hkept : tbl.Kept tbl')
    (hclasses : tbl.classes.size ≤ tbl'.classes.size)
    (hpackages : tbl.packages.size ≤ tbl'.packages.size) : tbl'.Arranged path := by
  have hpath (q : PathId) : tbl'.path q = tbl.path q := by rw [Table.path, hkept.paths, Table.path]
  refine h.congr ⟨hkept.paths ▸ h.lineal.lt_size, fun q up hq => ?_⟩ (fun q _ => hpath q)
    (fun c hc => ⟨Nat.lt_of_lt_of_le hc hclasses, ?_⟩)
    fun p hp => ⟨Nat.lt_of_lt_of_le hp hpackages, ?_⟩
  · exact h.lineal.parent_lt q up (hpath q ▸ hq)
  · rw [hkept.classes c hc]
  · rw [hkept.packages p hp]
    exact ⟨rfl, rfl⟩

theorem load (documents : List Datum) :
    (tbl.load path documents).2.Arranged path := by
  have hspared := RegistryCall.spared_perform path tbl (.load documents)
  rcases hload : tbl.load path documents with ⟨e | cs, tbl'⟩
  · simp only [RegistryCall.perform, hload] at hspared
    have hkept := (Stub.failsGrown_loadDocuments documents).kept_rollingBack hload
    exact h.kept hkept hspared.classes_size hspared.packages_size
  · obtain ⟨pending, -, first, ps, hentries, -, hrest⟩ :=
      Stub.completing_of_loadDocuments (Stub.eq_ok_of_rollingBack hload)
    exact hrest (Arranged · path)
      (fun p _ => Stub.maintains_define fun t f hf ht => ht.refine p.cls hf)
      (fun t p uses ht => ht.annotate p uses) (h.entries hentries).1

theorem loadJson (text : String) :
    (tbl.loadJson path text).2.Arranged path := by
  cases hdocuments : Stub.documentsOfJson text with
  | ok documents =>
    rw [Stub.loadJson_eq hdocuments]
    exact h.load documents
  | error e =>
    have hspared := RegistryCall.spared_perform path tbl (.loadJson text)
    obtain ⟨tbl', hload⟩ : ∃ tbl', tbl.loadJson path text = (.error e, tbl') :=
      Stub.loadJson_eq_error hdocuments
    simp only [RegistryCall.perform, hload] at hspared
    rw [hload]
    have hkept := (Stub.FailsGrown.lift_bind _ Stub.failsGrown_loadDocuments).kept_rollingBack hload
    exact h.kept hkept hspared.classes_size hspared.packages_size

end Arranged

/-! ### Class paths on top of ancestors that do not change -/

end Table

/-- A declaration that stands in for a primitive type or `void`, and belongs to nothing. -/
structure ClassDecl.IsStandIn (d : ClassDecl) : Prop where
  isPrimitive : d.isPrimitive = true
  package : d.package = none
  nesting : d.nesting = .topLevel
  enclosing : d.enclosing = none
  enclosingExecutable : d.enclosingExecutable = none
  members : d.memberClasses = []

/-- Classes are registered by loads; only stand-ins are registered by themselves. -/
def RegistryCall.Regular : RegistryCall → Prop
  | register d => d.IsStandIn
  | _ => True

namespace Table

variable {tbl tbl' : Table} {path q : PathId}

/-- The class path was filled by loads while its ancestors did not change. Meanwhile there may have
been calls on class paths that it does not see, and further class paths may have been made. -/
inductive Built : Table → PathId → Prop
  | root {tbl : Table} (h : ∀ q up, (tbl.path q).parent = some up → up.index < q.index) :
      Built (tbl.addPath {}).2 (tbl.addPath {}).1
  | child {tbl : Table} {path : PathId} (h : Built tbl path) :
      Built (tbl.addPath { parent := some path }).2 (tbl.addPath { parent := some path }).1
  | call {tbl : Table} {path : PathId} (h : Built tbl path) (call : RegistryCall)
      (hcall : call.Regular) : Built (call.perform path tbl) path
  | elsewhere {tbl : Table} {path q : PathId} (h : Built tbl path) (call : RegistryCall)
      (hq : q.index < tbl.paths.size) (hsees : ¬tbl.Sees path q) : Built (call.perform q tbl) path
  | beside {tbl : Table} {path : PathId} (h : Built tbl path) {up : Option PathId}
      (hup : ∀ p, up = some p → p.index < tbl.paths.size) :
      Built (tbl.addPath { parent := up }).2 path
  | core {tbl : Table} {path : PathId} (h : Built tbl path) (core : Core) :
      Built { tbl with core } path

theorem path_addPath (tbl : Table) (p : ClassPath) (q : PathId) :
    (tbl.addPath p).2.path q = if q.index = tbl.paths.size then p else tbl.path q := by
  simp only [Table.path, addPath, Array.getD_eq_getD_getElem?, Array.getElem?_push]
  split_ifs
  · rfl
  · rfl

/-- A new class path does not change what an older one records. -/
theorem Arranged.addPath (h : tbl.Arranged path) {up}
    (hup : ∀ p, up = some p → p.index < tbl.paths.size) :
    (tbl.addPath { parent := up }).2.Arranged path := by
  have hlt := h.lineal.lt_size
  refine h.congr ⟨by simp only [Table.addPath, Array.size_push]; omega, fun q p hq => ?_⟩
    (fun q hq => ?_) (fun c hc => ⟨hc, rfl⟩) fun p hp => ⟨hp, rfl, rfl⟩
  · rw [path_addPath] at hq
    split_ifs at hq with hnew
    · rw [hnew]
      exact hup p hq
    · exact h.lineal.parent_lt q p hq
  · have hle := hq.le h.lineal
    rw [path_addPath, if_neg (by omega)]

/-- Calls on a class path that is not seen do not change what a class path records. -/
theorem Arranged.elsewhere (h : tbl.Arranged path) (call : RegistryCall)
    (hq : q.index < tbl.paths.size) (hsees : ¬tbl.Sees path q) :
    (call.perform q tbl).Arranged path := by
  have hspared := RegistryCall.spared_perform q tbl call
  obtain ⟨outer, cs, hentered⟩ := call.exists_entered ⟨hq, h.lineal.parent_lt⟩
  have hlineal := hentered.lineal ⟨hq, h.lineal.parent_lt⟩
  refine h.congr ⟨hentered.paths_size ▸ h.lineal.lt_size, hlineal.parent_lt⟩ (fun r hr => ?_)
    (fun c hc => ⟨Nat.lt_of_lt_of_le hc hspared.classes_size, ?_⟩)
    fun p hp => ⟨Nat.lt_of_lt_of_le hp hspared.packages_size, ?_⟩
  · refine hspared.paths_eq r ?_
    rintro rfl
    exact hsees hr
  · rw [hspared.classes_eq c hc]
  · obtain ⟨uses, huses⟩ := hspared.packages_eq p hp
    rw [huses]
    exact ⟨rfl, rfl⟩

theorem Arranged.register (h : tbl.Arranged path) (hd : d.IsStandIn) :
    (RegistryCall.perform path tbl (.register d)).Arranged path := by
  rw [RegistryCall.perform]
  split
  · rename_i c tbl' hr
    have henterable : tbl.Enterable path d :=
      ⟨fun _ => hd.isPrimitive, by rw [hd.package]; rintro p ⟨⟩, hd.enclosingExecutable,
        fun _ => hd.nesting, by rw [hd.enclosing]; rintro e ⟨⟩, hd.members⟩
    have hmade := h.enter henterable hr
    rwa [hd.enclosing] at hmade
  · exact h

theorem Built.arranged (h : tbl.Built path) : tbl.Arranged path := by
  induction h with
  | @root tbl h =>
    have hpath : (tbl.addPath {}).2.path (tbl.addPath {}).1 = {} := by
      rw [path_addPath]
      exact if_pos rfl
    refine .of_empty ⟨by simp [Table.addPath], fun q up hq => ?_⟩ hpath
    rw [path_addPath] at hq
    split_ifs at hq with hnew
    exact h q up hq
  | @child tbl path _ ih =>
    have hpath : (tbl.addPath { parent := some path }).2.path
        (tbl.addPath { parent := some path }).1 = { parent := some path } := by
      rw [path_addPath]
      exact if_pos rfl
    have hup : ∀ p, some path = some p → p.index < tbl.paths.size := by
      rintro p ⟨⟩
      exact ih.lineal.lt_size
    exact (ih.addPath hup).onTop ih.lineal.addPath (by rw [hpath]) (by rw [hpath]) (by rw [hpath])
  | call _ call hcall ih =>
    cases call with
    | load documents => exact ih.load documents
    | loadJson text => exact ih.loadJson text
    | definePackage name => exact ih.definePackage name
    | register d => exact ih.register hcall
  | elsewhere _ call hq hsees ih => exact ih.elsewhere call hq hsees
  | beside _ hup ih => exact ih.addPath hup
  | core _ core ih =>
    exact ih.congr ⟨ih.lineal.lt_size, ih.lineal.parent_lt⟩ (fun _ _ => rfl) (fun _ hc => ⟨hc, rfl⟩)
      fun _ hp => ⟨hp, rfl, rfl⟩

/-! ### Enclosing and enclosed elements -/

namespace Arranged

variable (h : tbl.Arranged path)

include h

/-- A class is enclosed in the class around it, and in its package if there is none. -/
theorem enclosingElement_type (hq : tbl.Sees path q)
    (hc : c ∈ tbl.classesOn q) (hp : (tbl.cls c).package = some p) :
    tbl.enclosingElement (.type c) =
      .ok (some (((tbl.cls c).enclosing.map .type).getD (.package p))) := by
  have hexecutable := (h.placed q c hq hc).enclosingExecutable
  cases henclosing : (tbl.cls c).enclosing with
  | some e =>
    simp only [enclosingElement, hexecutable, henclosing]
    rfl
  | none =>
    simp only [enclosingElement, hexecutable, henclosing, hp]
    rfl

/-- The package of a class knows the class path on which it was made, and that class path is seen
from where the class is registered. -/
theorem package_of_class (hq : tbl.Sees path q) (hc : c ∈ tbl.classesOn q)
    (hp : (tbl.cls c).package = some p) :
    ∃ r, tbl.Sees q r ∧ ((tbl.package p).name, p) ∈ (tbl.path r).packages ∧
      (tbl.package p).path = some r := by
  obtain ⟨r, name, hr, hmem⟩ := (h.placed q c hq hc).visible p hp
  obtain ⟨hname, hpath⟩ := h.made r _ (hq.trans hr) hmem
  exact ⟨r, hr, by rwa [hname], hpath⟩

/-- What a package encloses: the top-level classes that its class path sees and whose package it
is. -/
theorem mem_enclosedElements_package {r} (hr : tbl.Sees path r)
    (hp : ((tbl.package p).name, p) ∈ (tbl.path r).packages) {x} :
    x ∈ tbl.enclosedElements (.package p) ↔ ∃ c q, x = .type c ∧ tbl.Sees r q ∧
      c ∈ tbl.classesOn q ∧ (tbl.cls c).nesting = .topLevel ∧ (tbl.cls c).package = some p := by
  have hpath := (h.made r _ hr hp).2
  simp only [enclosedElements, hpath, classesIn, mem_map, mem_mergeSort, mem_flatMap,
    mem_filter, mem_pathChain (hr.lineal h.lineal)]
  constructor
  · rintro ⟨c, ⟨_, ⟨q, hq, rfl⟩, hc, hclass⟩, rfl⟩
    have hc : c ∈ tbl.classesOn q := mem_map.mpr hc
    simp only [isClassOf, Bool.and_eq_true, beq_iff_eq] at hclass
    refine ⟨c, q, rfl, hq, hc, hclass.1, ?_⟩
    cases hpackage : (tbl.cls c).package with
    | none => simp [hpackage] at hclass
    | some p' =>
      obtain ⟨r', hr', hmem, -⟩ := h.package_of_class (hr.trans hq) hc hpackage
      rw [hpackage] at hclass
      exact congrArg some (h.package_eq r' r _ _ ((hr.trans hq).trans hr') hr hmem hp hclass.2)
  · rintro ⟨c, q, rfl, hq, hc, hnesting, hpackage⟩
    refine ⟨c, ⟨_, ⟨q, hq, rfl⟩, mem_map.mp hc, ?_⟩, rfl⟩
    simp [isClassOf, hnesting, hpackage]

/-- What a class encloses is enclosed in the class. -/
theorem enclosingElement_enclosed (hq : tbl.Sees path q)
    (hc : c ∈ tbl.classesOn q) {x} (hx : x ∈ tbl.enclosedElements (.type c)) :
    tbl.enclosingElement x = .ok (some (.type c)) := by
  simp only [enclosedElements, fieldsOf, constructorsOf, methodsOf, mem_append,
    mem_map] at hx
  rcases hx with ((⟨_, ⟨i, -, rfl⟩, rfl⟩ | ⟨_, ⟨i, -, rfl⟩, rfl⟩) | ⟨_, ⟨i, -, rfl⟩, rfl⟩) |
    ⟨m, hm, rfl⟩
  · rfl
  · rfl
  · rfl
  · obtain ⟨hmem, henclosing, -⟩ := (h.placed q c hq hc).members m hm
    simp only [enclosingElement, (h.placed q m hq hmem).enclosingExecutable, henclosing]
    rfl

end Arranged

/-! ### A package on two class paths -/

/-- The document of a package with the given types. -/
def packageDocument (name : String) (types : List Datum) : Datum :=
  .object [("package", .text name), ("types", .list types)]

/-- A class path with a package, in which an interface has two interfaces inside, the second one
declared as a top-level type. -/
def lowerPackage : Table :=
  RegistryCall.perform ⟨0⟩ (Table.addPath {} {}).2 (.load [packageDocument "p" [
    Stub.interfaceEntry "O" [] [("types", .list [Stub.interfaceEntry "I" [] [],
      Stub.interfaceEntry "X" [] [("nesting", .text "top_level")]])]]])

/-- Another class path on top of it has an interface in the same package. -/
def splitPackage : Table :=
  RegistryCall.perform ⟨1⟩ (lowerPackage.addPath { parent := some ⟨0⟩ }).2
    (.load [packageDocument "p" [Stub.interfaceEntry "D" [] []]])

set_option maxRecDepth 20000 in
theorem splitPackage_eq :
    lowerPackage.paths.size = 1 ∧
      splitPackage.enclosedElements (.package ⟨0⟩) = [.type ⟨0⟩, .type ⟨2⟩] ∧
      splitPackage.enclosedElements (.type ⟨0⟩) = [.type ⟨1⟩] ∧
      splitPackage.typeElement? ⟨1⟩ "p.O.I" = some (.type ⟨1⟩) ∧
      (splitPackage.cls ⟨1⟩).nesting = .member ∧
      splitPackage.enclosingElement (.type ⟨2⟩) = .ok (some (.type ⟨0⟩)) ∧
      splitPackage.typeElement? ⟨1⟩ "p.D" = some (.type ⟨3⟩) ∧
      splitPackage.enclosingElement (.type ⟨3⟩) = .ok (some (.package ⟨0⟩)) := by
  cbv

/-- Let the ancestors of a class path be unchanged while it was filled. Of the classes that a
package encloses, those have the package as their enclosing element that do not stand inside a
class. All that a class encloses has the class as its enclosing element. A member class is among the
elements that its enclosing element encloses; a top-level class is if and only if its enclosing
element is a package that was made on the class path where the class is registered. -/
theorem Built.enclosed_iff (h : tbl.Built path) :
    (∀ name x, tbl.packageElement? path name = some x → ∀ y ∈ tbl.enclosedElements x,
      ∃ c, y = .type c ∧
        (tbl.enclosingElement y = .ok (some x) ↔ (tbl.cls c).enclosing = none)) ∧
    ∀ name x, tbl.typeElement? path name = some x →
      (∀ y ∈ tbl.enclosedElements x, tbl.enclosingElement y = .ok (some x)) ∧
      ∃ c, x = .type c ∧
        ((tbl.cls c).nesting = .member →
          ∃ y, tbl.enclosingElement x = .ok (some y) ∧ x ∈ tbl.enclosedElements y) ∧
        ((tbl.cls c).nesting = .topLevel →
          ∃ y, tbl.enclosingElement x = .ok (some y) ∧ (x ∈ tbl.enclosedElements y ↔
            ∃ p q, y = .package p ∧ (tbl.package p).path = some q ∧ c ∈ tbl.classesOn q)) := by
  have h := h.arranged
  constructor
  · intro name x hx y hy
    obtain ⟨p, hp, rfl⟩ := Option.map_eq_some_iff.mp hx
    obtain ⟨r, ⟨name', p⟩, hr, hmem, rfl, -⟩ := mem_packages_of_lookupPackage h.lineal hp
    obtain rfl : (tbl.package p).name = name' := (h.made r _ hr hmem).1
    obtain ⟨c, q, rfl, hq, hc, -, hpackage⟩ := (h.mem_enclosedElements_package hr hmem).mp hy
    rw [h.enclosingElement_type (hr.trans hq) hc hpackage]
    refine ⟨c, rfl, ?_⟩
    cases (tbl.cls c).enclosing with
    | none => exact iff_of_true rfl rfl
    | some e => exact iff_of_false (by simp) (by simp)
  · intro name x hx
    obtain ⟨c, hc, rfl⟩ := Option.map_eq_some_iff.mp hx
    obtain ⟨hc, hprimitive⟩ := Option.filter_eq_some_iff.mp hc
    obtain ⟨q, hq, hc⟩ := mem_classesOn_of_lookupType h.lineal hc
    have hplaced := h.placed q c hq hc
    obtain ⟨p, hp⟩ : ∃ p, (tbl.cls c).package = some p := by
      cases hp : (tbl.cls c).package with
      | none => simp [hplaced.isPrimitive hp] at hprimitive
      | some p => exact ⟨p, rfl⟩
    rw [h.enclosingElement_type hq hc hp]
    refine ⟨fun y hy => h.enclosingElement_enclosed hq hc hy, c, rfl, fun hnesting => ?_,
      fun hnesting => ⟨_, rfl, ?_⟩⟩
    · cases henclosing : (tbl.cls c).enclosing with
      | none =>
        rw [hplaced.nesting henclosing] at hnesting
        cases hnesting
      | some e =>
        have hlisted := (hplaced.enclosing e henclosing).2 hnesting
        exact ⟨.type e, rfl, mem_append_right _ (mem_map_of_mem hlisted)⟩
    · cases henclosing : (tbl.cls c).enclosing with
      | none =>
        obtain ⟨r, hr, hmem, hpath⟩ := h.package_of_class hq hc hp
        rw [Option.map_none, Option.getD_none, h.mem_enclosedElements_package (hq.trans hr) hmem]
        constructor
        · rintro ⟨_, q', ⟨⟩, hq', hc', -, -⟩
          -- The class is registered once, so each of the two class paths sees the other.
          obtain rfl := h.once q q' c hq ((hq.trans hr).trans hq') hc hc'
          obtain rfl := hr.antisymm (hq.lineal h.lineal) hq'
          exact ⟨p, r, rfl, hpath, hc⟩
        · rintro ⟨_, q', ⟨⟩, hpath', hc'⟩
          obtain rfl := Option.some.inj (hpath.symm.trans hpath')
          exact ⟨c, r, rfl, .self, hc', hnesting, hp⟩
      | some e =>
        refine iff_of_false (fun hx => ?_) ?_
        · have he := (hplaced.enclosing e henclosing).1
          have hm : c ∈ (tbl.cls e).memberClasses := by
            simpa [enclosedElements] using hx
          rw [((h.placed q e hq he).members c hm).2.2] at hnesting
          cases hnesting
        · rintro ⟨p, q', hy, -⟩
          cases hy

/-- The member of the interface is enclosed in it. -/
theorem Built.enclosed_iff_split :
    splitPackage.Built ⟨1⟩ ∧ splitPackage.typeElement? ⟨1⟩ "p.O.I" = some (.type ⟨1⟩) ∧
      ∃ y, splitPackage.enclosingElement (.type ⟨1⟩) = .ok (some y) ∧
        .type ⟨1⟩ ∈ splitPackage.enclosedElements y := by
  obtain ⟨hsize, -, -, hfound, hnesting, -⟩ := splitPackage_eq
  have hload (documents : List Datum) : (RegistryCall.load documents).Regular := trivial
  have hroot : Built (Table.addPath {} {}).2 ⟨0⟩ := .root fun q up hq => by cases hq
  have hlower : lowerPackage.Built ⟨0⟩ := .call hroot _ (hload _)
  have hchild := Built.child hlower
  rw [show (lowerPackage.addPath { parent := some ⟨0⟩ }).1 = ⟨1⟩ from congrArg PathId.mk hsize]
    at hchild
  have hbuilt : splitPackage.Built ⟨1⟩ := .call hchild _ (hload _)
  obtain ⟨-, c, hc, hmember, -⟩ := (Built.enclosed_iff hbuilt).2 _ _ hfound
  cases hc
  exact ⟨hbuilt, hfound, hmember hnesting⟩

/-- The package encloses an interface whose enclosing element is another interface, which does not
enclose it. The interface that is loaded on the upper class path is enclosed in the package, and is
not among the elements that the package encloses. -/
theorem enclosed_ne_splitPackage :
    (.type ⟨2⟩ ∈ splitPackage.enclosedElements (.package ⟨0⟩) ∧
      splitPackage.enclosingElement (.type ⟨2⟩) = .ok (some (.type ⟨0⟩)) ∧
      .type ⟨2⟩ ∉ splitPackage.enclosedElements (.type ⟨0⟩)) ∧
    splitPackage.typeElement? ⟨1⟩ "p.D" = some (.type ⟨3⟩) ∧
      splitPackage.enclosingElement (.type ⟨3⟩) = .ok (some (.package ⟨0⟩)) ∧
      .type ⟨3⟩ ∉ splitPackage.enclosedElements (.package ⟨0⟩) := by
  obtain ⟨-, hpackage, htype, -, -, hinner, hfound, hsplit⟩ := splitPackage_eq
  refine ⟨⟨?_, hinner, ?_⟩, hfound, hsplit, ?_⟩
  · simp [hpackage]
  · simp [htype]
  · simp [hpackage]

end Table

end NominalTypes
