import NominalTypes.Proofs.Hierarchy
import NominalTypes.Proofs.Tokens
import NominalTypes.Signature.Scope

/-!
# The resolution of names

A name is looked up among the member classes of the classes around and of their supertypes, and on
the class path. `Scope.Reachable` collects the classes that this search can come across. If the
supertype expressions of these classes name classes, every name has an answer: a reachable class, or
none.

A qualified name can be read as a class and its members, or as a name on the class path, and of the
latter readings the longest wins. Still the readings fit together: what follows a name that denotes
a class can be added to it, as long as it names member classes.
-/

namespace NominalTypes

open List

variable {c d : ClassId} {name : String} {names more : List String} {words : Text.WordClass}

namespace Scope

variable (tbl : Table) (scope : Scope)

/-- The classes that the resolution of a name can come across. -/
inductive Reachable : ClassId → Prop
  | around {c d : ClassId} (hcontext : scope.context = some c) (hd : d ∈ c :: tbl.enclosers c) :
      Reachable d
  | found {name : String} {c : ClassId} (hfound : tbl.lookupType scope.path name = some c) :
      Reachable c
  | member {c m : ClassId} (hc : Reachable c) (hm : m ∈ (tbl.cls c).memberClasses) : Reachable m
  | supertype {c d : ClassId} (hc : Reachable c) (hd : tbl.Extends c d) : Reachable d

/-- The supertype expressions of all reachable classes name classes, and what is imported are
names. -/
structure NamesClasses : Prop where
  supertypes : ∀ c, Reachable tbl scope c → ∃ ds, tbl.rawSupertypes c = .ok ds
  imports : ∀ i ∈ scope.imports, ∃ s, i = .text s

/-- The search has an answer, and what it finds is reachable. -/
def Answers (r : Result (Option ClassId)) : Prop :=
  ∃ found, r = .ok found ∧ ∀ c ∈ found, Reachable tbl scope c

variable {tbl scope}

theorem Answers.none : Answers tbl scope (.ok none) :=
  ⟨.none, rfl, fun _ h => nomatch h⟩

theorem Answers.some (hc : Reachable tbl scope c) : Answers tbl scope (.ok (some c)) :=
  ⟨.some c, rfl, fun _ h => Option.some.inj h ▸ hc⟩

/-- A search that goes on, whatever it has found. -/
theorem Answers.bind {r : Result (Option ClassId)} {f : Option ClassId → Result (Option ClassId)}
    (hr : Answers tbl scope r) (hnone : Answers tbl scope (f .none))
    (hsome : ∀ c, Reachable tbl scope c → Answers tbl scope (f (.some c))) :
    Answers tbl scope (r >>= f) := by
  obtain ⟨found, rfl, hfound⟩ := hr
  cases found with
  | none => exact hnone
  | some c => exact hsome c (hfound c rfl)

/-! ### Every name has an answer -/

theorem answers_importedClass (name : String) {imports : List Datum}
    (himports : ∀ i ∈ imports, ∃ s, i = .text s) :
    Answers tbl scope (scope.importedClass tbl name imports) := by
  induction imports with
  | nil => exact .none
  | cons i imports ih =>
    obtain ⟨⟨i, rfl⟩, hmore⟩ := forall_mem_cons.mp himports
    rw [importedClass]
    split
    · rename_i c hc
      split_ifs at hc
      exact .some (.found hc)
    · exact ih hmore

section NamesClasses

variable (h : NamesClasses tbl scope)

include h

theorem NamesClasses.answers_inheritedMemberFrom (name : String)
    (fuel : Nat) {queue : List ClassId} (hqueue : ∀ c ∈ queue, Reachable tbl scope c)
    (seen : List ClassId) : Answers tbl scope (tbl.inheritedMemberFrom name fuel queue seen) := by
  induction fuel generalizing queue seen with
  | zero => exact .none
  | succ fuel ih =>
    cases queue with
    | nil => exact .none
    | cons c queue =>
      obtain ⟨hc, hqueue⟩ := forall_mem_cons.mp hqueue
      rw [Table.inheritedMemberFrom]
      split_ifs
      · exact ih hqueue seen
      · cases hfind : (tbl.cls c).memberClasses.find? fun m => (tbl.cls m).simpleName == name with
        | some m => exact .some (.member hc (mem_of_find?_eq_some hfind))
        | none =>
          obtain ⟨ds, hds⟩ := h.supertypes c hc
          simp only [hds]
          refine ih (fun d hd => ?_) (c :: seen)
          rcases mem_append.mp hd with hd | hd
          · exact hqueue d hd
          · exact .supertype hc ⟨ds, hds, hd⟩

theorem NamesClasses.answers_inheritedMemberClass (hc : Reachable tbl scope c) (name : String) :
    Answers tbl scope (tbl.inheritedMemberClass c name) :=
  h.answers_inheritedMemberFrom name _ (by simpa using hc) []

theorem NamesClasses.answers_memberPath (hc : Reachable tbl scope c) (names : List String) :
    Answers tbl scope (tbl.memberPath c names) := by
  induction names generalizing c with
  | nil => exact .some hc
  | cons name names ih =>
    exact (h.answers_inheritedMemberClass hc name).bind .none fun m hm => ih hm

theorem NamesClasses.answers_memberOfEnclosers (name : String)
    {cs : List ClassId} (hcs : ∀ c ∈ cs, Reachable tbl scope c) :
    Answers tbl scope (memberOfEnclosers tbl name cs) := by
  induction cs with
  | nil => exact .none
  | cons c cs ih =>
    obtain ⟨hc, hcs⟩ := forall_mem_cons.mp hcs
    exact (h.answers_inheritedMemberClass hc name).bind (ih hcs) fun m hm => .some hm

theorem NamesClasses.answers_resolveOutside (name : String) :
    Answers tbl scope (scope.resolveOutside tbl name) := by
  rw [resolveOutside]
  split
  · rename_i c hc
    split_ifs at hc
    exact .some (.found hc)
  · obtain ⟨single, hsingle, hreachable⟩ := answers_importedClass name h.imports
    rw [hsingle]
    refine ⟨_, rfl, fun c hc => ?_⟩
    simp only [Option.mem_def, Option.or_eq_some_iff] at hc
    rcases hc with ((hc | ⟨-, hc⟩) | ⟨-, hc⟩) | ⟨-, hc⟩
    · exact hreachable c hc
    · obtain ⟨i, -, hc⟩ := exists_of_findSome?_eq_some hc
      obtain ⟨p, -, hc⟩ := Option.bind_eq_some_iff.mp hc
      exact .found hc
    · exact .found hc
    · exact .found hc

theorem NamesClasses.answers_resolveSimple (name : String) :
    Answers tbl scope (scope.resolveSimple tbl name) := by
  refine (h.answers_memberOfEnclosers name fun d hd => ?_).bind (h.answers_resolveOutside name)
    fun m hm => .some hm
  cases hcontext : scope.context with
  | none =>
    rw [hcontext] at hd
    cases hd
  | some c =>
    rw [hcontext] at hd
    exact .around hcontext hd

theorem NamesClasses.answers_resolveFront (names : List String)
    (split : Nat) : Answers tbl scope (scope.resolveFront tbl names split) := by
  induction split with
  | zero => exact .none
  | succ split ih =>
    rw [resolveFront]
    cases hlookup : tbl.lookupType scope.path (".".intercalate (names.take (split + 1))) with
    | none => exact ih
    | some outer => exact h.answers_memberPath (.found hlookup) _

theorem NamesClasses.answers_resolveQualified (name : String) :
    Answers tbl scope (scope.resolveQualified tbl name) := by
  rw [resolveQualified]
  cases hlookup : tbl.lookupType scope.path name with
  | some found => exact .some (.found hlookup)
  | none => exact h.answers_resolveFront _ _

/-- Every name has an answer. -/
theorem NamesClasses.answers_resolveClass (name : String) :
    Answers tbl scope (scope.resolveClass tbl name) := by
  refine (h.answers_resolveSimple _).bind (h.answers_resolveQualified name) fun start hstart => ?_
  exact (h.answers_memberPath hstart _).bind (h.answers_resolveQualified name) fun _ => .some

end NamesClasses

/-! ### Names with members added -/

theorem memberPath_append (c : ClassId) (names more : List String) :
    tbl.memberPath c (names ++ more) = (do
      match ← tbl.memberPath c names with
      | some d => tbl.memberPath d more
      | none => return none) := by
  induction names generalizing c with
  | nil => rfl
  | cons name names ih =>
    rw [cons_append, Table.memberPath, Table.memberPath, bind_assoc]
    refine bind_congr fun found => ?_
    cases found with
    | none => rfl
    | some m => exact ih m

theorem memberPath_concat {e} (hpath : tbl.memberPath c names = .ok (some d))
    (hmember : tbl.inheritedMemberClass d name = .ok (some e)) :
    tbl.memberPath c (names ++ [name]) = .ok (some e) := by
  rw [memberPath_append, hpath]
  change tbl.memberPath d [name] = _
  rw [Table.memberPath, hmember]
  rfl

theorem resolveFront_concat (hmember : tbl.inheritedMemberClass c name = .ok (some d)) {split}
    (hsplit : split ≤ names.length) (h : scope.resolveFront tbl names split = .ok (some c)) :
    scope.resolveFront tbl (names ++ [name]) split = .ok (some d) := by
  induction split with
  | zero => cases h
  | succ split ih =>
    rw [resolveFront] at h ⊢
    rw [take_append_of_le_length hsplit, drop_append_of_le_length hsplit]
    cases hlookup : tbl.lookupType scope.path (".".intercalate (names.take (split + 1))) with
    | none =>
      rw [hlookup] at h
      exact ih (Nat.le_of_succ_le hsplit) h
    | some outer =>
      rw [hlookup] at h
      exact memberPath_concat h hmember

/-- A dotted name is read segment by segment. -/
theorem resolveClass_intercalate {first}
    (hnames : ∀ name ∈ first :: more, Signature.IsIdentifier words name) :
    scope.resolveClass tbl (".".intercalate (first :: more)) = (do
      match ← scope.resolveSimple tbl first with
      | none => scope.resolveQualified tbl (".".intercalate (first :: more))
      | some start =>
        match ← tbl.memberPath start more with
        | none => scope.resolveQualified tbl (".".intercalate (first :: more))
        | some found => return some found) := by
  have hsegments : Text.segments (".".intercalate (first :: more)) = first :: more :=
    Text.segments_intercalate (cons_ne_nil _ _) fun name hname => (hnames name hname).dot_notMem
  have hmembers : memberSegments (first :: more) = more := by
    rw [memberSegments]
    rintro rfl
    exact (hnames "" (by simp)).ne_empty rfl
  rw [resolveClass, hsegments, hmembers]
  rfl

theorem exists_resolveQualified_concat (hne : names ≠ [])
    (hnames : ∀ n ∈ names ++ [name], Signature.IsIdentifier words n)
    (h : scope.resolveQualified tbl (".".intercalate names) = .ok (some c))
    (hmember : tbl.inheritedMemberClass c name = .ok (some d)) :
    ∃ e, scope.resolveQualified tbl (".".intercalate (names ++ [name])) = .ok (some e) := by
  have hdots : ∀ n ∈ names ++ [name], '.' ∉ n.toList := fun n hn => (hnames n hn).dot_notMem
  rw [resolveQualified, Text.segments_intercalate hne
    fun n hn => hdots n (mem_append_left _ hn)] at h
  rw [resolveQualified, Text.segments_intercalate (by simp) hdots, length_append,
    length_singleton, Nat.add_sub_cancel]
  cases tbl.lookupType scope.path (".".intercalate (names ++ [name])) with
  | some e => exact ⟨e, rfl⟩
  | none =>
    refine ⟨d, ?_⟩
    obtain ⟨n, hn⟩ : ∃ n, names.length = n + 1 :=
      Nat.exists_eq_succ_of_ne_zero (by simpa using hne)
    rw [hn, Nat.add_sub_cancel] at h
    -- The longest front of the longer name is the whole shorter one.
    rw [hn, resolveFront, ← hn, take_left, drop_left]
    cases hlookup : tbl.lookupType scope.path (".".intercalate names) with
    | some found =>
      rw [hlookup] at h
      cases h
      have hself : tbl.memberPath c [] = .ok (some c) := rfl
      exact memberPath_concat hself hmember
    | none =>
      rw [hlookup] at h
      exact resolveFront_concat hmember (by omega) h

/-- With the name of a member class added, the name of a class denotes a class again. -/
theorem exists_resolveClass_concat {first}
    (hnames : ∀ n ∈ first :: (more ++ [name]), Signature.IsIdentifier words n)
    (h : scope.resolveClass tbl (".".intercalate (first :: more)) = .ok (some c))
    (hmember : tbl.inheritedMemberClass c name = .ok (some d)) :
    ∃ e, scope.resolveClass tbl (".".intercalate (first :: (more ++ [name]))) = .ok (some e) := by
  have hqualified
      (h : scope.resolveQualified tbl (".".intercalate (first :: more)) = .ok (some c)) :=
    exists_resolveQualified_concat (cons_ne_nil first more) hnames h hmember
  rw [resolveClass_intercalate
    fun n hn => hnames n (mem_append_left [name] hn)] at h
  rw [resolveClass_intercalate hnames]
  obtain ⟨start, hstart, h⟩ := bind_eq_ok.mp h
  rw [hstart]
  cases start with
  | none => exact hqualified h
  | some start =>
    obtain ⟨inner, hinner, h⟩ := bind_eq_ok.mp h
    cases inner with
    | some found =>
      cases h
      refine ⟨d, ?_⟩
      change (tbl.memberPath start (more ++ [name]) >>= _) = _
      rw [memberPath_concat hinner hmember]
      rfl
    | none =>
      obtain ⟨e, he⟩ := hqualified h
      refine ⟨e, ?_⟩
      change (tbl.memberPath start (more ++ [name]) >>= _) = _
      rw [memberPath_append, hinner]
      exact he

end Scope

end NominalTypes
