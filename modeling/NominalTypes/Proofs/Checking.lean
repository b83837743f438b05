import NominalTypes.Ty.Subtyping
import NominalTypes.Proofs.Inheritance

/-!
# The subtype check as a system of questions

One step of the check reduces the question whether a type is below another to a combination of
further questions. `Test` describes such combinations, and `Table.reduce` the one that belongs to
two types, given how the first parameterizes the class of the second. In an orderly table the check
does what the test says (`Table.Obeys.reduces`), so that what holds of its answers can be derived
from what holds of the questions that are asked (`Table.Asked`), without looking at the check again.
-/

namespace NominalTypes

open List

variable {bounds args args' : List Ty} {owner owner' : Option Ty} {c : ClassId}
  {marks : List ClassId}

/-- A combination of questions whether a type is below another. -/
inductive Test where
  | answer (b : Bool)
  | ask (s t : Ty)
  | both (p q : Test)
  | either (p q : Test)

namespace Test

/-- Asks the questions in order, as long as their answers matter. -/
def run (check : Ty → Ty → Result Bool) : Test → Result Bool
  | answer b => return b
  | ask s t => check s t
  | both p q => do if ← p.run check then q.run check else return false
  | either p q => do if ← p.run check then return true else q.run check

/-- The test succeeds if the questions are answered by the relation. -/
def Holds (R : Ty → Ty → Prop) : Test → Prop
  | answer b => b = true
  | ask s t => R s t
  | both p q => p.Holds R ∧ q.Holds R
  | either p q => p.Holds R ∨ q.Holds R

/-- All questions of the test are among those of the relation. -/
def Asks (R : Ty → Ty → Prop) : Test → Prop
  | answer _ => True
  | ask s t => R s t
  | both p q => p.Asks R ∧ q.Asks R
  | either p q => p.Asks R ∧ q.Asks R

/-- All questions that are tried before an alternative are among those of the relation. -/
def Tries (R : Ty → Ty → Prop) : Test → Prop
  | answer _ => True
  | ask _ _ => True
  | both p q => p.Tries R ∧ q.Tries R
  | either p q => p.Asks R ∧ q.Tries R

/-- All of the tests. -/
def all (ps : List Test) : Test :=
  ps.foldr both (answer true)

/-- Some of the tests. -/
def any (ps : List Test) : Test :=
  ps.foldr either (answer false)

variable {check : Ty → Ty → Result Bool} {R R' : Ty → Ty → Prop}

theorem run_all {α} (f : α → Test) (xs : List α) :
    (all (xs.map f)).run check = xs.allM fun x => (f x).run check := by
  induction xs with
  | nil => rfl
  | cons x xs ih =>
    rw [map_cons, all, foldr_cons, ← all, run, ih, allM_cons]

theorem run_any {α} (f : α → Test) (xs : List α) :
    (any (xs.map f)).run check = xs.anyM fun x => (f x).run check := by
  induction xs with
  | nil => rfl
  | cons x xs ih =>
    rw [map_cons, any, foldr_cons, ← any, run, ih, anyM_cons]

theorem holds_all {ps} : (all ps).Holds R ↔ ∀ p ∈ ps, p.Holds R := by
  induction ps with
  | nil => exact ⟨fun _ => forall_mem_nil _, fun _ => rfl⟩
  | cons p ps ih => rw [all, foldr_cons, ← all, Holds, ih, forall_mem_cons]

theorem holds_any {ps} : (any ps).Holds R ↔ ∃ p ∈ ps, p.Holds R := by
  induction ps with
  | nil => exact ⟨fun h => (nomatch h), fun ⟨_, h, _⟩ => (nomatch h)⟩
  | cons p ps ih => rw [any, foldr_cons, ← any, Holds, ih, exists_mem_cons_iff]

theorem asks_all {ps} (h : ∀ p ∈ ps, p.Asks R) : (all ps).Asks R := by
  induction ps with
  | nil => trivial
  | cons p ps ih =>
    rw [forall_mem_cons] at h
    exact ⟨h.1, ih h.2⟩

theorem asks_any {ps} (h : ∀ p ∈ ps, p.Asks R) : (any ps).Asks R := by
  induction ps with
  | nil => trivial
  | cons p ps ih =>
    rw [forall_mem_cons] at h
    exact ⟨h.1, ih h.2⟩

theorem tries_all {ps} (h : ∀ p ∈ ps, p.Tries R) : (all ps).Tries R := by
  induction ps with
  | nil => trivial
  | cons p ps ih =>
    rw [forall_mem_cons] at h
    exact ⟨h.1, ih h.2⟩

/-- A relation may be replaced by one that contains it on the questions that are asked. -/
theorem Holds.mono {p : Test} (h : p.Holds R) (hasks : p.Asks fun s t => R s t → R' s t) :
    p.Holds R' := by
  induction p with
  | answer b => exact h
  | ask s t => exact hasks h
  | both p q ihp ihq => exact ⟨ihp h.1 hasks.1, ihq h.2 hasks.2⟩
  | either p q ihp ihq => exact h.imp (fun h => ihp h hasks.1) fun h => ihq h hasks.2

theorem Asks.mono {p : Test} (h : p.Asks R) (hR : ∀ s t, R s t → R' s t) : p.Asks R' := by
  induction p with
  | answer b => trivial
  | ask s t => exact hR s t h
  | both p q ihp ihq => exact ⟨ihp h.1, ihq h.2⟩
  | either p q ihp ihq => exact ⟨ihp h.1, ihq h.2⟩

theorem Asks.tries {p : Test} (h : p.Asks R) : p.Tries R := by
  induction p with
  | answer b => trivial
  | ask s t => trivial
  | both p q ihp ihq => exact ⟨ihp h.1, ihq h.2⟩
  | either p q _ ihq => exact ⟨h.1, ihq h.2⟩

/-! ### Answers of tests -/

/-- A test does not fail if its questions do not. -/
theorem yields_run {p : Test} (h : p.Asks fun s t => Yields (check s t) fun _ => True) :
    Yields (p.run check) fun _ => True := by
  induction p with
  | answer b => exact .ok trivial
  | ask s t => exact h
  | both p q ihp ihq =>
    refine (ihp h.1).bind fun b _ => ?_
    cases b with
    | true => exact ihq h.2
    | false => exact .ok trivial
  | either p q ihp ihq =>
    refine (ihp h.1).bind fun b _ => ?_
    cases b with
    | true => exact .ok trivial
    | false => exact ihq h.2

/-- A test succeeds if it does so by questions that succeed, and the others do not fail. -/
theorem yields_run_true {p : Test} (h : p.Asks fun s t => Yields (check s t) fun _ => True)
    (hp : p.Holds fun s t => Yields (check s t) (· = true)) : Yields (p.run check) (· = true) := by
  induction p with
  | answer b => exact .ok hp
  | ask s t => exact hp
  | both p q ihp ihq =>
    refine (ihp h.1 hp.1).bind fun b hb => ?_
    subst hb
    exact ihq h.2 hp.2
  | either p q ihp ihq =>
    rcases hp with hp | hq
    · refine (ihp h.1 hp).bind fun b hb => ?_
      subst hb
      exact .ok rfl
    · refine (yields_run h.1).bind fun b _ => ?_
      cases b with
      | true => exact .ok rfl
      | false => exact ihq h.2 hq

/-- A test has an answer if its questions have. -/
theorem settles_run {check : Nat → Ty → Ty → Result Bool} {p : Test}
    (h : p.Asks fun s t => ∃ b, Settles (fun k => check k s t) b) :
    ∃ b, Settles (fun k => p.run (check k)) b := by
  induction p with
  | answer b => exact ⟨b, .ok b⟩
  | ask s t => exact h
  | both p q ihp ihq =>
    obtain ⟨b, hb⟩ := ihp h.1
    obtain ⟨c, hc⟩ := ihq h.2
    cases b with
    | true => exact ⟨c, hb.bind hc⟩
    | false => exact ⟨false, hb.bind (.ok false)⟩
  | either p q ihp ihq =>
    obtain ⟨b, hb⟩ := ihp h.1
    obtain ⟨c, hc⟩ := ihq h.2
    cases b with
    | true => exact ⟨true, hb.bind (.ok true)⟩
    | false => exact ⟨c, hb.bind hc⟩

/-- A test has the answer yes if it succeeds by questions that have, and whatever is tried before
has an answer. -/
theorem settles_run_true {check : Nat → Ty → Ty → Result Bool} {p : Test}
    (htries : p.Tries fun s t => ∃ b, Settles (fun k => check k s t) b)
    (hp : p.Holds fun s t => Settles (fun k => check k s t) true) :
    Settles (fun k => p.run (check k)) true := by
  induction p with
  | answer b =>
    cases (hp : b = true)
    exact .ok true
  | ask s t => exact hp
  | both p q ihp ihq => exact (ihp htries.1 hp.1).bind (ihq htries.2 hp.2)
  | either p q ihp ihq =>
    rcases hp with hp | hq
    · exact (ihp htries.1.tries hp).bind (.ok true)
    · obtain ⟨b, hb⟩ := settles_run htries.1
      cases b with
      | true => exact hb.bind (.ok true)
      | false => exact hb.bind (ihq htries.2 hq)

/-- A test that succeeds does so by questions that succeed. -/
theorem holds_of_run {p : Test} (h : p.run check = .ok true) :
    p.Holds fun s t => check s t = .ok true := by
  induction p with
  | answer b => exact Except.ok.inj h
  | ask s t => exact h
  | both p q ihp ihq =>
    obtain ⟨b, hb, h⟩ := bind_eq_ok.mp h
    cases b with
    | true => exact ⟨ihp hb, ihq h⟩
    | false => cases h
  | either p q ihp ihq =>
    obtain ⟨b, hb, h⟩ := bind_eq_ok.mp h
    cases b with
    | true => exact .inl (ihp hb)
    | false => exact .inr (ihq h)

end Test

/-- Whether both types are primitive and the first widens to the second. -/
def Ty.widensTo : Ty → Ty → Bool
  | .primitive p _, .primitive q _ => p.widensTo q
  | _, _ => false

namespace Table

variable (tbl : Table)

/-- Whether a type argument contains another. -/
def reduceArgument : Ty → Ty → Test
  | .wildcard _ upper lower _, a => .both (.ask a.orUpper upper) (.ask lower a.orLower)
  | t, a => .answer (t.isSameType a)

/-- Whether the arguments and the owner of the second parameterization contain those of the
first. -/
def reduceInvocation (args : List Ty) (owner : Option Ty) (args' : List Ty) (owner' : Option Ty) :
    Test :=
  if !args'.isEmpty && args.isEmpty then .answer false
  else
    .both (.all ((args'.zip args).map fun p => reduceArgument p.1 p.2))
      (match owner, owner' with
      | some s, some t => .ask s t
      | _, _ => .answer true)

/-- Whether a type is below another, by the form of the first. The type `r` is how the first
parameterizes the class of the second. -/
def reduceUpper (r : Option Ty) : Ty → Ty → Test
  | .var _ v _, t =>
    match tbl.upperBound v with
    | .ok u => .ask u t
    | .error _ => .answer false
  | .captured _ _ upper _ _, t => .ask upper t
  | .array s _, .array t _ =>
    if s.isPrimitive || t.isPrimitive then .answer (s.same t) else .ask s t
  | .array _ _, .declared c _ _ _ => .answer (tbl.isArraySupertype c)
  | .declared _ _ _ _, .declared _ args' owner' _ =>
    match r with
    | some (.declared _ args owner _) => reduceInvocation args owner args' owner'
    | _ => .answer false
  | _, _ => .answer false

/-- Whether a type is below another, if neither is an intersection. -/
def reduceSimple (r : Option Ty) (s t : Ty) : Test :=
  if s.same t then .answer true
  else if s.isPrimitive || t.isPrimitive then .answer (s.widensTo t)
  else if s.isNoType || t.isNoType then .answer false
  else if s.isNull || tbl.isObject t then .answer true
  else
    match t with
    | .captured token site upper lower marks =>
      .either (.ask s lower) (tbl.reduceUpper r s (.captured token site upper lower marks))
    | t => tbl.reduceUpper r s t

/-- The questions to which one step of the check reduces the question whether the first type is
below the second. -/
def reduce (r : Option Ty) (s t : Ty) : Test :=
  if s.isSameOccurrence t then .answer true
  else
    match s, t with
    | s, .intersection _ bounds => .all (bounds.map fun b => .ask s b)
    | .intersection _ bounds, t => .any (bounds.map fun b => .ask b t)
    | s, t => tbl.reduceSimple r s t

/-- The parameterization of the class of the second type that the way up from the first leads to, in
case both are uses of classes. -/
def ResolvesTo (s t : Ty) (r : Option Ty) : Prop :=
  ∀ c, s.kind = .declared → Ty.Uses c t → tbl.Resolves s c r

/-- A step of the check does what the test says, as soon as the budget suffices to go up. -/
def Reduces (s t : Ty) (p : Test) : Prop :=
  (∃ n, ∀ k ≥ n, ∀ check, tbl.checkStep k check .subtype s t = p.run (check .subtype)) ∧
    ∀ k check, tbl.checkStep k check .subtype s t = .error .exhausted ∨
      tbl.checkStep k check .subtype s t = p.run (check .subtype)

variable {tbl} {S : Shape} {s t : Ty} {r : Option Ty}

theorem reduce_meet {n} : tbl.reduce r s (.intersection n bounds) =
    if s.isSameOccurrence (.intersection n bounds) then .answer true
    else .all (bounds.map fun b => .ask s b) := by
  rfl

theorem reduce_member {n} (ht : t.kind ≠ .intersection) :
    tbl.reduce r (.intersection n bounds) t =
      if (Ty.intersection n bounds).isSameOccurrence t then .answer true
      else .any (bounds.map fun b => .ask b t) := by
  cases t <;> first | rfl | exact absurd rfl ht

theorem reduce_simple (hs : s.kind ≠ .intersection) (ht : t.kind ≠ .intersection) :
    tbl.reduce r s t =
      if s.isSameOccurrence t then .answer true else tbl.reduceSimple r s t := by
  unfold reduce
  split_ifs
  · rfl
  · split
    · exact absurd rfl ht
    · exact absurd rfl hs
    · rfl

theorem boundsOf_denoted {v ts} (h : tbl.boundsOf v = .ok ts) : ∀ b ∈ ts, b.Every tbl.Denoted := by
  rw [boundsOf] at h
  split at h
  · cases h
    exact forall_mem_singleton.mpr every_denoted_objectType
  · exact descriptors_denoted _ h

theorem ne_nil_of_boundsOf {v ts} (hts : tbl.boundsOf v = .ok ts) :
    ts ≠ [] := by
  rintro rfl
  rw [boundsOf] at hts
  split at hts
  · cases hts
  · next hne =>
    rw [descriptors_eq_mapM, mapM_eq_ok] at hts
    exact hne (length_eq_zero_iff.mp hts.length_eq)

/-- Every type variable has an upper bound, its only bound or the intersection of all. -/
theorem Obeys.exists_upperBound (h : tbl.Obeys S) (v : TypeVarId) :
    ∃ ts u, tbl.boundsOf v = .ok ts ∧ tbl.upperBound v = .ok u ∧ tbl.Within S u ∧
      (ts = [u] ∨ u = .intersection 0 ts) := by
  obtain ⟨ts, hts, hwithin, hsingle⟩ := h.bounds v
  match ts with
  | [] => exact absurd rfl (ne_nil_of_boundsOf hts)
  | [t] =>
    refine ⟨[t], t, hts, ?_, hwithin t mem_cons_self, .inl rfl⟩
    rw [upperBound, hts]
    rfl
  | t :: t' :: ts =>
    refine ⟨t :: t' :: ts, .intersection 0 (t :: t' :: ts), hts, ?_, ⟨rfl, ?_⟩, .inr rfl⟩
    · rw [upperBound, hts]
      rfl
    · have hlength : S.intersections = true := hsingle.resolve_right (by simp)
      exact .intro ⟨hlength, cons_ne_nil _ _, fun b hb => (hwithin b hb).1⟩
        fun b hb => (hwithin b hb).2

section Step

variable {k : Nat} (check : Relation → Ty → Ty → Result Bool)

theorem requireType_eq (h : t.isProper = true) : t.requireType = .ok () := by
  cases t <;> first | rfl | cases h

theorem checkStrict_eq (hs : s.isProper = true) (ht : t.isProper = true) :
    checkStrict check s t = check .subtype s t := by
  rw [checkStrict, requireType_eq hs, requireType_eq ht]
  rfl

theorem checkContains_eq (ht : tbl.Admits S t) (hs : tbl.Admits S s) :
    checkContains check t s = (reduceArgument t s).run (check .subtype) := by
  have hrequire {x : Ty} (hx : x.isArgument = true) : x.requireType = .ok () := by
    cases x <;> first | rfl | cases hx
  have hrequires (r : Result Bool) : (do t.requireType; s.requireType; r) = r := by
    rw [hrequire ht.1, hrequire hs.1]
    rfl
  by_cases hwildcard : t.isWildcard = true
  · obtain ⟨n, upper, lower, marks, rfl⟩ := Ty.exists_eq_wildcard hwildcard
    have hupper := checkStrict_eq check hs.orUpper.1 ht.orUpper.1
    have hlower := checkStrict_eq check ht.orLower.1 hs.orLower.1
    have hboth := congrArg₂ (fun p q : Result Bool => do if ← p then q else return false)
      hupper hlower
    cases s <;> exact hboth
  · unfold checkContains
    rw [hrequires]
    cases t <;> first | rfl | exact absurd rfl hwildcard

theorem checkParameterization_eq (hargs : ∀ a ∈ args, tbl.Admits S a)
    (hargs' : ∀ a ∈ args', tbl.Admits S a) :
    checkParameterization check .subtype args owner args' owner' =
      (reduceInvocation args owner args' owner').run (check .subtype) := by
  unfold checkParameterization reduceInvocation
  split_ifs with hraw
  · rfl
  · have hall : (args'.zip args).allM (fun p => checkContains check p.1 p.2) =
        (args'.zip args).allM fun p => (reduceArgument p.1 p.2).run (check .subtype) := by
      refine allM_congr fun p hp => checkContains_eq check (hargs' _ ?_) (hargs _ ?_)
      · exact (of_mem_zip hp).1
      · exact (of_mem_zip hp).2
    rw [Test.run, Test.run_all, hall]
    refine bind_congr fun b => ?_
    cases b with
    | false => rfl
    | true => cases owner <;> cases owner' <;> rfl

/-- Going up from a use of a class to the class of another, if the budget suffices. -/
theorem checkDeclared_eq (h : tbl.Obeys S) {c' marks'}
    (hs : tbl.Invokes S (.declared c args owner marks))
    (ht : tbl.Invokes S (.declared c' args' owner' marks'))
    (hr : tbl.Resolves (.declared c args owner marks) c' r)
    (hk : (tbl.resolveSupertype k (.declared c args owner marks) c' : Result (Option Ty)) = .ok r) :
    tbl.checkDeclared k check .subtype (.declared c args owner marks) c c' args' owner' =
      (tbl.reduceUpper r (.declared c args owner marks) (.declared c' args' owner' marks')).run
        (check .subtype) := by
  obtain ⟨b, hsub⟩ := isSubclassOf_isOk h.exists_rawSupertypes c c'
  rw [checkDeclared, hsub]
  cases b with
  | false =>
    cases hr.eq (resolves_none hsub)
    rfl
  | true =>
    rw [hk]
    cases r with
    | none => rfl
    | some x =>
      have hx := h.invokes_of_reaches hs (h.reaches_of_resolves hs.formed hr).1
      obtain ⟨d, ds, o, ms, rfl⟩ := Ty.exists_eq_declared hx.1
      exact checkParameterization_eq check (fun a ha => hx.admits ha) fun a ha => ht.admits ha

theorem checkPrimitive_eq (h : s.isPrimitive = true ∨ t.isPrimitive = true) :
    tbl.checkPrimitive check .subtype s t = .ok (s.widensTo t) := by
  cases s with
  | primitive => cases t <;> rfl
  | _ =>
    obtain ⟨q, marks, rfl⟩ := Ty.exists_eq_primitive (h.resolve_left Bool.false_ne_true)
    rfl

section Suffices

variable (h : tbl.Obeys S) (hs : tbl.Within S s) (ht : tbl.Within S t) (hr : tbl.ResolvesTo s t r)
  (hk : ∀ c, s.kind = .declared → Ty.Uses c t →
    (tbl.resolveSupertype k s c : Result (Option Ty)) = .ok r)
include h hs ht hr hk

/-- A type that is no intersection, by its form. -/
theorem checkUpper_eq :
    tbl.checkUpper k check .subtype s t = (tbl.reduceUpper r s t).run (check .subtype) := by
  cases s with
  | var n v marks =>
    obtain ⟨_, u, -, hu, -⟩ := h.exists_upperBound v
    rw [checkUpper, reduceUpper, hu]
    rfl
  | captured token site upper lower marks => rfl
  | array component marks =>
    rw [checkUpper]
    cases t with
    | array target marks' =>
      rw [checkArray, reduceUpper]
      split_ifs <;> rfl
    | declared c args owner marks' => rfl
    | _ => rfl
  | declared c args owner marks =>
    cases t with
    | declared c' args' owner' marks' =>
      exact checkDeclared_eq check h (hs.invokes rfl) (ht.invokes rfl)
        (hr c' rfl ⟨_, _, _, rfl⟩) (hk c' rfl ⟨_, _, _, rfl⟩)
    | _ => rfl
  | primitive | none | void | null | intersection => rfl
  | wildcard | union | executable | package => cases hs.1

theorem checkSimple_eq :
    tbl.checkSimple k check .subtype s t = (tbl.reduceSimple r s t).run (check .subtype) := by
  have hupper := checkUpper_eq check h hs ht hr hk
  unfold checkSimple reduceSimple
  rw [Ty.isWildcard_of_isProper hs.1]
  cases s.same t with
  | true => rfl
  | false =>
    cases hprimitive : s.isPrimitive || t.isPrimitive with
    | true => exact checkPrimitive_eq check (Bool.or_eq_true_iff.mp hprimitive)
    | false =>
      cases s.isNoType || t.isNoType with
      | true => rfl
      | false =>
        cases s.isNull || tbl.isObject t with
        | true => rfl
        | false =>
          cases t with
          | captured token site upper lower marks =>
            exact congrArg (fun q : Result Bool => do
              if ← check .subtype s lower then return true else q) hupper
          | wildcard => cases ht.1
          | _ => exact hupper

/-- If the budget suffices to go up, a step of the check does what the reduction says. -/
theorem checkStep_eq :
    tbl.checkStep k check .subtype s t = (tbl.reduce r s t).run (check .subtype) := by
  unfold checkStep reduce
  split_ifs with hsame
  · rfl
  · have hsimple := checkSimple_eq check h hs ht hr hk
    cases t with
    | intersection n bounds => exact (Test.run_all (fun b => .ask s b) bounds).symm
    | primitive | none | void | array | declared | var | captured | null =>
      cases s with
      | intersection n bounds => exact (Test.run_any (fun b => .ask b _) bounds).symm
      | primitive | none | void | array | declared | var | captured | null => exact hsimple
      | wildcard | union | executable | package => cases hs.1
    | wildcard | union | executable | package => cases ht.1

end Suffices

/-- If the budget does not suffice to go up, then the step is cut off, unless it is decided without
that. -/
theorem checkStep_cut (h : tbl.Obeys S) (hr : tbl.Resolves s c r) (hkind : s.kind = .declared)
    (hc : Ty.Uses c t)
    (hk : (tbl.resolveSupertype k s c : Result (Option Ty)) = .error .exhausted) :
    tbl.checkStep k check .subtype s t = .error .exhausted ∨
      tbl.checkStep k check .subtype s t = (tbl.reduce r s t).run (check .subtype) := by
  obtain ⟨c', args, owner, marks, rfl⟩ := Ty.exists_eq_declared hkind
  obtain ⟨args', owner', marks', rfl⟩ := hc
  have hstep : tbl.checkStep k check .subtype (.declared c' args owner marks)
      (.declared c args' owner' marks') = tbl.checkSimple k check .subtype
        (.declared c' args owner marks) (.declared c args' owner' marks') := rfl
  have hreduce : tbl.reduce r (.declared c' args owner marks) (.declared c args' owner' marks') =
      tbl.reduceSimple r (.declared c' args owner marks) (.declared c args' owner' marks') := rfl
  rw [hstep, hreduce]
  unfold checkSimple reduceSimple
  cases (Ty.declared c' args owner marks).same (.declared c args' owner' marks') with
  | true => exact .inr rfl
  | false =>
    cases (Ty.declared c' args owner marks).isNull ||
      tbl.isObject (.declared c args' owner' marks') with
    | true => exact .inr rfl
    | false =>
      change tbl.checkDeclared k check .subtype (.declared c' args owner marks) c' c args' owner' =
        _ ∨ tbl.checkDeclared k check .subtype (.declared c' args owner marks) c' c args' owner' = _
      obtain ⟨b, hsub⟩ := isSubclassOf_isOk h.exists_rawSupertypes c' c
      rw [checkDeclared, hsub]
      cases b with
      | false =>
        cases hr.eq (resolves_none hsub)
        exact .inr rfl
      | true =>
        rw [hk]
        exact .inl rfl

end Step

/-- In an orderly table a step of the check does what the reduction says. -/
theorem Obeys.reduces (h : tbl.Obeys S) (hs : tbl.Within S s) (ht : tbl.Within S t)
    (hr : tbl.ResolvesTo s t r) : tbl.Reduces s t (tbl.reduce r s t) := by
  by_cases hdeclared : s.kind = .declared ∧ ∃ c, Ty.Uses c t
  · obtain ⟨hkind, c, hc⟩ := hdeclared
    have hresolves := hr c hkind hc
    have heq {k : Nat} (check : Relation → Ty → Ty → Result Bool)
        (hk : (tbl.resolveSupertype k s c : Result (Option Ty)) = .ok r) :
        tbl.checkStep k check .subtype s t = (tbl.reduce r s t).run (check .subtype) := by
      refine checkStep_eq check h hs ht hr fun d _ hd => ?_
      cases hc.unique hd
      exact hk
    refine ⟨?_, fun k check => ?_⟩
    · obtain ⟨n, hn⟩ := hresolves.settles.1
      exact ⟨n, fun k hk check => heq check (hn k hk)⟩
    · rcases hresolves.settles.2 k with hk | hk
      · exact checkStep_cut check h hresolves hkind hc hk
      · exact .inr (heq check hk)
  · have heq (k : Nat) (check : Relation → Ty → Ty → Result Bool) :
        tbl.checkStep k check .subtype s t = (tbl.reduce r s t).run (check .subtype) :=
      checkStep_eq check h hs ht hr fun c hkind hc => absurd ⟨hkind, c, hc⟩ hdeclared
    exact ⟨⟨0, fun k _ check => heq k check⟩, fun k check => .inr (heq k check)⟩

/-! ### Answers of the check -/

namespace Reduces

variable {p : Test} (h : tbl.Reduces s t p)

include h

theorem yields {k}
    (hp : p.Asks fun s t => Yields (tbl.check k .subtype s t) fun _ => True) :
    Yields (tbl.check (k + 1) .subtype s t) fun _ => True := by
  rw [check]
  rcases h.2 k (tbl.check k) with hstep | hstep
  · exact .inl hstep
  · rw [hstep]
    exact Test.yields_run hp

theorem yields_true {k}
    (hp : p.Asks fun s t => Yields (tbl.check k .subtype s t) fun _ => True)
    (hholds : p.Holds fun s t => Yields (tbl.check k .subtype s t) (· = true)) :
    Yields (tbl.check (k + 1) .subtype s t) (· = true) := by
  rw [check]
  rcases h.2 k (tbl.check k) with hstep | hstep
  · exact .inl hstep
  · rw [hstep]
    exact Test.yields_run_true hp hholds

theorem settles_of_run {b}
    (hp : Settles (fun k => p.run (tbl.check k .subtype)) b) :
    Settles (fun k => tbl.check k .subtype s t) b := by
  obtain ⟨n, hn⟩ := h.1
  obtain ⟨m, hm⟩ := hp.1
  refine Settles.step (f := fun k => tbl.checkStep k (tbl.check k) .subtype s t)
    ⟨⟨max n m, fun k hk => ?_⟩, fun k => ?_⟩ rfl fun k => rfl
  · exact (hn k (Nat.le_trans (Nat.le_max_left n m) hk) (tbl.check k)).trans
      (hm k (Nat.le_trans (Nat.le_max_right n m) hk))
  · rcases h.2 k (tbl.check k) with hstep | hstep
    · exact .inl hstep
    · exact (hp.2 k).imp hstep.trans hstep.trans

theorem settles
    (hp : p.Asks fun s t => ∃ b, Settles (fun k => tbl.check k .subtype s t) b) :
    ∃ b, Settles (fun k => tbl.check k .subtype s t) b := by
  obtain ⟨b, hb⟩ := Test.settles_run hp
  exact ⟨b, h.settles_of_run hb⟩

theorem settles_true
    (htries : p.Tries fun s t => ∃ b, Settles (fun k => tbl.check k .subtype s t) b)
    (hp : p.Holds fun s t => Settles (fun k => tbl.check k .subtype s t) true) :
    Settles (fun k => tbl.check k .subtype s t) true :=
  h.settles_of_run (Test.settles_run_true htries hp)

theorem holds {k} (hk : tbl.check (k + 1) .subtype s t = .ok true) :
    p.Holds fun s t => tbl.check k .subtype s t = .ok true := by
  rcases h.2 k (tbl.check k) with hstep | hstep
  · cases hk.symm.trans hstep
  · exact Test.holds_of_run (hstep.symm.trans hk)

end Reduces

/-- The questions that the reduction may ask. -/
inductive Asked (tbl : Table) (r : Option Ty) : Ty → Ty → Ty → Ty → Prop
  | meet {s b n bounds} (hb : b ∈ bounds) : Asked tbl r s (.intersection n bounds) s b
  | member {b t n bounds} (hb : b ∈ bounds) : Asked tbl r (.intersection n bounds) t b t
  | lower {s upper lower token site marks} :
    Asked tbl r s (.captured token site upper lower marks) s lower
  | bound {u t n v marks} (hu : tbl.upperBound v = .ok u) : Asked tbl r (.var n v marks) t u t
  | upper {upper lower t token site marks} :
    Asked tbl r (.captured token site upper lower marks) t upper t
  | component {s t marks marks'} (hs : s.isPrimitive = false) (ht : t.isPrimitive = false) :
    Asked tbl r (.array s marks) (.array t marks') s t
  | argUpper {s upper lower a d c args args' owner owner' n ms marks' marks}
    (hr : r = some (.declared d args owner ms))
    (ha : (Ty.wildcard n upper lower marks, a) ∈ args'.zip args) :
    Asked tbl r s (.declared c args' owner' marks') a.orUpper upper
  | argLower {s upper lower a d c args args' owner owner' n ms marks' marks}
    (hr : r = some (.declared d args owner ms))
    (ha : (Ty.wildcard n upper lower marks, a) ∈ args'.zip args) :
    Asked tbl r s (.declared c args' owner' marks') lower a.orLower
  | owner {s o o' d c args args' ms marks'} (hr : r = some (.declared d args (some o) ms)) :
    Asked tbl r s (.declared c args' (some o') marks') o o'

theorem asks_reduceUpper (r : Option Ty) (s t : Ty) :
    (tbl.reduceUpper r s t).Asks (tbl.Asked r s t) := by
  unfold reduceUpper
  split
  · split
    · rename_i hu
      exact .bound hu
    · trivial
  · exact .upper
  · split_ifs with hprimitive
    · trivial
    · simp only [Bool.or_eq_true, not_or, Bool.not_eq_true] at hprimitive
      exact .component hprimitive.1 hprimitive.2
  · trivial
  · split
    · unfold reduceInvocation
      split_ifs
      · trivial
      · refine ⟨Test.asks_all fun p hp => ?_, ?_⟩
        · obtain ⟨⟨t, a⟩, hta, rfl⟩ := mem_map.mp hp
          unfold reduceArgument
          dsimp only
          split
          · exact ⟨.argUpper rfl hta, .argLower rfl hta⟩
          · trivial
        · split
          · exact .owner rfl
          · trivial
    · trivial
  · trivial

theorem tries_reduceUpper (r : Option Ty) (s t : Ty) (R : Ty → Ty → Prop) :
    (tbl.reduceUpper r s t).Tries R := by
  unfold reduceUpper
  split
  · split <;> trivial
  · trivial
  · split_ifs <;> trivial
  · trivial
  · split
    · unfold reduceInvocation
      split_ifs
      · trivial
      · refine ⟨Test.tries_all fun p hp => ?_, ?_⟩
        · obtain ⟨⟨t, a⟩, -, rfl⟩ := mem_map.mp hp
          unfold reduceArgument
          split
          · exact ⟨trivial, trivial⟩
          · trivial
        · split <;> trivial
    · trivial
  · trivial

theorem asks_reduce (r : Option Ty) (s t : Ty) : (tbl.reduce r s t).Asks (tbl.Asked r s t) := by
  unfold reduce
  split_ifs
  · trivial
  · split
    · refine Test.asks_all fun p hp => ?_
      obtain ⟨b, hb, rfl⟩ := mem_map.mp hp
      exact .meet hb
    · refine Test.asks_any fun p hp => ?_
      obtain ⟨b, hb, rfl⟩ := mem_map.mp hp
      exact .member hb
    · unfold reduceSimple
      split_ifs
      · trivial
      · trivial
      · trivial
      · trivial
      · split
        · exact ⟨.lower, asks_reduceUpper r _ _⟩
        · exact asks_reduceUpper r _ _

/-! ### Questions within a fragment -/

/-- What passes from uses of classes to their supertypes, the supertype has too that the check
finds. -/
theorem Obeys.exists_resolvesTo_of (h : tbl.Obeys S) {p : Ty → Prop}
    (hp : ∀ {t ts}, tbl.Invokes S t → p t → tbl.DirectSupers t ts → ∀ s ∈ ts, p s)
    (hs : tbl.Within S s) (hps : p s) (t : Ty) :
    ∃ r, tbl.ResolvesTo s t r ∧ ∀ x ∈ r, tbl.Invokes S x ∧ p x := by
  by_cases hdeclared : s.kind = .declared ∧ ∃ c, Ty.Uses c t
  · obtain ⟨hkind, c, hc⟩ := hdeclared
    obtain ⟨r, hr, hinvokes, -⟩ := h.exists_resolves hp (hs.invokes hkind) hps c
    refine ⟨r, fun d _ hd => ?_, fun x hx => ⟨(hinvokes x hx).1, (hinvokes x hx).2.1⟩⟩
    cases hc.unique hd
    exact hr
  · refine ⟨none, fun c hkind hc => absurd ⟨hkind, c, hc⟩ hdeclared, fun x hx => ?_⟩
    cases hx

/-- The layers of a supertype are those of the type or new ones. -/
theorem Obeys.exists_resolvesTo_every (h : tbl.Obeys S) {q : Ty → Prop}
    (hq : ∀ x : Ty, x.Fresh → q x) (hs : tbl.Within S s) (hsq : s.Every q) (t : Ty) :
    ∃ r, tbl.ResolvesTo s t r ∧ ∀ x ∈ r, tbl.Invokes S x ∧ x.Every q :=
  h.exists_resolvesTo_of (fun ht hx hts => h.every_of_supers hq ht.maps hx hts) hs hsq t

theorem Obeys.exists_resolvesTo (h : tbl.Obeys S) (hs : tbl.Within S s) (t : Ty) :
    ∃ r, tbl.ResolvesTo s t r ∧ ∀ x ∈ r, tbl.Invokes S x := by
  obtain ⟨r, hr, hinvokes⟩ := h.exists_resolvesTo_every (q := fun _ => True)
    (fun _ _ => trivial) hs (.of_forall (fun _ => trivial) s) t
  exact ⟨r, hr, fun x hx => (hinvokes x hx).1⟩

theorem Within.component {component} (h : tbl.Within S (.array component marks)) :
    tbl.Within S component :=
  ⟨h.2.top, h.2.component⟩

theorem Within.capturedUpper {token site upper lower}
    (h : tbl.Within S (.captured token site upper lower marks)) : tbl.Within S upper :=
  ⟨(Ty.isBound_iff.mp h.2.top.2.1).1, h.2.capturedUpper⟩

theorem Within.capturedLower {token site upper lower}
    (h : tbl.Within S (.captured token site upper lower marks)) : tbl.Within S lower :=
  ⟨(Ty.isBound_iff.mp h.2.top.2.2.1).1, h.2.capturedLower⟩

theorem Invokes.within_owner (h : tbl.Invokes S (.declared c args owner marks)) {o}
    (ho : o ∈ owner) : tbl.Within S o := by
  refine ⟨?_, h.2.2 o (mem_append_right _ (Option.mem_toList.mpr ho))⟩
  obtain ⟨_, _, _, _, rfl⟩ := Ty.exists_eq_declared (h.invokes_owner ho).1
  rfl

theorem Within.member {n} (h : tbl.Within S (.intersection n bounds)) {b} (hb : b ∈ bounds) :
    tbl.Within S b :=
  ⟨h.2.top.2.2 b hb, h.2.part hb⟩

/-- The questions about types of a fragment are questions about types of the fragment. -/
theorem Obeys.within_of_asked (h : tbl.Obeys S) (hs : tbl.Within S s) (ht : tbl.Within S t)
    (hr : ∀ x ∈ r, tbl.Invokes S x) {s' t'} (hasked : tbl.Asked r s t s' t') :
    tbl.Within S s' ∧ tbl.Within S t' := by
  cases hasked with
  | meet hb => exact ⟨hs, ht.member hb⟩
  | member hb => exact ⟨hs.member hb, ht⟩
  | lower => exact ⟨hs, ht.capturedLower⟩
  | bound hu =>
    obtain ⟨_, u, -, hu', hwithin, -⟩ := h.exists_upperBound _
    cases hu.symm.trans hu'
    exact ⟨hwithin, ht⟩
  | upper => exact ⟨hs.capturedUpper, ht⟩
  | component => exact ⟨hs.component, ht.component⟩
  | argUpper hd ha =>
    have ha := of_mem_zip ha
    exact ⟨((hr _ hd).admits ha.2).orUpper, ((ht.invokes rfl).admits ha.1).orUpper⟩
  | argLower hd ha =>
    have ha := of_mem_zip ha
    exact ⟨((ht.invokes rfl).admits ha.1).orLower, ((hr _ hd).admits ha.2).orLower⟩
  | owner hd => exact ⟨(hr _ hd).within_owner rfl, (ht.invokes rfl).within_owner rfl⟩

/-- The upper bound of a type variable is made of what expressions denote. -/
theorem every_denoted_upperBound {v u} (hu : tbl.upperBound v = .ok u) :
    u.Every tbl.Denoted := by
  obtain ⟨ts, hts, hu⟩ := bind_eq_ok.mp hu
  split at hu
  · cases hu
    exact boundsOf_denoted hts _ mem_cons_self
  · obtain ⟨rfl, hlength⟩ := makeIntersection_eq_ok hu
    exact .intro ⟨rfl, hlength⟩ (boundsOf_denoted hts)

/-- The layers of the types that are asked about are those of the given types or new ones. -/
theorem every_of_asked {q} (hq : ∀ x : Ty, x.Fresh → q x) (hs : s.Every q) (ht : t.Every q)
    (hr : ∀ x ∈ r, x.Every q) {s' t'} (hasked : tbl.Asked r s t s' t') :
    s'.Every q ∧ t'.Every q := by
  cases hasked with
  | meet hb => exact ⟨hs, ht.part hb⟩
  | member hb => exact ⟨hs.part hb, ht⟩
  | lower => exact ⟨hs, ht.capturedLower⟩
  | bound hu => exact ⟨(every_denoted_upperBound hu).mono fun x hx => hq x hx.fresh, ht⟩
  | upper => exact ⟨hs.capturedUpper, ht⟩
  | component => exact ⟨hs.component, ht.component⟩
  | argUpper hd ha =>
    have ha := of_mem_zip ha
    exact ⟨((hr _ hd).arg ha.2).orUpper, (ht.arg ha.1).upper⟩
  | argLower hd ha =>
    have ha := of_mem_zip ha
    exact ⟨(ht.arg ha.1).lower, ((hr _ hd).arg ha.2).orLower⟩
  | owner hd => exact ⟨(hr _ hd).owner rfl, ht.owner rfl⟩

/-- Within a fragment the check does not fail. -/
theorem Obeys.yields_check (h : tbl.Obeys S) (hs : tbl.Within S s) (ht : tbl.Within S t) (k : Nat) :
    Yields (tbl.check k .subtype s t) fun _ => True := by
  induction k generalizing s t with
  | zero => exact .exhausted
  | succ k ih =>
    obtain ⟨r, hr, hinvokes⟩ := h.exists_resolvesTo hs t
    refine (h.reduces hs ht hr).yields ((asks_reduce r s t).mono fun s' t' hasked => ?_)
    obtain ⟨hs', ht'⟩ := h.within_of_asked hs ht hinvokes hasked
    exact ih hs' ht'

/-! ### The check ends -/

/-- The second type variable is a bound of the first. -/
def IsBound (tbl : Table) (v w : TypeVarId) : Prop :=
  ∃ ts n marks, tbl.boundsOf v = .ok ts ∧ Ty.var n w marks ∈ ts

/-- The bounds of type variables do not go round in a circle. -/
def Grounded (tbl : Table) : Prop :=
  WellFounded fun w v => tbl.IsBound v w

/-- The second type is an upper bound of the first, or a member of it. -/
inductive Climbs (tbl : Table) : Ty → Ty → Prop
  | bound {u n v marks} (hu : tbl.upperBound v = .ok u) : Climbs tbl (.var n v marks) u
  | upper {upper lower token site marks} : Climbs tbl (.captured token site upper lower marks) upper
  | member {b n bounds} (hb : b ∈ bounds) : Climbs tbl (.intersection n bounds) b

/-- A bound of a type variable is a type variable, or has no upper bound itself. -/
theorem exists_eq_var_of_mem_boundsOf {v ts} (hts : tbl.boundsOf v = .ok ts) (ht : t ∈ ts) :
    (∃ n w marks, t = .var n w marks) ∨ ∀ s, ¬tbl.Climbs t s := by
  rw [boundsOf] at hts
  split at hts
  · cases hts
    rw [mem_singleton.mp ht]
    exact .inr fun s hs => by cases hs
  · rw [descriptors_eq_mapM, mapM_eq_ok] at hts
    obtain ⟨e, -, he⟩ := exists_of_forall₂_right hts ht
    cases describes_of_descriptor he with
    | var => exact .inl ⟨_, _, _, rfl⟩
    | _ => exact .inr fun s hs => by cases hs

/-- If bounds of type variables are not cyclic, then every way up through bounds ends. -/
theorem acc_climbs (hbounds : tbl.Grounded)
    (hupper : ∀ v, ∃ ts u, tbl.boundsOf v = .ok ts ∧ tbl.upperBound v = .ok u ∧
      (ts = [u] ∨ u = .intersection 0 ts)) (t : Ty) : Acc (fun s t => tbl.Climbs t s) t := by
  have hvar (v : TypeVarId) : ∀ n marks, Acc (fun s t => tbl.Climbs t s) (.var n v marks) := by
    induction v using hbounds.induction with
    | _ v ih =>
      intro n marks
      refine .intro _ fun u hu => ?_
      cases hu with
      | bound hu =>
        obtain ⟨ts, u', hts, hu', hform⟩ := hupper v
        cases hu.symm.trans hu'
        have hmem (t : Ty) (ht : t ∈ ts) : Acc (fun s t => tbl.Climbs t s) t := by
          rcases exists_eq_var_of_mem_boundsOf hts ht with ⟨m, w, ms, rfl⟩ | hnone
          · exact ih w ⟨ts, m, ms, hts, ht⟩ m ms
          · exact .intro _ fun s hs => absurd hs (hnone s)
        rcases hform with rfl | rfl
        · exact hmem u mem_cons_self
        · refine .intro _ fun b hb => ?_
          cases hb with
          | member hb => exact hmem b hb
  induction t using Ty.children_induction with
  | step t ih =>
    refine .intro _ fun s hs => ?_
    cases hs with
    | bound hu => exact (hvar _ 0 []).inv (.bound hu)
    | upper => exact ih _ mem_cons_self
    | member hb => exact ih _ hb

theorem within_null (S : Shape) : tbl.Within S .null :=
  ⟨rfl, .leaf (show tbl.Layer S .null from trivial) rfl⟩

/-- Whether the null type is below a type is decided at once, or member by member. -/
theorem Obeys.settles_check_null (h : tbl.Obeys S) (ht : tbl.Within S t) :
    ∃ b, Settles (fun k => tbl.check k .subtype .null t) b := by
  induction t using Ty.children_induction with
  | step t ih =>
    have hresolves : tbl.ResolvesTo .null t none := fun c hkind _ => nomatch hkind
    refine (h.reduces (within_null S) ht hresolves).settles ?_
    by_cases hmeet : t.kind = .intersection
    · obtain ⟨n, bounds, rfl⟩ := Ty.exists_eq_intersection hmeet
      refine Test.asks_all fun p hp => ?_
      obtain ⟨b, hb, rfl⟩ := mem_map.mp hp
      exact ih b hb (ht.member hb)
    · cases t <;> trivial

theorem Obeys.acc_climbs (h : tbl.Obeys S) (hbounds : tbl.Grounded)
    (t : Ty) : Acc (fun s t => tbl.Climbs t s) t := by
  refine Table.acc_climbs hbounds (fun v => ?_) t
  obtain ⟨ts, u, hts, hu, -, hform⟩ := h.exists_upperBound v
  exact ⟨ts, u, hts, hu, hform⟩

/-- Whether a type is below the null type is found out by going up through bounds. -/
theorem Obeys.settles_check_of_null (h : tbl.Obeys S)
    (hbounds : tbl.Grounded) (hs : tbl.Within S s) :
    ∃ b, Settles (fun k => tbl.check k .subtype s .null) b := by
  induction h.acc_climbs hbounds s with
  | intro s _ ih =>
    obtain ⟨r, hr, hinvokes⟩ := h.exists_resolvesTo hs .null
    refine (h.reduces hs (within_null S) hr).settles
      ((asks_reduce r s .null).mono fun s' t' hasked => ?_)
    have hs' := (h.within_of_asked hs (within_null S) hinvokes hasked).1
    cases hasked with
    | member hb => exact ih _ (.member hb) hs'
    | bound hu => exact ih _ (.bound hu) hs'
    | upper => exact ih _ .upper hs'

/-- Without lower bounds of wildcards and without cycles of bounds the check always ends. The
questions have smaller second types, or the same one and a first type that is nearer to the top. -/
theorem Obeys.settles_check (h : tbl.Obeys S) (hsupers : S.supers = false)
    (hbounds : tbl.Grounded) (hs : tbl.Within S s)
    (ht : tbl.Within S t) : ∃ b, Settles (fun k => tbl.check k .subtype s t) b := by
  induction hn : sizeOf t using Nat.strong_induction_on generalizing s t with
  | _ n ihsize =>
    subst hn
    induction h.acc_climbs hbounds s with
    | intro s _ ihclimb =>
      have hsmaller {s' t' : Ty} (hs' : tbl.Within S s') (ht' : tbl.Within S t')
          (hsize : sizeOf t' < sizeOf t) : ∃ b, Settles (fun k => tbl.check k .subtype s' t') b :=
        ihsize _ hsize hs' ht' rfl
      obtain ⟨r, hr, hinvokes⟩ := h.exists_resolvesTo hs t
      refine (h.reduces hs ht hr).settles ((asks_reduce r s t).mono fun s' t' hasked => ?_)
      obtain ⟨hs', ht'⟩ := h.within_of_asked hs ht hinvokes hasked
      cases hasked with
      | meet hb => exact hsmaller hs' ht' (Ty.sizeOf_lt_of_mem_children hb)
      | member hb => exact ihclimb _ (.member hb) hs'
      | lower => exact hsmaller hs' ht' (Ty.sizeOf_lt_of_mem_children (by simp [Ty.children]))
      | bound hu => exact ihclimb _ (.bound hu) hs'
      | upper => exact ihclimb _ .upper hs'
      | component => exact hsmaller hs' ht' (Ty.sizeOf_lt_of_mem_children mem_cons_self)
      | argUpper _ ha =>
        have harg := (of_mem_zip ha).1
        refine hsmaller hs' ht' (Nat.lt_trans (Ty.sizeOf_lt_of_mem_children ?_)
          (Ty.sizeOf_lt_of_mem_children (mem_append_left _ harg)))
        exact mem_cons_self
      | argLower _ ha =>
        have hlayer := ((ht.invokes rfl).admits (of_mem_zip ha).1).2.top
        have hnull : s' = .null :=
          hlayer.2.2.resolve_left fun hsuper => Bool.false_ne_true (hsupers.symm.trans hsuper)
        subst hnull
        exact h.settles_check_null ht'
      | owner =>
        exact hsmaller hs' ht' (Ty.sizeOf_lt_of_mem_children (by simp [Ty.children]))

end Table

end NominalTypes
