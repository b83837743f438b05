import NominalTypes.Proofs.Checking

/-!
# The subtype relation

The rules of strict subtyping, stated without a budget and without an order of search. One rule may
use others in its premises; `Table.SubStep R` is what follows by one rule from premises in `R`,
`Table.SubN n` nests at most `n` rules, and `Table.Sub` any number. What follows by the rules is
confirmed by the check as far as its budget goes (`Table.Sub.yields_check`), and there are two cases
in which the check certainly ends: without lower bounds of wildcards, and without intersections.
Conversely, what the check confirms follows by the rules, where occurrences are told apart properly.
-/

namespace NominalTypes

open List

variable {occurrences : Nat → TypeKind → Ty} {a b : Ty} {n : Nat} {bounds : List Ty}
  {captures : Nat → Ty}

/-- The fragment without lower bounds of wildcards. -/
def Shape.covariant (S : Shape) : Shape :=
  { S with supers := false }

/-- The fragment without intersections and lower bounds of captured variables. -/
def Shape.linear (S : Shape) : Shape :=
  { S with intersections := false, capturedSupers := false }

/-- Whether the type is a reference type other than an intersection. -/
def Ty.isSingle : Ty → Bool
  | array _ _ => true
  | declared _ _ _ _ => true
  | var _ _ _ => true
  | captured _ _ _ _ _ => true
  | null => true
  | _ => false

/-- The number of an occurrence belongs to one type. -/
def Ty.Recorded (occurrences : Nat → TypeKind → Ty) (t : Ty) : Prop :=
  t.occurrence ≠ 0 → t.bare = occurrences t.occurrence t.kind

theorem Ty.bare_eq_of_recorded {s t : Ty} (hs : s.Recorded occurrences)
    (ht : t.Recorded occurrences) (h : s.isSameOccurrence t = true) : s.bare = t.bare := by
  simp only [isSameOccurrence, Bool.and_eq_true, bne_iff_ne, beq_iff_eq] at h
  obtain ⟨⟨hne, hocc⟩, hkind⟩ := h
  rw [hs hne, ht (hocc ▸ hne), hocc, hkind]

namespace Table

variable (tbl : Table)

/-- The second type argument contains the first, where `R` compares bounds: it is the same type, or
a wildcard whose bounds lie around it. -/
inductive Contained (R : Ty → Ty → Prop) : Ty → Ty → Prop
  | same {a b : Ty} (hb : b.isWildcard = false) (h : a.bare = b.bare) : Contained R a b
  | between {a upper lower : Ty} {n marks} (hupper : R a.orUpper upper)
    (hlower : R lower a.orLower) : Contained R a (.wildcard n upper lower marks)

/-- The first type is below the second by a rule whose premises are in `R`. -/
inductive SubStep (R : Ty → Ty → Prop) : Ty → Ty → Prop
  | refl {s t : Ty} (h : s.bare = t.bare) : SubStep R s t
  | meet {s n bounds} (h : ∀ b ∈ bounds, R s b) : SubStep R s (.intersection n bounds)
  | member {b t n bounds} (hb : b ∈ bounds) (h : R b t) : SubStep R (.intersection n bounds) t
  | widens {s t : Ty} (h : s.widensTo t = true) : SubStep R s t
  | null {t : Ty} (ht : t.isSingle = true) : SubStep R .null t
  | root {s t : Ty} (hs : s.isSingle = true) (ht : tbl.isObject t = true) : SubStep R s t
  | bound {u t : Ty} {n} {v : TypeVarId} {marks} (ht : t.isSingle = true)
    (hu : tbl.upperBound v = .ok u) (h : R u t) : SubStep R (.var n v marks) t
  | upper {upper lower t : Ty} {token site marks} (ht : t.isSingle = true) (h : R upper t) :
    SubStep R (.captured token site upper lower marks) t
  | component {s t : Ty} {marks marks'} (hs : s.isPrimitive = false) (ht : t.isPrimitive = false)
    (h : R s t) : SubStep R (.array s marks) (.array t marks')
  | array {s c args owner marks marks'} (hc : tbl.isArraySupertype c = true) :
    SubStep R (.array s marks) (.declared c args owner marks')
  /-- The first type parameterizes the class of the second with arguments that are contained in its
  own. Only a raw type may have fewer arguments. -/
  | invocation {c c' args ds args' owner o owner' marks ms marks'}
    (hr : tbl.Resolves (.declared c args owner marks) c' (some (.declared c' ds o ms)))
    (hraw : args' = [] ∨ ds ≠ []) (hargs : ∀ b a, (b, a) ∈ args'.zip ds → Contained R a b)
    (howner : ∀ x ∈ o, ∀ y ∈ owner', R x y) :
    SubStep R (.declared c args owner marks) (.declared c' args' owner' marks')

/-- The first type is below the second by at most `n` nested rules. -/
def SubN : Nat → Ty → Ty → Prop
  | 0 => fun s t => s.bare = t.bare
  | n + 1 => tbl.SubStep (SubN n)

/-- The first type is below the second. -/
def Sub (s t : Ty) : Prop :=
  ∃ n, tbl.SubN n s t

variable {tbl} {S : Shape} {R R' : Ty → Ty → Prop} {s t : Ty}

theorem Contained.mono (h : Contained R a b) (hR : ∀ s t, R s t → R' s t) :
    Contained R' a b := by
  cases h with
  | same hb h => exact .same hb h
  | between hupper hlower => exact .between (hR _ _ hupper) (hR _ _ hlower)

theorem SubStep.mono (h : tbl.SubStep R s t) (hR : ∀ s t, R s t → R' s t) : tbl.SubStep R' s t := by
  cases h with
  | refl h => exact .refl h
  | meet h => exact .meet fun b hb => hR _ _ (h b hb)
  | member hb h => exact .member hb (hR _ _ h)
  | widens h => exact .widens h
  | null ht => exact .null ht
  | root hs ht => exact .root hs ht
  | bound ht hu h => exact .bound ht hu (hR _ _ h)
  | upper ht h => exact .upper ht (hR _ _ h)
  | component hs ht h => exact .component hs ht (hR _ _ h)
  | array hc => exact .array hc
  | invocation hr hraw hargs howner =>
    exact .invocation hr hraw (fun b a hba => (hargs b a hba).mono hR)
      fun x hx y hy => hR _ _ (howner x hx y hy)

theorem SubN.succ (h : tbl.SubN n s t) : tbl.SubN (n + 1) s t := by
  induction n generalizing s t with
  | zero => exact .refl h
  | succ n ih => exact SubStep.mono h fun _ _ => ih

theorem SubN.le {m} (h : tbl.SubN n s t) (hnm : n ≤ m) : tbl.SubN m s t := by
  induction hnm with
  | refl => exact h
  | step _ ih => exact ih.succ

theorem SubN.refl (h : s.bare = t.bare) : tbl.SubN n s t := by
  cases n with
  | zero => exact h
  | succ n => exact SubStep.refl h

theorem Sub.refl (h : s.bare = t.bare) : tbl.Sub s t :=
  ⟨0, h⟩

/-- Finitely many premises have a common depth. -/
theorem exists_forall_subN {ts : List Ty} (h : ∀ t ∈ ts, tbl.Sub s t) :
    ∃ n, ∀ t ∈ ts, tbl.SubN n s t := by
  induction ts with
  | nil => exact ⟨0, forall_mem_nil _⟩
  | cons x xs ih =>
    obtain ⟨n, hn⟩ := h x mem_cons_self
    obtain ⟨m, hm⟩ := ih fun y hy => h y (mem_cons_of_mem _ hy)
    refine ⟨max n m, forall_mem_cons.mpr ⟨hn.le (Nat.le_max_left n m), fun y hy => ?_⟩⟩
    exact (hm y hy).le (Nat.le_max_right n m)

theorem Contained.exists_subN (h : Contained tbl.Sub a b) :
    ∃ n, Contained (tbl.SubN n) a b := by
  cases h with
  | same hb hbare => exact ⟨0, .same hb hbare⟩
  | between hupper hlower =>
    obtain ⟨i, hi⟩ := hupper
    obtain ⟨j, hj⟩ := hlower
    exact ⟨max i j, .between (hi.le (Nat.le_max_left i j)) (hj.le (Nat.le_max_right i j))⟩

theorem exists_contained_subN {xs : List (Ty × Ty)}
    (h : ∀ b a, (b, a) ∈ xs → Contained tbl.Sub a b) :
    ∃ n, ∀ b a, (b, a) ∈ xs → Contained (tbl.SubN n) a b := by
  induction xs with
  | nil => exact ⟨0, fun b a hba => nomatch hba⟩
  | cons x xs ih =>
    obtain ⟨m, hm⟩ := ih fun b a hba => h b a (mem_cons_of_mem _ hba)
    obtain ⟨n, hn⟩ := (h x.1 x.2 mem_cons_self).exists_subN
    refine ⟨max n m, fun b a hba => ?_⟩
    rcases mem_cons.mp hba with rfl | hba
    · exact hn.mono fun _ _ h => h.le (Nat.le_max_left n m)
    · exact (hm b a hba).mono fun _ _ h => h.le (Nat.le_max_right n m)

theorem Sub.of_step (h : tbl.SubStep tbl.Sub s t) : tbl.Sub s t := by
  cases h with
  | refl h => exact .refl h
  | @meet _ m bounds h =>
    obtain ⟨n, hn⟩ := exists_forall_subN h
    exact ⟨n + 1, .meet hn⟩
  | member hb h => exact h.elim fun n hn => ⟨n + 1, .member hb hn⟩
  | widens h => exact ⟨1, .widens h⟩
  | null ht => exact ⟨1, .null ht⟩
  | root hs ht => exact ⟨1, .root hs ht⟩
  | bound ht hu h => exact h.elim fun n hn => ⟨n + 1, .bound ht hu hn⟩
  | upper ht h => exact h.elim fun n hn => ⟨n + 1, .upper ht hn⟩
  | component hs ht h => exact h.elim fun n hn => ⟨n + 1, .component hs ht hn⟩
  | array hc => exact ⟨1, .array hc⟩
  | @invocation c c' args ds args' owner o owner' marks ms marks' hr hraw hargs howner =>
    obtain ⟨n, hn⟩ := exists_contained_subN hargs
    have hm : ∃ m, ∀ x ∈ o, ∀ y ∈ owner', tbl.SubN m x y := by
      cases o with
      | none => exact ⟨0, fun x hx => nomatch hx⟩
      | some x =>
        cases owner' with
        | none => exact ⟨0, fun _ _ y hy => nomatch hy⟩
        | some y =>
          obtain ⟨m, hm⟩ := howner x rfl y rfl
          refine ⟨m, fun _ hx _ hy => ?_⟩
          cases hx
          cases hy
          exact hm
    obtain ⟨m, hm⟩ := hm
    refine ⟨max n m + 1, .invocation hr hraw (fun b a hba => ?_) fun x hx y hy => ?_⟩
    · exact (hn b a hba).mono fun _ _ h => h.le (Nat.le_max_left n m)
    · exact (hm x hx y hy).le (Nat.le_max_right n m)

theorem Sub.step (h : tbl.Sub s t) : tbl.SubStep tbl.Sub s t := by
  obtain ⟨n, h⟩ := h
  cases n with
  | zero => exact .refl h
  | succ n => exact SubStep.mono h fun _ _ h => ⟨n, h⟩

/-! ### Intersections -/

/-- What is below an intersection is below its members. -/
theorem Sub.of_meet {m} (h : tbl.Sub s (.intersection m bounds)) (hb : b ∈ bounds) :
    tbl.Sub s b := by
  have hrefl {s : Ty} (hbare : s.bare = (Ty.intersection m bounds).bare) : tbl.Sub s b := by
    obtain ⟨_, ss, rfl, hss⟩ := Ty.eq_intersection_of_bare_eq hbare
    obtain ⟨x, hx, hxb⟩ := Ty.exists_mem_of_map_bare_eq hss hb
    exact .of_step (.member hx (.refl hxb))
  obtain ⟨n, h⟩ := h
  induction n generalizing s with
  | zero => exact hrefl h
  | succ n ih =>
    cases h with
    | refl h => exact hrefl h
    | meet h => exact ⟨n, h b hb⟩
    | member hx h => exact .of_step (.member hx (ih h))
    | widens h => cases s <;> cases h
    | null ht | root _ ht | bound ht | upper ht => cases ht

/-- If an intersection is below a type that is none, then one of its members is. -/
theorem Sub.exists_member {m} (h : tbl.Sub (.intersection m bounds) t)
    (ht : t.kind ≠ .intersection) : ∃ b ∈ bounds, tbl.Sub b t := by
  cases h.step with
  | refl h =>
    obtain ⟨_, _, rfl, -⟩ := Ty.eq_intersection_of_bare_eq h.symm
    exact absurd rfl ht
  | meet => exact absurd rfl ht
  | member hb h => exact ⟨_, hb, h⟩
  | widens h | root h => cases h

/-! ### The check confirms what follows by the rules -/

variable {r : Option Ty}

theorem isSameType_eq_same (hb : b.isArgument = true) (hbw : b.isWildcard = false)
    (haw : a.isWildcard = false) : b.isSameType a = b.same a := by
  unfold Ty.isSameType
  rw [hbw, haw]
  cases b <;> first | rfl | cases hb

theorem Contained.holds_reduceArgument (h : Contained R a b) (hb : b.isArgument = true) :
    (reduceArgument b a).Holds R := by
  cases h with
  | same hbw h =>
    have haw : a.isWildcard = false := by
      rw [← Ty.isWildcard_bare, h, Ty.isWildcard_bare]
      exact hbw
    have hsame : b.isSameType a = true := by
      rw [isSameType_eq_same hb hbw haw]
      exact Ty.same_of_bare_eq h.symm
    cases b <;> first | exact hsame | cases hbw
  | between hupper hlower => exact ⟨hupper, hlower⟩

theorem isSingle_of_isObject (h : tbl.isObject t = true) : t.isSingle = true := by
  cases t <;> first | rfl | cases h

/-- Where two reference types do not decide the question at once, one looks at the form of the
first. -/
theorem holds_reduceSimple (hs : s.isSingle = true) (ht : t.isSingle = true)
    (h : s.same t = false → s.isNull = false → tbl.isObject t = false →
      (tbl.reduceUpper r s t).Holds R) : (tbl.reduceSimple r s t).Holds R := by
  have hplain {x : Ty} (hx : x.isSingle = true) : x.isPrimitive = false ∧ x.isNoType = false := by
    cases x <;> first | exact ⟨rfl, rfl⟩ | cases hx
  unfold reduceSimple
  rw [(hplain hs).1, (hplain hs).2, (hplain ht).1, (hplain ht).2]
  simp only [Bool.or_self, Bool.false_eq_true, if_false]
  split_ifs with hsame hcond
  · rfl
  · rfl
  · simp only [Bool.or_eq_true, not_or, Bool.not_eq_true] at hsame hcond
    have hupper := h hsame hcond.1 hcond.2
    split
    · exact .inr hupper
    · exact hupper

theorem holds_reduceInvocation {args args' owner owner'} (harg : ∀ a ∈ args', a.isArgument = true)
    (hraw : args' = [] ∨ args ≠ []) (hargs : ∀ b a, (b, a) ∈ args'.zip args → Contained R a b)
    (howner : ∀ x ∈ owner, ∀ y ∈ owner', R x y) :
    (reduceInvocation args owner args' owner').Holds R := by
  unfold reduceInvocation
  split_ifs with hfew
  · simp only [Bool.and_eq_true, Bool.not_eq_true', isEmpty_eq_false_iff, List.isEmpty_iff]
      at hfew
    rcases hraw with hnil | hnil
    · exact absurd hnil hfew.1
    · exact absurd hfew.2 hnil
  · refine ⟨Test.holds_all.mpr fun p hp => ?_, ?_⟩
    · obtain ⟨⟨b, a⟩, hba, rfl⟩ := mem_map.mp hp
      exact (hargs b a hba).holds_reduceArgument (harg b (of_mem_zip hba).1)
    · split
      · exact howner _ rfl _ rfl
      · rfl

/-- A rule for types that are no intersections answers the questions that the check asks. -/
theorem SubStep.holds_reduce (h : tbl.SubStep R s t) (hs : s.kind ≠ .intersection)
    (ht : tbl.Within S t) (htk : t.kind ≠ .intersection) (hr : tbl.ResolvesTo s t r) :
    (tbl.reduce r s t).Holds R := by
  rw [reduce_simple hs htk]
  split_ifs
  · rfl
  · cases h with
    | refl h =>
      unfold reduceSimple
      rw [Ty.same_of_bare_eq h]
      rfl
    | meet => exact absurd rfl htk
    | member => exact absurd rfl hs
    | widens h =>
      cases s with
      | primitive p marks =>
        unfold reduceSimple
        cases (Ty.primitive p marks).same t with
        | true => rfl
        | false => exact h
      | _ => cases h
    | null ht => exact holds_reduceSimple rfl ht fun _ hnull _ => nomatch hnull
    | root hs ht =>
      refine holds_reduceSimple hs (isSingle_of_isObject ht) fun _ _ hobject => ?_
      cases hobject.symm.trans ht
    | bound ht hu h =>
      refine holds_reduceSimple rfl ht fun _ _ _ => ?_
      rw [reduceUpper, hu]
      exact h
    | upper ht h => exact holds_reduceSimple rfl ht fun _ _ _ => h
    | component hsp htp h =>
      refine holds_reduceSimple rfl rfl fun _ _ _ => ?_
      rw [reduceUpper, hsp, htp]
      exact h
    | array hc => exact holds_reduceSimple rfl rfl fun _ _ _ => hc
    | invocation hresolves hraw hargs howner =>
      refine holds_reduceSimple rfl rfl fun _ _ _ => ?_
      cases (hr _ rfl ⟨_, _, _, rfl⟩).eq hresolves
      exact holds_reduceInvocation (fun a ha => ((ht.invokes rfl).admits ha).1) hraw hargs howner

/-- What follows by the rules answers the questions that the check asks. -/
theorem Sub.holds_reduce (h : tbl.Sub s t) (ht : tbl.Within S t)
    (hr : tbl.ResolvesTo s t r) : (tbl.reduce r s t).Holds tbl.Sub := by
  by_cases htk : t.kind = .intersection
  · obtain ⟨n, bounds, rfl⟩ := Ty.exists_eq_intersection htk
    rw [reduce_meet]
    split_ifs
    · rfl
    · refine Test.holds_all.mpr fun p hp => ?_
      obtain ⟨b, hb, rfl⟩ := mem_map.mp hp
      exact h.of_meet hb
  · by_cases hsk : s.kind = .intersection
    · obtain ⟨n, bounds, rfl⟩ := Ty.exists_eq_intersection hsk
      obtain ⟨b, hb, hbt⟩ := h.exists_member htk
      rw [reduce_member htk]
      split_ifs
      · rfl
      · exact Test.holds_any.mpr ⟨.ask b t, mem_map_of_mem hb, hbt⟩
    · exact h.step.holds_reduce hsk ht htk hr

/-- The check does not deny what follows by the rules. -/
theorem Sub.yields_check (h : tbl.Sub s t) (hobeys : tbl.Obeys S) (hs : tbl.Within S s)
    (ht : tbl.Within S t) (k : Nat) : Yields (tbl.check k .subtype s t) (· = true) := by
  induction k generalizing s t with
  | zero => exact .exhausted
  | succ k ih =>
    obtain ⟨r, hr, hinvokes⟩ := hobeys.exists_resolvesTo hs t
    have hwithin := (asks_reduce r s t).mono fun s' t' => hobeys.within_of_asked hs ht hinvokes
    refine (hobeys.reduces hs ht hr).yields_true
      (hwithin.mono fun s' t' hst => hobeys.yields_check hst.1 hst.2 k) ?_
    exact (h.holds_reduce ht hr).mono (hwithin.mono fun s' t' hst hsub => ih hsub hst.1 hst.2)

/-- Without lower bounds of wildcards the check confirms what follows by the rules. -/
theorem Sub.settles_check (h : tbl.Sub s t) (hobeys : tbl.Obeys S) (hsupers : S.supers = false)
    (hbounds : tbl.Grounded) (hs : tbl.Within S s)
    (ht : tbl.Within S t) : Settles (fun k => tbl.check k .subtype s t) true := by
  obtain ⟨b, hb⟩ := hobeys.settles_check hsupers hbounds hs ht
  cases hb.of_yields (h.yields_check hobeys hs ht)
  exact hb

theorem Within.kind_ne_intersection (h : tbl.Within S t)
    (hintersections : S.intersections = false) : t.kind ≠ .intersection := by
  intro hkind
  obtain ⟨n, bounds, rfl⟩ := Ty.exists_eq_intersection hkind
  exact Bool.false_ne_true (hintersections.symm.trans h.2.top.1)

/-- What follows by one rule is confirmed if the premises are, and if the lower bound of a captured
variable can be compared, which is tried first. Intersections would ask for more. -/
theorem SubStep.settles_check (h : tbl.SubStep R s t) (hobeys : tbl.Obeys S)
    (hs : tbl.Within S s) (ht : tbl.Within S t) (hkind : s.kind ≠ .intersection)
    (hkind' : t.kind ≠ .intersection)
    (hlower : ∀ token site upper lower marks, t = .captured token site upper lower marks →
      ∃ b, Settles (fun k => tbl.check k .subtype s lower) b)
    (hR : ∀ s t, R s t → tbl.Within S s → tbl.Within S t →
      Settles (fun k => tbl.check k .subtype s t) true) :
    Settles (fun k => tbl.check k .subtype s t) true := by
  obtain ⟨r, hr, hinvokes⟩ := hobeys.exists_resolvesTo hs t
  have hwithin := (asks_reduce r s t).mono fun s' t' => hobeys.within_of_asked hs ht hinvokes
  have hholds := h.holds_reduce hkind ht hkind' hr
  refine (hobeys.reduces hs ht hr).settles_true ?_
    (hholds.mono (hwithin.mono fun s' t' hst hsub => hR s' t' hsub hst.1 hst.2))
  rw [reduce_simple hkind hkind']
  split_ifs
  · trivial
  · unfold reduceSimple
    split_ifs
    · trivial
    · trivial
    · trivial
    · trivial
    · split
      · exact ⟨hlower _ _ _ _ _ rfl, tries_reduceUpper r _ _ _⟩
      · exact tries_reduceUpper r _ _ _

/-- Without intersections the check confirms what follows by the rules, if it ends for the lower
bounds of captured variables. -/
theorem SubN.settles_check (h : tbl.SubN n s t) (hobeys : tbl.Obeys S)
    (hintersections : S.intersections = false)
    (hlower : ∀ {s token site upper lower marks}, tbl.Within S s →
      tbl.Within S (.captured token site upper lower marks) →
      ∃ b, Settles (fun k => tbl.check k .subtype s lower) b) (hs : tbl.Within S s)
    (ht : tbl.Within S t) :
    Settles (fun k => tbl.check k .subtype s t) true := by
  have hkind {t : Ty} (ht : tbl.Within S t) : t.kind ≠ .intersection :=
    ht.kind_ne_intersection hintersections
  have hcaptured {s t : Ty} (hs : tbl.Within S s) (ht : tbl.Within S t) (token site : Nat)
      (upper lower : Ty) (marks : List ClassId) (heq : t = .captured token site upper lower marks) :
      ∃ b, Settles (fun k => tbl.check k .subtype s lower) b :=
    hlower hs (heq ▸ ht)
  induction n generalizing s t with
  | zero =>
    exact (SubStep.refl h : tbl.SubStep (fun _ _ => False) s t).settles_check hobeys hs
      ht (hkind hs) (hkind ht) (hcaptured hs ht) fun _ _ hfalse => hfalse.elim
  | succ n ih =>
    exact SubStep.settles_check h hobeys hs ht (hkind hs) (hkind ht) (hcaptured hs ht)
      fun s t h hs ht => ih h hs ht

/-- The types and the table are such that the check confirms what follows by the rules: there are no
lower bounds of wildcards, or there are no intersections and no lower bounds of captured
variables. -/
def Tame (tbl : Table) (S : Shape) (s t : Ty) : Prop :=
  (tbl.Grounded ∧ tbl.Obeys S.covariant ∧ tbl.Within S.covariant s ∧ tbl.Within S.covariant t) ∨
    ((S.captures = true → tbl.Grounded) ∧ tbl.Obeys S.linear ∧ tbl.Within S.linear s ∧
      tbl.Within S.linear t)

theorem Sub.settles_of_tame (h : tbl.Sub s t) (htame : tbl.Tame S s t) :
    Settles (fun k => tbl.check k .subtype s t) true := by
  rcases htame with ⟨hgrounded, hobeys, hs, ht⟩ | ⟨hgrounded, hobeys, hs, ht⟩
  · exact h.settles_check hobeys rfl hgrounded hs ht
  · obtain ⟨n, hn⟩ := h
    refine hn.settles_check hobeys rfl (fun hs hcaptured => ?_) hs ht
    obtain ⟨hcaptures, -, -, hlower⟩ := hcaptured.2.top
    cases hlower.resolve_left Bool.false_ne_true
    exact hobeys.settles_check_of_null (hgrounded hcaptures) hs

theorem isSubtype_eq_check (hs : tbl.Within S s) (ht : tbl.Within S t) (k : Nat) :
    tbl.isSubtype k s t = tbl.check k .subtype s t := by
  rw [isSubtype, requireType_eq hs.1, requireType_eq ht.1]
  rfl

/-! ### Bare forms -/

theorem isObject_bare (t : Ty) : tbl.isObject t.bare = tbl.isObject t := by
  cases t <;> rfl

theorem isObject_of_bare_eq (h : s.bare = t.bare) : tbl.isObject s = tbl.isObject t := by
  rw [← isObject_bare, h, isObject_bare]

theorem isSingle_of_bare_eq (h : s.bare = t.bare) : s.isSingle = t.isSingle := by
  have hkind := Ty.kind_eq_of_bare_eq h
  cases s <;> cases t <;> first | rfl | cases hkind

theorem widensTo_bare (s t : Ty) : s.bare.widensTo t.bare = s.widensTo t := by
  cases s with
  | primitive => cases t <;> rfl
  | _ => rfl

theorem widensTo_of_bare_eq {s' t' : Ty} (hs : s.bare = s'.bare) (ht : t.bare = t'.bare) :
    s.widensTo t = s'.widensTo t' := by
  rw [← widensTo_bare, hs, ht, widensTo_bare]

theorem exists_mem_zip_of_bare_eq {as as' bs bs' : List Ty} (ha : as.map Ty.bare = as'.map Ty.bare)
    (hb : bs.map Ty.bare = bs'.map Ty.bare) {b' a'} (h : (b', a') ∈ bs'.zip as') :
    ∃ b a, (b, a) ∈ bs.zip as ∧ b.bare = b'.bare ∧ a.bare = a'.bare := by
  have hmem : (b'.bare, a'.bare) ∈ (bs.zip as).map (Prod.map Ty.bare Ty.bare) := by
    rw [← zip_map, ha, hb, zip_map]
    exact mem_map_of_mem (f := Prod.map Ty.bare Ty.bare) h
  obtain ⟨⟨b, a⟩, hba, heq⟩ := mem_map.mp hmem
  obtain ⟨hb, ha⟩ := Prod.mk.inj heq
  exact ⟨b, a, hba, hb, ha⟩

theorem Contained.of_bare_eq {a' b' : Ty} (h : Contained R a b) (ha : a.bare = a'.bare)
    (hb : b.bare = b'.bare)
    (hupper : ∀ {n upper lower marks upper'}, b = .wildcard n upper lower marks →
      upper.bare = upper'.bare → R a.orUpper upper → R' a'.orUpper upper')
    (hlower : ∀ {n upper lower marks lower'}, b = .wildcard n upper lower marks →
      lower.bare = lower'.bare → R lower a.orLower → R' lower' a'.orLower) :
    Contained R' a' b' := by
  cases h with
  | same hbw h =>
    refine .same ?_ (ha.symm.trans (h.trans hb))
    rw [← Ty.isWildcard_bare, ← hb, Ty.isWildcard_bare]
    exact hbw
  | between hu hl =>
    obtain ⟨_, upper', lower', _, rfl, hu', hl'⟩ := Ty.eq_wildcard_of_bare_eq hb.symm
    exact .between (hupper rfl hu'.symm hu) (hlower rfl hl'.symm hl)

/-- The subtype relation respects bare forms. -/
theorem SubN.of_bare_eq (h : tbl.SubN n s t) (hobeys : tbl.Obeys S) (hs : tbl.Within S s)
    (ht : tbl.Within S t) {s' t' : Ty} (hs' : s.bare = s'.bare) (ht' : t.bare = t'.bare) :
    tbl.SubN n s' t' := by
  induction n generalizing s t s' t' with
  | zero => exact hs'.symm.trans (Eq.trans h ht')
  | succ n ih =>
    cases h with
    | refl h => exact .refl (hs'.symm.trans (h.trans ht'))
    | meet h =>
      obtain ⟨_, bounds', rfl, hbounds⟩ := Ty.eq_intersection_of_bare_eq ht'.symm
      refine .meet fun b' hb' => ?_
      obtain ⟨b, hb, hbb⟩ := Ty.exists_mem_of_map_bare_eq hbounds.symm hb'
      exact ih (h b hb) hs (ht.member hb) hs' hbb
    | member hb h =>
      obtain ⟨_, bounds', rfl, hbounds⟩ := Ty.eq_intersection_of_bare_eq hs'.symm
      obtain ⟨b', hb', hbb⟩ := Ty.exists_mem_of_map_bare_eq hbounds hb
      exact .member hb' (ih h (hs.member hb) ht hbb.symm ht')
    | widens h => exact .widens (widensTo_of_bare_eq hs' ht' ▸ h)
    | null hsingle =>
      cases Ty.eq_null_of_bare_eq hs'.symm
      exact .null (isSingle_of_bare_eq ht' ▸ hsingle)
    | root hsingle hobject =>
      exact .root (isSingle_of_bare_eq hs' ▸ hsingle) (isObject_of_bare_eq ht' ▸ hobject)
    | bound hsingle hu h =>
      obtain ⟨_, _, rfl⟩ := Ty.eq_var_of_bare_eq hs'.symm
      obtain ⟨_, _, -, hu', hwithin, -⟩ := hobeys.exists_upperBound _
      cases hu.symm.trans hu'
      exact .bound (isSingle_of_bare_eq ht' ▸ hsingle) hu (ih h hwithin ht rfl ht')
    | upper hsingle h =>
      obtain ⟨_, upper', _, _, rfl, hupper, -⟩ := Ty.eq_captured_of_bare_eq hs'.symm
      exact .upper (isSingle_of_bare_eq ht' ▸ hsingle) (ih h hs.capturedUpper ht hupper.symm ht')
    | component hsp htp h =>
      obtain ⟨x, _, rfl, hx⟩ := Ty.eq_array_of_bare_eq hs'.symm
      obtain ⟨y, _, rfl, hy⟩ := Ty.eq_array_of_bare_eq ht'.symm
      refine .component ?_ ?_ (ih h hs.component ht.component hx.symm hy.symm)
      · rwa [Ty.isPrimitive_of_kind_eq (Ty.kind_eq_of_bare_eq hx)]
      · rwa [Ty.isPrimitive_of_kind_eq (Ty.kind_eq_of_bare_eq hy)]
    | array hc =>
      obtain ⟨_, _, rfl, -⟩ := Ty.eq_array_of_bare_eq hs'.symm
      obtain ⟨_, _, _, rfl, -⟩ := Ty.eq_declared_of_bare_eq ht'.symm
      exact .array hc
    | invocation hr hraw hargs howner =>
      have hx := hobeys.invokes_of_reaches (hs.invokes rfl)
        (hobeys.reaches_of_resolves (hs.invokes rfl).formed hr).1
      obtain ⟨y, hy, hxy⟩ := hobeys.resolves_of_bare_eq hs' (hs.invokes rfl) hr
      obtain ⟨_, _, _, rfl, -⟩ := Ty.eq_declared_of_bare_eq hs'.symm
      obtain ⟨ds', o', _, rfl, hds, ho⟩ := Ty.eq_declared_of_bare_eq hxy.symm
      obtain ⟨args', owner', _, rfl, hargs', howner'⟩ := Ty.eq_declared_of_bare_eq ht'.symm
      refine .invocation hy ?_ (fun b' a' hba' => ?_) fun x' hx' y' hy' => ?_
      · rw [← map_eq_nil_iff (f := Ty.bare), hargs', map_eq_nil_iff, Ne,
          ← map_eq_nil_iff (f := Ty.bare) (l := ds'), hds, map_eq_nil_iff]
        exact hraw
      · obtain ⟨b, a, hba, hb, ha⟩ := exists_mem_zip_of_bare_eq hds.symm hargs'.symm hba'
        have hadmits := of_mem_zip hba
        have hbadmits := (ht.invokes rfl).admits hadmits.1
        have haadmits := hx.admits hadmits.2
        refine (hargs b a hba).of_bare_eq ha hb (fun hw hupper h => ?_) fun hw hlower h => ?_
        · subst hw
          exact ih h haadmits.orUpper hbadmits.orUpper
            (by rw [Ty.bare_orUpper, ha, Ty.bare_orUpper]) hupper
        · subst hw
          exact ih h hbadmits.orLower haadmits.orLower hlower
            (by rw [Ty.bare_orLower, ha, Ty.bare_orLower])
      · obtain ⟨x, hxo, hxx⟩ := Ty.exists_mem_of_owner_bare_eq ho.symm hx'
        obtain ⟨y, hyo, hyy⟩ := Ty.exists_mem_of_owner_bare_eq howner'.symm hy'
        exact ih (howner x hxo y hyo) (hx.within_owner hxo) ((ht.invokes rfl).within_owner hyo)
          hxx hyy

/-! ### What the check confirms follows by the rules -/

theorem tokened_of_fresh {x : Ty} (h : x.Fresh) : x.Tokened captures :=
  fun token site upper lower marks heq => absurd heq (h.2 token site upper lower marks)

/-- Where there are no captured variables, any tokens will do. -/
theorem tokened_of_layer (hcaptures : S.captures = false) (ht : t.Every (tbl.Layer S)) :
    t.Every (Ty.Tokened captures) := by
  refine ht.mono fun x hx token site upper lower marks heq => ?_
  subst heq
  exact absurd (hcaptures.symm.trans hx.1) Bool.false_ne_true

theorem Contained.of_holds_reduceArgument (h : (reduceArgument b a).Holds R)
    (hb : b.isArgument = true) (hsame : b.same a = true → b.bare = a.bare) : Contained R a b := by
  by_cases hbw : b.isWildcard = true
  · obtain ⟨n, upper, lower, marks, rfl⟩ := Ty.exists_eq_wildcard hbw
    exact .between h.1 h.2
  · have hbw := (Bool.not_eq_true _).mp hbw
    have hsametype : b.isSameType a = true := by
      cases b <;> first | exact h | cases hbw
    have haw : a.isWildcard = false := by
      unfold Ty.isSameType at hsametype
      simp only [Bool.and_eq_true, Bool.not_eq_true'] at hsametype
      exact hsametype.1.2
    rw [isSameType_eq_same hb hbw haw] at hsametype
    exact .same hbw (hsame hsametype).symm

theorem isSingle_of_isProper (h : t.isProper = true) (hk : t.kind ≠ .intersection)
    (hprimitive : t.isPrimitive = false) (hnotype : t.isNoType = false) : t.isSingle = true := by
  cases t with
  | array | declared | var | captured | null => rfl
  | primitive => cases hprimitive
  | none | void => cases hnotype
  | intersection => exact absurd rfl hk
  | wildcard | union | executable | package => cases h

section Rules

variable (hobeys : tbl.Obeys S) (hs : tbl.Within S s) (ht : tbl.Within S t)
  (hstoken : s.Every (Ty.Tokened captures)) (httoken : t.Every (Ty.Tokened captures))
  (hr : tbl.ResolvesTo s t r)
include hobeys hs ht hstoken httoken hr

/-- What answers the questions of the check by the form of the first type follows by a rule, as long
as captured variables are determined by their tokens. -/
theorem SubStep.of_holds_reduceUpper (h : (tbl.reduceUpper r s t).Holds R)
    (hsingle : t.isSingle = true) : tbl.SubStep R s t := by
  unfold reduceUpper at h
  split at h
  · split at h
    · rename_i hu
      exact .bound hsingle hu h
    · cases h
  · exact .upper hsingle h
  · split_ifs at h with hprimitive
    · have hbare := Ty.bare_eq_of_same h hstoken.component httoken.component
      refine .refl ?_
      rw [Ty.bare, Ty.bare, hbare]
    · simp only [Bool.or_eq_true, not_or, Bool.not_eq_true] at hprimitive
      exact .component hprimitive.1 hprimitive.2 h
  · exact .array h
  · split at h
    · rename_i d ds o ms
      have hresolves := hr _ rfl ⟨_, _, _, rfl⟩
      obtain ⟨_, hresolves', hprops, -⟩ := hobeys.exists_resolves
        (p := Ty.Every (Ty.Tokened captures))
        (fun ht hp hts => hobeys.every_of_supers (fun _ => tokened_of_fresh) ht.maps hp hts)
        (hs.invokes rfl) hstoken _
      obtain ⟨hx, hxtoken, huses⟩ := hprops _ (hresolves.eq hresolves').symm
      cases huses.unique ⟨_, _, _, rfl⟩
      unfold reduceInvocation at h
      split_ifs at h with hfew
      · cases h
      · refine .invocation hresolves ?_ (fun b a hba => ?_) fun x hx y hy => ?_
        · simp only [Bool.and_eq_true, Bool.not_eq_true', isEmpty_eq_false_iff,
            List.isEmpty_iff] at hfew
          exact (not_and_or.mp hfew).imp_left not_not.mp
        · have hadmits := of_mem_zip hba
          refine .of_holds_reduceArgument ?_ ((ht.invokes rfl).admits hadmits.1).1 fun hsame =>
            Ty.bare_eq_of_same hsame (httoken.arg hadmits.1) (hxtoken.arg hadmits.2)
          exact Test.holds_all.mp h.1 _ (mem_map_of_mem (f := fun p => reduceArgument p.1 p.2) hba)
        · cases hx
          cases hy
          exact h.2
    · cases h
  · cases h

/-- What answers the questions of the check follows by a rule, unless the second type is a captured
variable. -/
theorem SubStep.of_holds_reduce (h : (tbl.reduce r s t).Holds R)
    (hcaptured : ∀ token site upper lower marks, t ≠ .captured token site upper lower marks)
    (hocc : s.isSameOccurrence t = true → s.bare = t.bare) : tbl.SubStep R s t := by
  by_cases htk : t.kind = .intersection
  · obtain ⟨n, bounds, rfl⟩ := Ty.exists_eq_intersection htk
    rw [reduce_meet] at h
    split_ifs at h with hsame
    · exact .refl (hocc hsame)
    · exact .meet fun b hb => Test.holds_all.mp h _ (mem_map_of_mem hb)
  · by_cases hsk : s.kind = .intersection
    · obtain ⟨n, bounds, rfl⟩ := Ty.exists_eq_intersection hsk
      rw [reduce_member htk] at h
      split_ifs at h with hsame
      · exact .refl (hocc hsame)
      · obtain ⟨p, hp, hholds⟩ := Test.holds_any.mp h
        obtain ⟨b, hb, rfl⟩ := mem_map.mp hp
        exact .member hb hholds
    · rw [reduce_simple hsk htk] at h
      split_ifs at h with hsame
      · exact .refl (hocc hsame)
      · unfold reduceSimple at h
        split_ifs at h with hsame hprimitive hnotype hcond
        · exact .refl (Ty.bare_eq_of_same hsame hstoken httoken)
        · exact .widens h
        · cases h
        · simp only [Bool.or_eq_true, not_or, Bool.not_eq_true] at hprimitive hnotype hcond
          rcases hcond with hnull | hobject
          · have hsingle := isSingle_of_isProper ht.1 htk hprimitive.2 hnotype.2
            cases s <;> first | exact .null hsingle | cases hnull
          · exact .root (isSingle_of_isProper hs.1 hsk hprimitive.1 hnotype.1) hobject
        · simp only [Bool.or_eq_true, not_or, Bool.not_eq_true] at hprimitive hnotype
          have hsingle := isSingle_of_isProper ht.1 htk hprimitive.2 hnotype.2
          split at h
          · exact absurd rfl (hcaptured _ _ _ _ _)
          · exact .of_holds_reduceUpper hobeys hs ht hstoken httoken hr h hsingle

end Rules

/-- What the check confirms follows by the rules, if there are no captured variables and the same
number stands for the same occurrence. -/
theorem Obeys.subN_of_check (h : tbl.Obeys S) (hcaptures : S.captures = false) (hs : tbl.Within S s)
    (ht : tbl.Within S t) (hsocc : s.Every (Ty.Recorded occurrences))
    (htocc : t.Every (Ty.Recorded occurrences)) {k} (hk : tbl.check k .subtype s t = .ok true) :
    tbl.SubN k s t := by
  have hfresh (x : Ty) (hx : x.Fresh) : Ty.Recorded occurrences x := fun hne => absurd hx.1 hne
  induction k generalizing s t with
  | zero => cases hk
  | succ k ih =>
    obtain ⟨r, hr, hinvokes⟩ := h.exists_resolvesTo_every hfresh hs hsocc t
    have hasks := (asks_reduce r s t).mono fun s' t' hasked => And.intro
      (h.within_of_asked hs ht (fun x hx => (hinvokes x hx).1) hasked)
      (every_of_asked hfresh hsocc htocc (fun x hx => (hinvokes x hx).2) hasked)
    have hholds : (tbl.reduce r s t).Holds (tbl.SubN k) := ((h.reduces hs ht hr).holds hk).mono
      (hasks.mono fun s' t' hst hk => ih hst.1.1 hst.1.2 hst.2.1 hst.2.2 hk)
    have htokened {x : Ty} (hx : tbl.Within S x) : x.Every (Ty.Tokened fun _ => .null) :=
      tokened_of_layer hcaptures hx.2
    refine SubStep.of_holds_reduce h hs ht (htokened hs) (htokened ht) hr hholds ?_
      (Ty.bare_eq_of_recorded hsocc.top htocc.top)
    rintro token site upper lower marks rfl
    exact absurd (hcaptures.symm.trans ht.2.top.1) Bool.false_ne_true

end Table

end NominalTypes
