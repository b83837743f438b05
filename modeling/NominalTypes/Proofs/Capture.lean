import NominalTypes.Proofs.Reflexivity
import NominalTypes.Proofs.Supertypes
import NominalTypes.Ty.Capture

/-!
# Captured types and the types they come from

Capture conversion replaces a wildcard argument by a variable within the bounds of the wildcard. So
the captured type should be a subtype of the type that was captured: each wildcard should contain
its variable, which means that the variable is below the upper bound and above the lower bound.

Both comparisons take intersections apart before they look at the bounds of the variable. On the
upper side this does no harm: the variable is compared with the members of the bound one by one, and
each member finds its copy in the upper bound of the variable (`check_captured_ne_false`). On the
lower side it does: a member of the lower bound on the left is compared alone with the whole lower
bound, and need not be below it. So a type with an argument `? super A & B` is not above its
capture (`isSubtype_capture_lower_intersection`), and all types whose lower bounds are no
intersections are (`isSubtype_capture`).
-/

namespace NominalTypes

open List

variable {t : Ty} {check : Relation → Ty → Ty → Result Bool}

namespace Ty

/-! ### What a capture does -/

/-- What a capture with the given number puts in the place of an argument. -/
inductive Captures (site : Nat) : Ty → Ty → Prop
  | wildcard (n token : Nat) (upper lower : Ty) (marks : List ClassId) :
    Captures site (wildcard n upper lower marks) (captured token site upper lower marks)
  | other {t : Ty} (h : t.isWildcard = false) : Captures site t t

theorem captures_of_captureArguments (site token : Nat) (args : List Ty) :
    Forall₂ (Captures site) args (captureArguments site token args).1 := by
  induction args generalizing token with
  | nil => exact .nil
  | cons a args ih =>
    cases a with
    | wildcard n upper lower marks => exact .cons (.wildcard n token upper lower marks) (ih _)
    | _ => exact .cons (.other rfl) (ih token)

/-- A capture of a declared type replaces the wildcards among its arguments and nothing else. -/
theorem captures_of_capture {c args owner marks supply supply' u}
    (h : (declared c args owner marks).capture supply = .ok (u, supply')) :
    ∃ args', u = declared c args' owner marks ∧
      Forall₂ (Captures supply.site) args args' := by
  unfold capture at h
  by_cases hany : args.any isWildcard = true
  · simp only [hany, if_true] at h
    cases h
    exact ⟨_, rfl, captures_of_captureArguments _ _ args⟩
  · simp only [hany] at h
    cases h
    refine ⟨args, rfl, forall₂_same.mpr fun a ha => .other ?_⟩
    exact Bool.eq_false_iff.mpr fun ha' => hany (any_eq_true.mpr ⟨a, ha, ha'⟩)

/-- Reference types, and intersections of such types, nested in any way. -/
inductive Meet : Ty → Prop
  | single {t : Ty} (h : t.isReference = true) (hkind : t.kind ≠ .intersection) : Meet t
  | intersection {n bounds} (h : ∀ b ∈ bounds, Meet b) : Meet (intersection n bounds)

theorem atomic_of_isReference (h : t.isReference = true) (hkind : t.kind ≠ .intersection) :
    t.Atomic := by
  cases t <;> simp_all [Atomic, kind, isReference]

theorem Meet.tidy (h : Meet t) : Tidy t := by
  induction h with
  | single h hkind => exact .flat (.atomic (atomic_of_isReference h hkind))
  | intersection _ ih => exact .intersection ih

theorem Meet.isReference_of_constituent {s : Ty} (ht : Meet t) (hs : s.Constituent t) :
    s.isReference = true ∧ s.kind ≠ .intersection := by
  induction ht with
  | single h hkind =>
    cases (atomic_of_isReference h hkind).constituent hs
    exact ⟨h, hkind⟩
  | intersection _ ih =>
    obtain ⟨b, hb, hs⟩ := constituent_intersection.mp hs
    exact ih b hb hs

theorem Meet.isPseudo (h : Meet t) : t.isPseudo = false := by
  cases h with
  | single h _ => cases t <;> first | rfl | cases h
  | intersection _ => rfl

/-- An argument with which its capture is compared as expected. Of a wildcard, the upper bound is a
reference type or an intersection of such types, and the lower bound a reference type but no
intersection. -/
def Fitting : Ty → Prop
  | wildcard _ upper lower _ => Meet upper ∧ lower.isReference = true ∧ lower.kind ≠ .intersection
  | t => t.isPseudo = false

theorem Fitting.isPseudo (h : Fitting t) : t.isPseudo = false := by
  cases t with
  | wildcard => rfl
  | _ => exact h

theorem isSameType_self (h : t.isWildcard = false) : t.isSameType t = true := by
  have hmembers (ts : List Ty) : sameMembers ts ts = true := by
    simp only [sameMembers, isIn, Bool.and_self, all_eq_true, any_eq_true]
    exact fun s hs => ⟨s, hs, same_refl s⟩
  unfold isSameType
  rw [h]
  split
  · exact hmembers _
  · exact hmembers _
  · exact same_refl t

end Ty

namespace Table

variable {tbl : Table} {rel : Relation} {k token site : Nat} {upper lower b : Ty}
  {marks : List ClassId}

/-! ### The bounds of a captured variable -/

/-- The check of a captured variable against a type that is not taken apart. -/
theorem check_captured (hb : b.isReference = true) (hkind : b.kind ≠ .intersection) :
    tbl.check (k + 1) rel (.captured token site upper lower marks) b =
      if (Ty.captured token site upper lower marks).same b || tbl.isObject b then .ok true
      else checkLower (tbl.check k) rel (.captured token site upper lower marks) b >>=
        fun below => if below then .ok true else tbl.check k rel upper b := by
  have hatomic := Ty.atomic_of_isReference hb hkind
  rw [check_simple (by simp [Ty.kind]) ⟨hatomic.1, hatomic.2.1⟩
    (by simp [Ty.isSameOccurrence, Ty.occurrence])]
  cases b with
  | array | declared | var | captured | intersection | null =>
    simp only [checkSimple, checkUpper, Ty.isWildcard, Ty.isPrimitive, Ty.isNoType, Ty.isNull,
      Bool.not_false, Bool.true_and, Bool.or_self, Bool.false_or, Bool.false_eq_true, if_false]
    split <;> simp_all [pure, Except.pure]
  | _ => cases hb

/-- A captured variable is not refused by its upper bound, nor by a member of it. -/
theorem check_captured_ne_false (hb : b.Meet) (h : AmongBounds b upper) :
    tbl.check k rel (.captured token site upper lower marks) b ≠ .ok false := by
  induction k generalizing b with
  | zero => simp [check, throw, throwThe, MonadExceptOf.throw]
  | succ k ih =>
    cases hb with
    | @intersection n bounds hall =>
      rw [check_intersection]
      split
      · simp
      · exact allM_ne_false fun b hb => ih (hall b hb) (h.of_mem hb (hall b hb).tidy.kind_ne)
    | single hb hkind =>
      rw [check_captured hb hkind]
      split
      · simp
      · intro heq
        obtain ⟨below, -, heq⟩ := bind_eq_ok.mp heq
        cases below with
        | true => cases heq
        | false => exact check_ne_false_of_tidy (Ty.Meet.single hb hkind).tidy h heq

/-- The lower bound of a captured variable is below it, unless it is an intersection. -/
theorem check_lower_captured (hlower : lower.isReference = true)
    (hkind : lower.kind ≠ .intersection) :
    Settles (fun k => tbl.check k rel lower (.captured token site upper lower marks)) true := by
  have hatomic := Ty.atomic_of_isReference hlower hkind
  have hself : tbl.check 1 rel lower lower = .ok true :=
    check_atomic (k := 0) hatomic (Ty.same_refl lower)
  have hne : lower.isSameOccurrence (.captured token site upper lower marks) = false := by
    have hzero : (Ty.captured token site upper lower marks).occurrence = 0 := rfl
    rw [Ty.isSameOccurrence, hzero]
    cases lower.occurrence <;> simp
  refine settles_check_of_ok (n := 2) ?_
  rw [check_simple ⟨hatomic.1, hatomic.2.1⟩ (by simp [Ty.kind]) hne]
  cases lower with
  | array | declared | var | captured | intersection | null =>
    simp [checkSimple, checkLower, hself, Ty.isPrimitive, Ty.isNoType, Ty.isNull, bind, Except.bind,
      pure, Except.pure]
  | _ => cases hlower

/-- The comparisons that decide whether a captured variable is below the upper bound of its wildcard
have an answer: those of different members of the bound, and those of the variable with what lies
below members that are captured variables themselves. -/
def AnswersBelow (tbl : Table) (x upper : Ty) : Prop :=
  (∀ a b, a.Constituent upper → b.Constituent upper → a.same b = false →
    ∃ n v, tbl.check n .subtype a b = .ok v) ∧
  ∀ token site upper' lower' marks, (Ty.captured token site upper' lower' marks).Constituent upper →
    ∃ n v, tbl.check n .subtype x lower' = .ok v

theorem exists_settles_check_member {x} (hupper : upper.Meet) (h : AnswersBelow tbl x upper)
    (hb : b.Constituent upper) :
    ∃ v, Settles (fun k => tbl.check k .subtype upper b) v := by
  have hatomic := hupper.tidy.constituent hb
  refine exists_settles_check fun a b' ha hb' => ?_
  cases hatomic.constituent hb'
  cases hsame : a.same b with
  | true =>
    exact ⟨true, settles_check_of_ok (check_atomic (k := 0) (hupper.tidy.constituent ha) hsame)⟩
  | false =>
    obtain ⟨n, v, hv⟩ := h.1 a b ha hb hsame
    exact ⟨v, settles_check_of_ok hv⟩

/-- A captured variable is below the upper bound of its wildcard. -/
theorem settles_check_captured (hupper : upper.Meet)
    (h : AnswersBelow tbl (.captured token site upper lower marks) upper) :
    Settles (fun k => tbl.check k .subtype (.captured token site upper lower marks) upper)
      true := by
  have hanswer : ∃ v, Settles
      (fun k => tbl.check k .subtype (.captured token site upper lower marks) upper) v := by
    refine exists_settles_check fun a b ha hb => ?_
    have hself : (Ty.captured token site upper lower marks).Atomic := by simp [Ty.Atomic, Ty.kind]
    cases hself.constituent ha
    obtain ⟨hreference, hkind⟩ := hupper.isReference_of_constituent hb
    have hbelow : ∃ v, Settles (fun k =>
        checkLower (tbl.check k) .subtype (.captured token site upper lower marks) b) v := by
      cases b with
      | captured token' site' upper' lower' marks' =>
        obtain ⟨n, v, hv⟩ := h.2 _ _ _ _ _ hb
        exact ⟨v, settles_check_of_ok hv⟩
      | wildcard => cases hreference
      | _ => exact ⟨false, .ok false⟩
    obtain ⟨below, hbelow⟩ := hbelow
    obtain ⟨v, hv⟩ := exists_settles_check_member hupper h hb
    refine exists_settles_of_step ?_ fun k => check_captured hreference hkind
    cases below with
    | true => exact ⟨true, hbelow.bind (.ok true)⟩
    | false => exact ⟨v, hbelow.bind hv⟩
  obtain ⟨v, hv⟩ := hanswer
  cases v with
  | true => exact hv
  | false =>
    obtain ⟨n, hn⟩ := hv.1
    have halike := Ty.alike_of_same (Ty.same_refl upper) hupper.tidy.kind_ne
    exact absurd (hn n (Nat.le_refl n)) (check_captured_ne_false hupper (.alike halike))

/-! ### Captured arguments -/

theorem checkContains_captured {n} (hupper : upper.isPseudo = false)
    (hlower : lower.isPseudo = false) :
    checkContains check (.wildcard n upper lower marks) (.captured token site upper lower marks) =
      check .subtype (.captured token site upper lower marks) upper >>= fun below =>
        if below then check .subtype lower (.captured token site upper lower marks)
        else .ok false := by
  simp only [checkContains, checkStrict, Ty.requireType, hupper, hlower]
  rfl

theorem checkContains_self (h : t.isWildcard = false) (hpseudo : t.isPseudo = false) :
    checkContains check t t = .ok true := by
  have hsame := Ty.isSameType_self h
  cases t with
  | wildcard => cases h
  | executable => cases hpseudo
  | package => cases hpseudo
  | _ => simp only [checkContains, Ty.requireType, hsame]; rfl

theorem isPseudo_of_isReference (h : t.isReference = true) : t.isPseudo = false := by
  cases t <;> first | rfl | cases h

theorem checkContains_ne_false {a a'} (h : Ty.Captures site a a') (ha : a.Fitting) :
    checkContains (tbl.check k) a a' ≠ .ok false := by
  cases h with
  | wildcard n token upper lower marks =>
    obtain ⟨hupper, hlower, hkind⟩ := ha
    rw [checkContains_captured hupper.isPseudo (isPseudo_of_isReference hlower)]
    intro heq
    obtain ⟨below, hbelow, heq⟩ := bind_eq_ok.mp heq
    cases below with
    | true => cases (check_lower_captured hlower hkind).eq_of_ok heq
    | false =>
      have halike := Ty.alike_of_same (Ty.same_refl upper) hupper.tidy.kind_ne
      exact check_captured_ne_false hupper (.alike halike) hbelow
  | other hother =>
    rw [checkContains_self hother ha.isPseudo]
    simp

theorem settles_checkContains {a a'} (h : Ty.Captures site a a') (ha : a.Fitting)
    (hanswers : ∀ n upper lower marks, a = .wildcard n upper lower marks →
      AnswersBelow tbl a' upper) :
    Settles (fun k => checkContains (tbl.check k) a a') true := by
  cases h with
  | wildcard n token upper lower marks =>
    obtain ⟨hupper, hlower, hkind⟩ := ha
    simp only [checkContains_captured hupper.isPseudo (isPseudo_of_isReference hlower)]
    have hbelow := settles_check_captured hupper (hanswers _ _ _ _ rfl)
    exact hbelow.bind (g := fun below k =>
      if below then tbl.check k .subtype lower (.captured token site upper lower marks)
      else .ok false) (check_lower_captured hlower hkind)
  | other hother =>
    simp only [checkContains_self hother ha.isPseudo]
    exact .ok true

/-! ### Captured types -/

variable {c : ClassId} {args args' : List Ty} {owner : Option Ty}

/-- The check of a type against one with other arguments compares the arguments and the owners,
unless there is nothing to compare. -/
theorem check_invocation :
    tbl.check (k + 2) rel (.declared c args' owner marks) (.declared c args owner marks) =
      if (Ty.declared c args' owner marks).same (.declared c args owner marks) ||
        tbl.isObject (.declared c args owner marks) then .ok true
      else checkParameterization (tbl.check (k + 1)) rel args' owner args owner := by
  have hresolve : (tbl.resolveSupertype (k + 1) (.declared c args' owner marks) c :
      Result (Option Ty)) = .ok (some (.declared c args' owner marks)) := by
    rw [resolveSupertype_eq_climb, climb, ascend, if_pos rfl]
    rfl
  rw [check_simple (by simp [Ty.kind]) (by simp [Ty.kind])
    (by simp [Ty.isSameOccurrence, Ty.occurrence])]
  simp only [checkSimple, checkLower, checkUpper, checkDeclared, hresolve, isSubclassOf,
    Ty.isWildcard, Ty.isPrimitive, Ty.isNoType, Ty.isNull]
  by_cases hsame : (Ty.declared c args' owner marks).same (.declared c args owner marks) = true
  · simp [hsame, pure, Except.pure]
  · by_cases hobject : tbl.isObject (.declared c args owner marks) = true <;>
      simp [hsame, hobject, pure, Except.pure, bind, Except.bind]

/-- The arguments of an invocation and the owner, where the owners are the same. -/
theorem checkParameterization_owner (howner : ∀ o ∈ owner, o.Atomic)
    (hlength : args.length = args'.length) :
    checkParameterization (tbl.check (k + 1)) rel args' owner args owner =
      (args.zip args').allM fun (a, a') => checkContains (tbl.check (k + 1)) a a' := by
  have hempty : (!args.isEmpty && args'.isEmpty) = false := by
    cases args <;> cases args' <;> simp_all
  simp only [checkParameterization, hempty]
  refine (bind_congr fun b => ?_).trans (bind_pure _)
  cases b with
  | false => rfl
  | true =>
    cases owner with
    | none => rfl
    | some o => exact check_atomic (howner o rfl) (Ty.same_refl o)

theorem check_capture_ne_false (hargs : ∀ a ∈ args, a.Fitting) (howner : ∀ o ∈ owner, o.Atomic)
    (h : Forall₂ (Ty.Captures site) args args') :
    tbl.check k rel (.declared c args' owner marks) (.declared c args owner marks) ≠ .ok false := by
  -- With a smaller budget there is no other answer, so only the case of two steps or more is left.
  intro hfalse
  have hlarge := (cut_check (Nat.le_add_right k 2) rel _ _).eq_ok hfalse
  rw [check_invocation] at hlarge
  split at hlarge
  · cases hlarge
  · rw [checkParameterization_owner howner h.length_eq] at hlarge
    refine allM_ne_false (fun (a, a') haa' => ?_) hlarge
    exact checkContains_ne_false (forall₂_zip h haa') (hargs a (of_mem_zip haa').1)

theorem settles_check_capture (hargs : ∀ a ∈ args, a.Fitting) (howner : ∀ o ∈ owner, o.Atomic)
    (h : Forall₂ (Ty.Captures site) args args')
    (hanswers : ∀ n upper lower marks x, (Ty.wildcard n upper lower marks, x) ∈ args.zip args' →
      AnswersBelow tbl x upper) :
    Settles (fun k => tbl.check k .subtype (.declared c args' owner marks)
      (.declared c args owner marks)) true := by
  have hall : Settles (fun k => (args.zip args').allM fun (a, a') =>
      checkContains (tbl.check k) a a') true := by
    refine Settles.allM_true _ fun (a, a') haa' => ?_
    refine settles_checkContains (forall₂_zip h haa') (hargs a (of_mem_zip haa').1) ?_
    rintro n upper lower marks rfl
    exact hanswers n upper lower marks a' haa'
  obtain ⟨n, hn⟩ := hall.1
  refine settles_check_of_ok (n := n + 2) ?_
  rw [check_invocation]
  split
  · rfl
  · rw [checkParameterization_owner howner h.length_eq]
    exact hn _ (Nat.le_succ n)

theorem isSubtype_variable_ne_false {n x} (h : Ty.Captures site (.wildcard n upper lower marks) x)
    (hfitting : (Ty.wildcard n upper lower marks).Fitting) :
    tbl.isSubtype k x upper ≠ .ok false ∧ tbl.isSubtype k lower x ≠ .ok false := by
  obtain ⟨hupper, hlower, hkind⟩ := hfitting
  cases h with
  | other hother => cases hother
  | wildcard n token upper lower marks =>
    rw [isSubtype_eq_of_isPseudo rfl hupper.isPseudo,
      isSubtype_eq_of_isPseudo (isPseudo_of_isReference hlower) rfl]
    have halike := Ty.alike_of_same (Ty.same_refl upper) hupper.tidy.kind_ne
    refine ⟨check_captured_ne_false hupper (.alike halike), fun hfalse => ?_⟩
    cases (check_lower_captured hlower hkind).eq_of_ok hfalse

theorem exists_isSubtype_variable {n x} (h : Ty.Captures site (.wildcard n upper lower marks) x)
    (hfitting : (Ty.wildcard n upper lower marks).Fitting) (hanswers : AnswersBelow tbl x upper) :
    ∃ n, ∀ k ≥ n, tbl.isSubtype k x upper = .ok true ∧ tbl.isSubtype k lower x = .ok true := by
  obtain ⟨hupper, hlower, hkind⟩ := hfitting
  cases h with
  | other hother => cases hother
  | wildcard n token upper lower marks =>
    have hbelow : Settles (fun k => tbl.check k .subtype lower
        (.captured token site upper lower marks)) true := check_lower_captured hlower hkind
    obtain ⟨n₁, h₁⟩ := (settles_check_captured hupper hanswers).1
    obtain ⟨n₂, h₂⟩ := hbelow.1
    refine ⟨n₁ + n₂, fun k hk => ?_⟩
    rw [isSubtype_eq_of_isPseudo rfl hupper.isPseudo,
      isSubtype_eq_of_isPseudo (isPseudo_of_isReference hlower) rfl]
    exact ⟨h₁ k (by omega), h₂ k (by omega)⟩

/-- A captured type is a subtype of the type it was captured from, if lower bounds of wildcards are
no intersections. Equivalently, each of its variables is between the bounds of its wildcard. No
budget gives another answer, and there is an answer if there is one for the comparisons of the
members of upper bounds. -/
theorem isSubtype_capture (tbl : Table) {c : ClassId} {args args' : List Ty} {owner : Option Ty}
    {marks : List ClassId} {supply supply' : CaptureSupply} (hargs : ∀ a ∈ args, a.Fitting)
    (howner : ∀ o ∈ owner, o.Atomic)
    (h : (Ty.declared c args owner marks).capture supply =
      .ok (.declared c args' owner marks, supply')) :
    ((∀ k, tbl.isSubtype k (.declared c args' owner marks) (.declared c args owner marks) ≠
        .ok false) ∧
      ∀ n upper lower marks x, (Ty.wildcard n upper lower marks, x) ∈ args.zip args' →
        ∀ k, tbl.isSubtype k x upper ≠ .ok false ∧ tbl.isSubtype k lower x ≠ .ok false) ∧
    ((∀ n upper lower marks x, (Ty.wildcard n upper lower marks, x) ∈ args.zip args' →
        AnswersBelow tbl x upper) →
      (∃ n, ∀ k ≥ n, tbl.isSubtype k (.declared c args' owner marks)
        (.declared c args owner marks) = .ok true) ∧
      ∀ n upper lower marks x, (Ty.wildcard n upper lower marks, x) ∈ args.zip args' →
        ∃ n, ∀ k ≥ n, tbl.isSubtype k x upper = .ok true ∧ tbl.isSubtype k lower x = .ok true) := by
  obtain ⟨args'', heq, hcaptures⟩ := Ty.captures_of_capture h
  cases heq
  refine ⟨⟨fun k => ?_, fun n upper lower m x hx k => ?_⟩, fun hanswers =>
    ⟨?_, fun n upper lower m x hx => ?_⟩⟩
  · rw [isSubtype_eq_of_isPseudo rfl rfl]
    exact check_capture_ne_false hargs howner hcaptures
  · exact isSubtype_variable_ne_false (forall₂_zip hcaptures hx) (hargs _ (of_mem_zip hx).1)
  · have hsettles : Settles (fun k => tbl.check k .subtype (.declared c args' owner marks)
        (.declared c args owner marks)) true :=
      settles_check_capture hargs howner hcaptures hanswers
    obtain ⟨n, hn⟩ := hsettles.1
    refine ⟨n, fun k hk => ?_⟩
    rw [isSubtype_eq_of_isPseudo rfl rfl]
    exact hn k hk
  · exact exists_isSubtype_variable (forall₂_zip hcaptures hx)
      (hargs _ (of_mem_zip hx).1) (hanswers n upper lower m x hx)

set_option maxRecDepth 20000 in
/-- A type with arguments `? extends A & B` and `? super A`. -/
theorem isSubtype_capture_bounds :
    let tbl : Table := {
      classes := #[
        { name := "java.lang.Object", simpleName := "Object", kind := .cls },
        { name := "p.A", simpleName := "A", kind := .interface },
        { name := "p.B", simpleName := "B", kind := .interface },
        { name := "p.G", simpleName := "G", kind := .interface,
          typeParameters := [{ name := "T" }, { name := "U" }] }] }
    let a : Ty := .declared ⟨1⟩ [] none []
    let b : Ty := .declared ⟨2⟩ [] none []
    let meet : Ty := .intersection 0 [a, b]
    let t : Ty := .declared ⟨3⟩ [.wildcard 0 meet .null [], .wildcard 0 tbl.objectType a []] none []
    let u : Ty :=
      .declared ⟨3⟩ [.captured 1 1 meet .null [], .captured 2 1 tbl.objectType a []] none []
    t.capture {} = .ok (u, { token := 3, site := 2 }) ∧
      ∃ n, ∀ k ≥ n, tbl.isSubtype k u t = .ok true := by
  intro tbl a b meet t u
  have hcapture : t.capture {} = .ok (u, { token := 3, site := 2 }) := by rfl
  have hatomic (i : Nat) : (Ty.declared ⟨i⟩ [] none []).Atomic := by simp [Ty.Atomic, Ty.kind]
  have hsingle (i : Nat) : (Ty.declared ⟨i⟩ [] none []).Meet := .single rfl (by simp [Ty.kind])
  have hmeet : meet.Meet := .intersection (by simpa [a, b] using ⟨hsingle 1, hsingle 2⟩)
  have hconstituent (x : Ty) (hx : x.Constituent meet) : x = a ∨ x = b := by
    simp only [meet, Ty.constituent_intersection, mem_cons, not_mem_nil, or_false,
      exists_eq_or_imp, exists_eq_left] at hx
    exact hx.imp (hatomic 1).constituent (hatomic 2).constituent
  refine ⟨hcapture, ((isSubtype_capture tbl ?_ (by simp) hcapture).2 ?_).1⟩
  · simp only [forall_mem_cons]
    exact ⟨⟨hmeet, rfl, by simp [Ty.kind]⟩, ⟨hsingle 0, rfl, by simp [a, Ty.kind]⟩, by simp⟩
  · intro n upper lower marks x hx
    simp only [zip_cons_cons, zip_nil_right, mem_cons, Prod.mk.injEq,
      Ty.wildcard.injEq, not_mem_nil, or_false] at hx
    rcases hx with ⟨⟨-, rfl, rfl, rfl⟩, rfl⟩ | ⟨⟨-, rfl, rfl, rfl⟩, rfl⟩
    · refine ⟨fun x y hx hy _ => ?_, fun _ _ _ _ _ hx => ?_⟩
      · rcases hconstituent x hx with rfl | rfl <;> rcases hconstituent y hy with rfl | rfl <;>
          exact ⟨2, _, rfl⟩
      · rcases hconstituent _ hx with h | h <;> simp [a, b] at h
    · refine ⟨fun x y hx hy hne => ?_, fun _ _ _ _ _ hx => ?_⟩
      · cases (hatomic 0).constituent hx
        cases (hatomic 0).constituent hy
        cases hne
      · cases (hatomic 0).constituent hx

set_option maxRecDepth 20000 in
/-- A type with an argument `? super A & B` is not above its capture: neither `A` nor `B` alone is
below the lower bound of the variable. -/
theorem isSubtype_capture_lower_intersection :
    let tbl : Table := {
      classes := #[
        { name := "java.lang.Object", simpleName := "Object", kind := .cls },
        { name := "p.A", simpleName := "A", kind := .interface },
        { name := "p.B", simpleName := "B", kind := .interface },
        { name := "p.G", simpleName := "G", kind := .interface,
          typeParameters := [{ name := "T" }] }] }
    let meet : Ty := .intersection 1 [.declared ⟨1⟩ [] none [], .declared ⟨2⟩ [] none []]
    let t : Ty := .declared ⟨3⟩ [.wildcard 2 tbl.objectType meet []] none []
    let u : Ty := .declared ⟨3⟩ [.captured 1 1 tbl.objectType meet []] none []
    t.capture {} = .ok (u, { token := 2, site := 2 }) ∧
      ∀ k ≥ 7, tbl.isSubtype k u t = .ok false ∧
        tbl.isSubtype k meet (.captured 1 1 tbl.objectType meet []) = .ok false := by
  intro tbl meet t u
  refine ⟨by rfl, fun k hk => ?_⟩
  rw [isSubtype_eq_of_isPseudo rfl rfl, isSubtype_eq_of_isPseudo rfl rfl]
  exact ⟨(cut_check hk .subtype u t).eq_ok rfl, (cut_check hk .subtype meet _).eq_ok rfl⟩

end Table

end NominalTypes
