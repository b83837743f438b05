import NominalTypes.Proofs.Ancestry
import NominalTypes.Proofs.Reflexivity

/-!
# The classes of least upper bounds

The least upper bounds of two types are computed in three stages. The erased supertypes of the first
type are searched for those that the second one has as well. Of these the minimal ones are kept.
Each of them, if it is a use of a generic class, gets the arguments that the two types have in
common, for which least upper bounds are computed in turn.

The first two stages do not depend on the order of the two types, up to equality of what they find.
The third one changes the arguments of a bound, but not its class. So both orders give bounds of the
same classes, and the bounds whose classes have no type parameters are equal
(`Table.leastUpperBounds_comm`). The arguments are another matter: a least upper bound that is
needed while it is being computed is cut off with the root class, and where this happens depends on
the order in which the candidates are visited (`Table.leastUpperBounds_order_matters`).
-/

namespace NominalTypes

open List

variable {ts types : List Ty} {lub : List (List Ty) → List Ty → BoundsM Result (List Ty)}

/-! ### Computations with a state -/

/-- If the computation answers, then as `post` says, and the state it leaves is as the invariant
says. -/
def Keeps {σ α : Type} (I : σ → Prop) (x : StateT σ Result α) (post : α → Prop) : Prop :=
  ∀ s, I s → ∀ r, x.run s = .ok r → post r.1 ∧ I r.2

namespace Keeps

variable {σ α β : Type} {I : σ → Prop} {post : α → Prop} {x : StateT σ Result α}
  {f : α → StateT σ Result β}

theorem trivial (x : StateT σ Result α) : Keeps (fun _ => True) x fun _ => True :=
  fun _ _ _ _ => ⟨True.intro, True.intro⟩

theorem pure {a} (ha : post a) :
    Keeps I (Pure.pure a : StateT σ Result α) post := by
  intro s hs r hr
  cases hr
  exact ⟨ha, hs⟩

theorem lift (r : Result α) : Keeps I (liftM r : StateT σ Result α) fun a => r = .ok a := by
  intro s hs p hp
  obtain ⟨a, ha, hp⟩ := bind_eq_ok.mp hp
  cases hp
  exact ⟨ha, hs⟩

theorem bind {mid post} (hx : Keeps I x mid) (hf : ∀ a, mid a → Keeps I (f a) post) :
    Keeps I (x >>= f) post := by
  intro s hs r hr
  obtain ⟨p, hp, hr⟩ := bind_eq_ok.mp hr
  obtain ⟨hmid, hI⟩ := hx s hs p hp
  exact hf p.1 hmid p.2 hI r hr

theorem get : Keeps I (MonadState.get : StateT σ Result σ) I := by
  intro s hs r hr
  cases hr
  exact ⟨hs, hs⟩

theorem modify {f : σ → σ} (hf : ∀ s, I s → I (f s)) :
    Keeps I (modifyGet fun s => (PUnit.unit, f s) : StateT σ Result PUnit) fun _ => True := by
  intro s hs r hr
  cases hr
  exact ⟨True.intro, hf s hs⟩

theorem mono {mid} (hx : Keeps I x mid) (h : ∀ a, mid a → post a) : Keeps I x post :=
  fun s hs r hr => ⟨h r.1 (hx s hs r hr).1, (hx s hs r hr).2⟩

theorem mapM {R xs} (h : ∀ x ∈ xs, Keeps I (f x) (R x)) :
    Keeps I (xs.mapM f) (Forall₂ R xs) := by
  induction xs with
  | nil =>
    exact pure .nil
  | cons x xs ih =>
    rw [forall_mem_cons] at h
    rw [mapM_cons]
    exact bind h.1 fun y hy => bind (ih h.2) fun ys hys => pure (.cons hy hys)

end Keeps

namespace Ty

/-- A use of a class, a primitive type, or no type of values. -/
def Nominal (t : Ty) : Prop :=
  t.kind = .declared ∨ (t.isPrimitive || t.isNoType) = true

/-- A class without arguments and owner, a primitive type, or no type of values. -/
def Stripped (t : Ty) : Prop :=
  (∃ c marks, t = declared c [] .none marks) ∨ (t.isPrimitive || t.isNoType) = true

/-- The type without the annotations on it. -/
def unmarked : Ty → Ty
  | declared c args owner _ => declared c args owner []
  | primitive p _ => primitive p []
  | void _ => void []
  | t => t

theorem Stripped.nominal {t : Ty} (h : t.Stripped) : t.Nominal := by
  rcases h with ⟨c, marks, rfl⟩ | h
  · exact .inl rfl
  · exact .inr h

section Nominal

variable {s t : Ty}

theorem Nominal.isPseudo (h : t.Nominal) : t.isPseudo = false := by
  rcases h with h | h
  · cases t <;> first | rfl | cases h
  · cases t <;> first | rfl | cases h

theorem Nominal.atomic (h : t.Nominal) : t.Atomic := by
  rcases h with h | h
  · simp [Atomic, h]
  · cases t <;> first | simp [Atomic, kind]; done | cases h

theorem Nominal.of_same (hs : s.Nominal) (h : s.same t = true) : t.Nominal := by
  rcases hs with hs | hs
  · exact .inl ((kind_eq_of_same h).symm.trans hs)
  · cases s with
    | primitive p marks | none | void marks =>
      cases t with
      | primitive q marks' | none | void marks' => exact .inr rfl
      | _ => cases h
    | _ => cases hs

end Nominal

/-- Equal types of this form differ in their annotations only. -/
theorem Stripped.unmarked_eq {s t : Ty} (hs : s.Stripped) (h : s.same t = true) :
    t.Stripped ∧ s.unmarked = t.unmarked := by
  rcases hs with ⟨c, marks, rfl⟩ | hs
  · obtain ⟨args, owner, marks', rfl, hargs, howner⟩ := exists_eq_declared_of_same h
    cases args with
    | cons a args => cases hargs
    | nil =>
      cases owner with
      | some o => cases howner
      | none => exact ⟨.inl ⟨c, marks', rfl⟩, rfl⟩
  · cases s with
    | primitive p marks =>
      cases t with
      | primitive q marks' =>
        cases eq_of_beq (a := p) (b := q) h
        exact ⟨.inr rfl, rfl⟩
      | _ => cases h
    | none | void marks =>
      cases t with
      | none | void marks' => first | exact ⟨.inr rfl, rfl⟩ | cases h
      | _ => cases h
    | _ => cases hs

end Ty

namespace Table

variable {tbl : Table} {n : Nat} {s t : Ty} {c : ClassId}

/-! ### The class of a bound -/

/-- What is found in going up to a class is a use of the class. -/
theorem uses_of_climb {k r} (h : climb (tbl.ascend n c) k t = .ok (some r)) :
    Ty.Uses c r := by
  induction k generalizing t with
  | zero => cases h
  | succ k ih =>
    obtain ⟨a, ha, h⟩ := bind_eq_ok.mp h
    cases a with
    | above ts =>
      obtain ⟨s, -, hs⟩ := exists_of_firstFound h
      exact ih hs
    | arrived s =>
      cases h
      unfold ascend at ha
      split at ha
      · split at ha
        · rename_i hc
          cases ha
          exact ⟨_, _, _, by rw [hc]⟩
        · obtain ⟨below, -, ha⟩ := bind_eq_ok.mp ha
          cases below with
          | false => cases ha
          | true =>
            obtain ⟨ts, -, ha⟩ := bind_eq_ok.mp ha
            cases ha
      · split at ha
        · cases ha
          exact ⟨_, _, _, rfl⟩
        · cases ha
      · obtain ⟨ts, -, ha⟩ := bind_eq_ok.mp ha
        cases ha

section Step

variable {active : List (List Ty)}

theorem keeps_containingInvocation_uses (hs : Ty.Uses c s) :
    Keeps (fun _ => True) (tbl.containingInvocation n lub active s t) (Ty.Uses c) := by
  obtain ⟨args, owner, marks, rfl⟩ := hs
  cases t with
  | declared c' args' owner' marks' =>
    have hrest (owner : Option Ty) : Keeps (fun _ => True)
        (pairArguments (tbl.containingArgument n lub active) args args' >>= fun args =>
          liftM (tbl.makeDeclared c args owner [])) (Ty.Uses c) := by
      refine (Keeps.trivial _).bind fun args _ => (Keeps.lift _).mono fun r hr => ?_
      exact ⟨args, owner, [], (makeDeclared_eq_ok hr).1⟩
    rw [containingInvocation.eq_def]
    dsimp only
    split
    · refine (Keeps.trivial _).bind fun b _ => ?_
      split
      · exact (Keeps.trivial _).bind fun o _ => hrest o
      · refine (Keeps.trivial _).bind fun b _ => ?_
        split
        · exact (Keeps.trivial _).bind fun o _ => hrest o
        · exact (Keeps.trivial _).bind fun o _ => hrest o
    · exact (Keeps.trivial _).bind fun o _ => hrest o
  | _ => exact .pure ⟨_, _, _, rfl⟩

theorem keeps_commonInvocation_uses {found} (hfound : ∀ s ∈ found, Ty.Uses c s) (types : List Ty) :
    Keeps (fun _ => True) (tbl.commonInvocation n lub active c found types)
      fun r => ∀ s ∈ r, Ty.Uses c s := by
  induction types generalizing found with
  | nil => exact .pure hfound
  | cons t types ih =>
    rw [commonInvocation, resolveSupertype_stateT]
    refine (Keeps.lift _).bind fun next hnext => ?_
    split
    · rename_i d args owner marks
      have huses : Ty.Uses c (.declared d args owner marks) := by
        rw [resolveSupertype_eq_climb] at hnext
        exact uses_of_climb hnext
      split
      · exact .pure (by simp)
      · cases found with
        | none => exact ih (by simpa using huses)
        | some s =>
          refine (keeps_containingInvocation_uses (hfound s rfl)).bind fun r hr => ?_
          exact ih (by simpa using hr)
    · exact .pure (by simp)

/-- A bound has the class of the candidate that it is made from, and is the candidate itself unless
that is a use of a generic class. -/
def Fills (tbl : Table) (candidate bound : Ty) : Prop :=
  bound = candidate ∨
    ∃ c, (tbl.cls c).typeParameters ≠ [] ∧ Ty.Uses c candidate ∧ Ty.Uses c bound

theorem keeps_parameterize_fills (types : List Ty) (candidate : Ty) :
    Keeps (fun _ => True) (tbl.parameterize n lub active types candidate)
      (tbl.Fills candidate) := by
  unfold parameterize
  split
  · rename_i c args owner marks
    split
    · exact .pure (.inl rfl)
    · rename_i hgeneric
      refine (keeps_commonInvocation_uses (c := c) (by simp) types).bind fun r hr => .pure ?_
      cases r with
      | none => exact .inl rfl
      | some s =>
        refine .inr ⟨c, by simpa using hgeneric, ⟨args, owner, marks, rfl⟩, hr s rfl⟩
  · exact .pure (.inl rfl)

end Step

/-! ### Erased supertypes -/

theorem stripped_of_eraseWith {lub : List Ty → Result (List Ty)} (hs : s.Nominal)
    (h : tbl.eraseWith lub n s = .ok t) : t.Stripped := by
  cases n with
  | zero => cases h
  | succ n =>
    rcases hs with hs | hs
    · obtain ⟨c, args, owner, marks, rfl⟩ := Ty.exists_eq_declared hs
      cases (eraseWith_declared ..).symm.trans h
      exact .inl ⟨c, marks, rfl⟩
    · cases s with
      | primitive p marks | none | void marks =>
        cases h
        exact .inr rfl
      | _ => cases hs

/-- What a class inherits, if its supertype expressions name classes. -/
theorem nominal_of_declaredSupertypes {ds} (hds : tbl.rawSupertypes c = .ok ds) {args owner}
    (h : tbl.declaredSupertypes n c args owner = .ok ts) :
    ∀ t ∈ ts, t.Nominal := by
  unfold declaredSupertypes at h
  split at h
  · cases h
    split
    · simp
    · simp [Ty.Nominal, objectType, Ty.kind]
  · obtain ⟨ps, hps, h⟩ := bind_eq_ok.mp h
    have hnominal (p : Ty) (hp : p ∈ ps) : p.Nominal := by
      rw [descriptors_eq_mapM] at hps
      obtain ⟨e, he, hpe⟩ := exists_of_forall₂_right (mapM_eq_ok.mp hps) hp
      obtain ⟨d, -, hd⟩ := exists_of_forall₂_left (mapM_eq_ok.mp hds) he
      exact kind_of_rawClass hd hpe
    intro t ht
    split at h
    · obtain ⟨p, hp, hpt⟩ := exists_of_forall₂_right (mapM_eq_ok.mp h) ht
      exact (stripped_of_eraseWith (hnominal p hp) hpt).nominal
    · obtain ⟨m, -, h⟩ := bind_eq_ok.mp h
      obtain ⟨p, hp, hpt⟩ := exists_of_forall₂_right (mapM_eq_ok.mp h) ht
      rcases hnominal p hp with hkind | hp'
      · obtain ⟨d, hd⟩ := Ty.exists_uses hkind
        obtain ⟨_, _, _, rfl⟩ := uses_of_substitute hd hpt
        exact .inl rfl
      · rw [substitute_eq_self hp'] at hpt
        cases hpt
        exact .inr hp'

theorem nominal_of_typesAboveWith {lub : List Ty → Result (List Ty)}
    (hnames : ∀ c, ∃ ds, tbl.rawSupertypes c = .ok ds) (ht : t.Nominal)
    (h : tbl.typesAboveWith lub n t = .ok ts) : ∀ s ∈ ts, s.Nominal := by
  rcases ht with ht | ht
  · obtain ⟨c, args, owner, marks, rfl⟩ := Ty.exists_eq_declared ht
    obtain ⟨ds, hds⟩ := hnames c
    exact nominal_of_declaredSupertypes hds h
  · cases t with
    | primitive p marks =>
      cases h
      intro s hs
      obtain ⟨q, -, rfl⟩ := mem_map.mp hs
      exact .inr rfl
    | none | void marks =>
      cases h
      simp
    | _ => cases ht

/-- The erased supertypes are the erasures of what is found by going up. -/
theorem exists_of_erasedSupertypes {q : Ty → Prop}
    (hq : ∀ x xs, q x → tbl.typesAboveWith (leastUpperBoundsWith lub) n x = .ok xs → ∀ y ∈ xs, q y)
    (ht : q t) (h : tbl.erasedSupertypes n lub t = .ok ts) {e} (he : e ∈ ts) :
    ∃ x, q x ∧ tbl.eraseWith (leastUpperBoundsWith lub) n x = .ok e := by
  obtain ⟨ancestors, hancestors, h⟩ := bind_eq_ok.mp h
  obtain ⟨erased, herased, h⟩ := bind_eq_ok.mp h
  cases h
  obtain ⟨above, habove, hexpand⟩ := bind_eq_ok.mp hancestors
  simp only [← directSupertypesWith_eq_typesAboveWith] at hq
  obtain ⟨x, hx, hxe⟩ := exists_of_forall₂_right (mapM_eq_ok.mp herased) (mem_of_mem_distinct he)
  exact ⟨x, forall_of_expandSupertypes hq hexpand (hq t above ht habove)
    (forall_mem_singleton.mpr ht) x hx, hxe⟩

/-- The erased supertypes of a use of a class, if supertype expressions name classes. -/
theorem stripped_of_erasedSupertypes (hnames : ∀ c, ∃ ds, tbl.rawSupertypes c = .ok ds)
    (ht : t.Nominal) (h : tbl.erasedSupertypes n lub t = .ok ts) : ∀ s ∈ ts, s.Stripped := by
  intro s hs
  obtain ⟨x, hx, hxs⟩ :=
    exists_of_erasedSupertypes (fun _ _ => nominal_of_typesAboveWith hnames) ht h hs
  exact stripped_of_eraseWith hx hxs

/-! ### Minimal types -/

theorem check_unmarked_declared (c c' : ClassId) (marks marks' : List ClassId) :
    tbl.check (n + 1) .subtype (.declared c [] none marks) (.declared c' [] none marks') =
      tbl.check (n + 1) .subtype (.declared c [] none []) (.declared c' [] none []) := by
  by_cases hc : c = c'
  · subst hc
    have hatomic (marks : List ClassId) : (Ty.declared c [] none marks).Atomic := by
      simp [Ty.Atomic, Ty.kind]
    rw [check_atomic (hatomic marks) (by simp [Ty.same, Ty.sameAll, Ty.sameOwner]),
      check_atomic (hatomic []) (Ty.same_refl _)]
  · have hclimb : climb (tbl.ascend n c') n (.declared c [] none marks) =
        climb (tbl.ascend n c') n (.declared c [] none []) := by
      cases n with
      | zero => rfl
      | succ n => simp only [climb, ascend, if_neg hc]
    have hdeclared :
        tbl.checkDeclared n (tbl.check n) .subtype (.declared c [] none marks) c c' [] none =
          tbl.checkDeclared n (tbl.check n) .subtype (.declared c [] none []) c c' [] none := by
      unfold checkDeclared
      rw [resolveSupertype_eq_climb, resolveSupertype_eq_climb, hclimb]
    have hstep (marks marks' : List ClassId) :
        tbl.check (n + 1) .subtype (.declared c [] none marks) (.declared c' [] none marks') =
          if tbl.isObject (.declared c' [] none marks') then .ok true
          else tbl.checkDeclared n (tbl.check n) .subtype (.declared c [] none marks) c
            c' [] none := by
      change tbl.checkSimple n (tbl.check n) .subtype _ _ = _
      unfold checkSimple
      rw [show (Ty.declared c [] none marks).same (.declared c' [] none marks') = false by
        simp [Ty.same, hc]]
      rfl
    rw [hstep, hstep, hdeclared]
    rfl

/-- The annotations on stripped types do not matter for subtyping. -/
theorem check_unmarked (hs : s.Stripped) (ht : t.Stripped) :
    tbl.check n .subtype s t = tbl.check n .subtype s.unmarked t.unmarked := by
  cases n with
  | zero => rfl
  | succ n =>
    rcases hs with ⟨c, marks, rfl⟩ | hs
    · rcases ht with ⟨c', marks', rfl⟩ | ht
      · exact check_unmarked_declared c c' marks marks'
      · cases t with
        | primitive p marks' | none | void marks' => rfl
        | _ => cases ht
    · rcases ht with ⟨c', marks', rfl⟩ | ht
      · cases s with
        | primitive p marks | none | void marks => rfl
        | _ => cases hs
      · cases s with
        | primitive p marks | none | void marks =>
          cases t with
          | primitive p marks' | none | void marks' => rfl
          | _ => cases ht
        | _ => cases hs

theorem isSubtype_congr {s' t'} (hs : s.Stripped) (ht : t.Stripped) (hss : s.same s' = true)
    (htt : t.same t' = true) : tbl.isSubtype n s t = tbl.isSubtype n s' t' := by
  obtain ⟨hs', hs''⟩ := hs.unmarked_eq hss
  obtain ⟨ht', ht''⟩ := ht.unmarked_eq htt
  rw [isSubtype_eq_of_isPseudo hs.nominal.isPseudo ht.nominal.isPseudo,
    isSubtype_eq_of_isPseudo hs'.nominal.isPseudo ht'.nominal.isPseudo, check_unmarked hs ht,
    check_unmarked hs' ht', hs'', ht'']

/-- The minimal types are those that have no other type below them. -/
theorem mem_minimalTypes {minimal} (h : tbl.minimalTypes n types = .ok minimal) {t} :
    t ∈ minimal ↔
      t ∈ types ∧ ∀ o ∈ types, o.same t = true ∨ tbl.isSubtype n o t = .ok false := by
  rw [mem_filterM h, bind_eq_ok]
  refine and_congr_right fun ht => ⟨?_, fun hbelow => ⟨false, ?_, rfl⟩⟩
  · rintro ⟨b, hany, hb⟩ o ho
    cases b with
    | true => cases hb
    | false =>
      have hfalse := anyM_eq_false.mp hany o ho
      split at hfalse
      · exact .inl ‹_›
      · exact .inr hfalse
  · refine anyM_eq_false.mpr fun o ho => ?_
    split
    · rfl
    · exact (hbelow o ho).resolve_left ‹_›

theorem exists_minimal {ss ms ms'} (hstripped : ∀ s ∈ ss, s.Stripped) (hpaired : Ty.Paired ss ts)
    (hms : tbl.minimalTypes n ss = .ok ms) (hms' : tbl.minimalTypes n ts = .ok ms') :
    ∀ s ∈ ms, ∃ t ∈ ms', s.same t = true := by
  intro s hs
  obtain ⟨hs, hbelow⟩ := (mem_minimalTypes hms).mp hs
  obtain ⟨t, ht, hst⟩ := hpaired.1 s hs
  refine ⟨t, (mem_minimalTypes hms').mpr ⟨ht, fun o' ho' => ?_⟩, hst⟩
  obtain ⟨o, ho, hoo⟩ := hpaired.2 o' ho'
  rcases hbelow o ho with hsame | hnot
  · exact .inl (Ty.same_trans (Ty.same_trans hoo hsame) hst)
  · rw [isSubtype_congr (hstripped o ho) (hstripped s hs) (Ty.same_symm hoo) hst] at hnot
    exact .inr hnot

/-! ### Both orders -/

theorem commonErasedSupertypes_pair {candidates}
    (h : tbl.commonErasedSupertypes n lub [s, t] = .ok candidates) :
    ∃ es es', tbl.erasedSupertypes n lub s = .ok es ∧ tbl.erasedSupertypes n lub t = .ok es' ∧
      candidates = es.filter (·.isIn es') := by
  obtain ⟨es, hes, h⟩ := bind_eq_ok.mp h
  obtain ⟨kept, hkept, h⟩ := bind_eq_ok.mp h
  obtain ⟨es', hes', hkept⟩ := bind_eq_ok.mp hkept
  cases h
  cases hkept
  exact ⟨es, es', hes, hes', rfl⟩

theorem stripped_of_commonErasedSupertypes (hnames : ∀ c, ∃ ds, tbl.rawSupertypes c = .ok ds)
    (hs : s.Nominal) {cs} (h : tbl.commonErasedSupertypes n lub [s, t] = .ok cs) :
    ∀ x ∈ cs, x.Stripped := by
  obtain ⟨es, es', hes, -, rfl⟩ := commonErasedSupertypes_pair h
  exact fun x hx => stripped_of_erasedSupertypes hnames hs hes x (mem_filter.mp hx).1

/-- Up to equality, both orders find the same candidates. -/
theorem paired_commonErasedSupertypes {cs cs'}
    (h : tbl.commonErasedSupertypes n lub [s, t] = .ok cs)
    (h' : tbl.commonErasedSupertypes n lub [t, s] = .ok cs') : Ty.Paired cs cs' := by
  obtain ⟨es, es', hes, hes', rfl⟩ := commonErasedSupertypes_pair h
  obtain ⟨_, _, hes₂, hes₂', rfl⟩ := commonErasedSupertypes_pair h'
  cases hes.symm.trans hes₂'
  cases hes'.symm.trans hes₂
  have hcommon (as bs : List Ty) :
      ∀ x ∈ as.filter (·.isIn bs), ∃ y ∈ bs.filter (·.isIn as), x.same y = true := by
    intro x hx
    obtain ⟨hx, hin⟩ := mem_filter.mp hx
    obtain ⟨y, hy, hxy⟩ := any_eq_true.mp hin
    exact ⟨y, mem_filter.mpr ⟨hy, any_eq_true.mpr ⟨x, hx, Ty.same_symm hxy⟩⟩, hxy⟩
  exact ⟨hcommon es es', hcommon es' es⟩

/-- The stages of the computation: common erased supertypes, of which the minimal ones are filled
in. -/
def Staged (tbl : Table) (n : Nat) (lub : List (List Ty) → List Ty → BoundsM Result (List Ty))
    (types bs : List Ty) : Prop :=
  ∃ cs ms found, (tbl.commonErasedSupertypes n lub types : Result (List Ty)) = .ok cs ∧
    tbl.minimalTypes n cs = .ok ms ∧ Forall₂ tbl.Fills ms found ∧ bs = tbl.classFirst found

theorem keeps_computeBounds {active} (types : List Ty) :
    Keeps (fun _ => True) (tbl.computeBounds n lub active types) (tbl.Staged n lub types) := by
  refine (Keeps.lift _).bind fun cs hcs => (Keeps.lift _).bind fun ms hms => ?_
  refine (Keeps.mapM fun x _ => keeps_parameterize_fills types x).bind fun found hfound => .pure ?_
  exact ⟨cs, ms, found, hcs, hms, hfound, rfl⟩

theorem leastUpperBounds_pair (hs : s.isPseudo = false) (ht : t.isPseudo = false) :
    (tbl.leastUpperBounds n [s, t] : Result (List Ty)) =
      if t.same s then .ok [s] else (tbl.lub n [] [s, t]).run' [] := by
  have hfind : [s, t].find? Ty.isPseudo = none := by simp [hs, ht]
  have hdistinct : Ty.distinct [s, t] = if t.same s then [s] else [s, t] := by
    cases hsame : t.same s <;> simp [Ty.distinct, Ty.isIn, hsame]
  unfold leastUpperBounds leastUpperBoundsWith
  simp only [hfind, hdistinct]
  cases t.same s <;> rfl

/-- At the outset, nothing is known or in progress. -/
theorem run_lubStep_nil {rest : List Ty} (h : types.filter (fun t => !t.isNull) = s :: t :: rest) :
    (tbl.lubStep n lub [] types).run [] =
      (do
        let bounds ← tbl.computeBounds n lub [s :: t :: rest] (s :: t :: rest)
        modify fun known => (s :: t :: rest, bounds) :: known
        return bounds : BoundsM Result (List Ty)).run [] := by
  unfold lubStep
  rw [h]
  rfl

theorem staged_of_lubStep {rest bs} (hfilter : types.filter (fun t => !t.isNull) = s :: t :: rest)
    (h : (tbl.lubStep n lub [] types).run' [] = .ok bs) : tbl.Staged n lub (s :: t :: rest) bs := by
  obtain ⟨r, hr, h⟩ := bind_eq_ok.mp h
  cases h
  replace hr := (run_lubStep_nil hfilter).symm.trans hr
  refine (Keeps.bind (keeps_computeBounds _) (fun bs hbs => ?_) [] True.intro r hr).1
  exact (Keeps.trivial _).bind fun _ _ => .pure hbs

theorem staged_of_leastUpperBounds (hs : s.kind = .declared) (ht : t.kind = .declared)
    (hne : t.same s = false) {bs}
    (h : (tbl.leastUpperBounds (n + 1) [s, t] : Result (List Ty)) = .ok bs) :
    tbl.Staged n (tbl.lub n) [s, t] bs := by
  have hnull {x : Ty} (hx : x.kind = .declared) : x.isNull = false := by
    cases x <;> first | rfl | cases hx
  rw [leastUpperBounds_pair (Ty.Nominal.isPseudo (.inl hs)) (Ty.Nominal.isPseudo (.inl ht)),
    hne] at h
  refine staged_of_lubStep ?_ h
  simp [hnull hs, hnull ht]

/-- Uses of one generic class, or equal types. -/
def Corresponds (tbl : Table) (b b' : Ty) : Prop :=
  (∃ c, (tbl.cls c).typeParameters ≠ [] ∧ Ty.Uses c b ∧ Ty.Uses c b') ∨
    b.same b' = true ∧
      ∀ k, tbl.isSubtype (k + 1) b b' = .ok true ∧ tbl.isSubtype (k + 1) b' b = .ok true

theorem corresponds_of_same (h : s.same t = true) (hs : s.Nominal) : tbl.Corresponds s t := by
  have ht := hs.of_same h
  refine .inr ⟨h, fun k => ?_⟩
  rw [isSubtype_eq_of_isPseudo hs.isPseudo ht.isPseudo,
    isSubtype_eq_of_isPseudo ht.isPseudo hs.isPseudo]
  exact ⟨check_atomic hs.atomic h, check_atomic ht.atomic (Ty.same_symm h)⟩

theorem Fills.corresponds {x x' b b' : Ty} (hx : x.Stripped) (hxx : x.same x' = true)
    (hb : tbl.Fills x b) (hb' : tbl.Fills x' b') : tbl.Corresponds b b' := by
  by_cases hgeneric : ∃ c, (tbl.cls c).typeParameters ≠ [] ∧ Ty.Uses c x
  · obtain ⟨c, hc, args, owner, marks, rfl⟩ := hgeneric
    obtain ⟨args', owner', marks', rfl, -⟩ := Ty.exists_eq_declared_of_same hxx
    refine .inl ⟨c, hc, ?_, ?_⟩
    · rcases hb with rfl | ⟨d, -, hd, hb⟩
      · exact ⟨_, _, _, rfl⟩
      · exact hd.unique ⟨_, _, _, rfl⟩ ▸ hb
    · rcases hb' with rfl | ⟨d, -, hd, hb'⟩
      · exact ⟨_, _, _, rfl⟩
      · exact hd.unique ⟨_, _, _, rfl⟩ ▸ hb'
  · have hgeneric' : ¬∃ c, (tbl.cls c).typeParameters ≠ [] ∧ Ty.Uses c x' := by
      rintro ⟨c, hc, args, owner, marks, rfl⟩
      obtain ⟨args', owner', marks', rfl, -⟩ := Ty.exists_eq_declared_of_same (Ty.same_symm hxx)
      exact hgeneric ⟨c, hc, _, _, _, rfl⟩
    rcases hb with rfl | ⟨c, hc, hx, -⟩
    · rcases hb' with rfl | ⟨c, hc, hx', -⟩
      · exact corresponds_of_same hxx hx.nominal
      · exact absurd ⟨c, hc, hx'⟩ hgeneric'
    · exact absurd ⟨c, hc, hx⟩ hgeneric

theorem exists_corresponds {ms ms' found found'} (hstripped : ∀ x ∈ ms, x.Stripped)
    (hms : ∀ x ∈ ms, ∃ x' ∈ ms', x.same x' = true) (hfound : Forall₂ tbl.Fills ms found)
    (hfound' : Forall₂ tbl.Fills ms' found') :
    ∀ b ∈ tbl.classFirst found, ∃ b' ∈ tbl.classFirst found', tbl.Corresponds b b' := by
  intro b hb
  obtain ⟨x, hx, hxb⟩ := exists_of_forall₂_right hfound (mem_classFirst.mp hb)
  obtain ⟨x', hx', hxx⟩ := hms x hx
  obtain ⟨b', hb', hxb'⟩ := exists_of_forall₂_left hfound' hx'
  exact ⟨b', mem_classFirst.mpr hb', hxb.corresponds (hstripped x hx) hxx hxb'⟩

/-- The least upper bounds of two uses of classes are uses of the same classes for both orders of
the two. Those of classes without type parameters are equal. -/
theorem leastUpperBounds_comm (tbl : Table) (hnames : ∀ c, ∃ ds, tbl.rawSupertypes c = .ok ds)
    {s t : Ty} (hs : s.kind = .declared) (ht : t.kind = .declared) {n k : Nat} {bs bs' : List Ty}
    (h : (tbl.leastUpperBounds n [s, t] : Result (List Ty)) = .ok bs)
    (h' : (tbl.leastUpperBounds k [t, s] : Result (List Ty)) = .ok bs') :
    (∀ b ∈ bs, ∃ b' ∈ bs', tbl.Corresponds b b') ∧ ∀ b' ∈ bs', ∃ b ∈ bs, tbl.Corresponds b' b := by
  have hs' : s.Nominal := .inl hs
  have ht' : t.Nominal := .inl ht
  -- with the sum of the budgets, both orders run through the same stages
  replace h := (cut_leastUpperBounds (show n ≤ n + k + 1 by omega) [s, t]).eq_ok h
  replace h' := (cut_leastUpperBounds (show k ≤ n + k + 1 by omega) [t, s]).eq_ok h'
  cases hsame : t.same s with
  | true =>
    have hsame' := Ty.same_symm hsame
    rw [leastUpperBounds_pair hs'.isPseudo ht'.isPseudo, hsame] at h
    rw [leastUpperBounds_pair ht'.isPseudo hs'.isPseudo, hsame'] at h'
    cases h
    cases h'
    simpa using ⟨corresponds_of_same hsame' hs', corresponds_of_same hsame ht'⟩
  | false =>
    have hsame' : s.same t = false :=
      Bool.eq_false_iff.mpr fun hst => Bool.eq_false_iff.mp hsame (Ty.same_symm hst)
    obtain ⟨cs, ms, found, hcs, hms, hfound, rfl⟩ := staged_of_leastUpperBounds hs ht hsame h
    obtain ⟨cs', ms', found', hcs', hms', hfound', rfl⟩ :=
      staged_of_leastUpperBounds ht hs hsame' h'
    have hpaired := paired_commonErasedSupertypes hcs hcs'
    have hstripped := stripped_of_commonErasedSupertypes hnames hs' hcs
    have hstripped' := stripped_of_commonErasedSupertypes hnames ht' hcs'
    have hminimal := exists_minimal hstripped hpaired hms hms'
    have hminimal' := exists_minimal hstripped' hpaired.symm hms' hms
    exact ⟨exists_corresponds (fun x hx => hstripped x ((mem_minimalTypes hms).mp hx).1) hminimal
        hfound hfound',
      exists_corresponds (fun x hx => hstripped' x ((mem_minimalTypes hms').mp hx).1) hminimal'
        hfound' hfound⟩

set_option maxRecDepth 20000 in
/-- Two classes with a common interface and a common generic interface, in different orders. -/
theorem leastUpperBounds_comm_interfaces :
    let tbl : Table := {
      classes := #[
        { name := "java.lang.Object", simpleName := "Object", kind := .cls },
        { name := "p.I", simpleName := "I", kind := .interface },
        { name := "p.K", simpleName := "K", kind := .interface,
          typeParameters := [{ name := "T" }] },
        { name := "p.A", simpleName := "A", kind := .interface,
          interfaces := [.named ⟨1⟩ [], .applied ⟨2⟩ [.named ⟨3⟩ []] none []] },
        { name := "p.B", simpleName := "B", kind := .interface,
          interfaces := [.applied ⟨2⟩ [.named ⟨4⟩ []] none [], .named ⟨1⟩ []] }] }
    let a : Ty := .declared ⟨3⟩ [] none []
    let b : Ty := .declared ⟨4⟩ [] none []
    let i : Ty := .declared ⟨1⟩ [] none []
    let k : Ty := .declared ⟨2⟩ [.wildcard 0 tbl.objectType .null []] none []
    (tbl.leastUpperBounds 6 [a, b] : Result (List Ty)) = .ok [i, k] ∧
      (tbl.leastUpperBounds 6 [b, a] : Result (List Ty)) = .ok [k, i] ∧
      (∀ x ∈ [i, k], ∃ y ∈ [k, i], tbl.Corresponds x y) ∧
      ∀ y ∈ [k, i], ∃ x ∈ [i, k], tbl.Corresponds y x := by
  intro tbl a b i k
  have hnames : ∀ c, ∃ ds, tbl.rawSupertypes c = .ok ds :=
    exists_rawSupertypes_of_isLayered (by rfl)
  have hab : (tbl.leastUpperBounds 6 [a, b] : Result (List Ty)) = .ok [i, k] := by rfl
  have hba : (tbl.leastUpperBounds 6 [b, a] : Result (List Ty)) = .ok [k, i] := by rfl
  exact ⟨hab, hba, leastUpperBounds_comm tbl hnames rfl rfl hab hba⟩

set_option maxRecDepth 20000 in
/-- The arguments of the bounds depend on the order. Here the bounds of `E` and `F` are needed for
those of `C` and `D` and the other way round, and which of them are cut off depends on which are
asked for first. -/
theorem leastUpperBounds_order_matters :
    let generic (name : String) : ClassDecl :=
      { name := name, simpleName := .text name, kind := .interface,
        typeParameters := [{ name := "T" }] }
    let use (c d : Nat) : Expr := .applied ⟨c⟩ [.named ⟨d⟩ []] none []
    let plain (name : String) (above : List Expr) : ClassDecl :=
      { name := name, simpleName := .text name, kind := .interface, interfaces := above }
    let tbl : Table := {
      classes := #[
        { name := "java.lang.Object", simpleName := "Object", kind := .cls },
        generic "I", generic "J", generic "K", generic "L",
        plain "A" [use 1 7, use 2 9], plain "B" [use 2 10, use 1 8],
        plain "C" [use 3 9], plain "D" [use 3 10], plain "E" [use 4 7], plain "F" [use 4 8]] }
    let a : Ty := .declared ⟨5⟩ [] none []
    let b : Ty := .declared ⟨6⟩ [] none []
    let upTo (c : Nat) (t : Ty) : Ty := .declared ⟨c⟩ [.wildcard 0 t .null []] none []
    (WellFounded fun d c => tbl.Extends c d) ∧ (∀ c, ∃ ds, tbl.rawSupertypes c = .ok ds) ∧
      (tbl.leastUpperBounds 6 [a, b] : Result (List Ty)) =
        .ok [upTo 1 (upTo 3 (upTo 4 tbl.objectType)), upTo 2 (upTo 4 tbl.objectType)] ∧
      (tbl.leastUpperBounds 6 [b, a] : Result (List Ty)) =
        .ok [upTo 2 (upTo 4 (upTo 3 tbl.objectType)), upTo 1 (upTo 3 tbl.objectType)] ∧
      ∀ y ∈ [upTo 2 (upTo 4 (upTo 3 tbl.objectType)), upTo 1 (upTo 3 tbl.objectType)],
        ∀ n, tbl.isSubtype n y (upTo 1 (upTo 3 (upTo 4 tbl.objectType))) ≠ .ok true := by
  intro generic use plain tbl a b upTo
  have hlayered : tbl.isLayered = true := by rfl
  have hfalse {s t : Ty} (h : tbl.isSubtype 8 s t = .ok false) (n : Nat) :
      tbl.isSubtype n s t ≠ .ok true := by
    intro hn
    cases check_eq_of_ok (isSubtype_eq_ok h) (isSubtype_eq_ok hn)
  refine ⟨acyclic_of_isLayered hlayered, exists_rawSupertypes_of_isLayered hlayered, by rfl, by rfl,
    forall_mem_cons.mpr ⟨hfalse (by rfl), forall_mem_singleton.mpr (hfalse (by rfl))⟩⟩

end Table

end NominalTypes
