import NominalTypes.Proofs.Persistence
import NominalTypes.Proofs.Subtyping
import NominalTypes.Proofs.UpperBounds

/-!
# Erasure is monotone

Where no intersections and unions are met, the erasure of a type is found by following upper bounds
(`Table.ErasesTo`). If the check confirms that one such type is a subtype of another, then it
confirms that the erasure of the first is a subtype of the erasure of the second.

The one thing that needs the hierarchy is that the way up from a class to another does not depend on
arguments and owners: if it can be found for some use of the class, it can be found for all.
-/

namespace NominalTypes

open List

variable {args ps ss args' : List Ty} {owner owner' : Option Ty} {c : ClassId}

namespace Ty

/-- The type is a class without arguments and owner, an array of such types or of primitive ones, or
the null type. -/
inductive Erased : Ty → Prop
  | null : Erased null
  | declared {c marks} : Erased (declared c [] .none marks)
  | primitives {p ms marks} : Erased (array (primitive p ms) marks)
  | array {e marks} (h : Erased e) : Erased (array e marks)

variable {e e' : Ty}

theorem Erased.atomic (h : Erased e) : e.Atomic := by
  cases h <;> simp [Atomic, kind]

theorem Erased.isPrimitive (h : Erased e) : e.isPrimitive = false := by
  cases h <;> rfl

theorem Erased.isNoType (h : Erased e) : e.isNoType = false := by
  cases h <;> rfl

theorem Erased.isPseudo (h : Erased e) : e.isPseudo = false := by
  cases h <;> rfl

theorem Erased.isSameOccurrence (h : Erased e) (t : Ty) : t.isSameOccurrence e = false := by
  cases h <;> simp [Ty.isSameOccurrence, Ty.occurrence]

/-- The number of an occurrence belongs to one type, and so does the token of a captured
variable. -/
def Identified (occurrences : Nat → TypeKind → Ty) (captures : Nat → Ty) (t : Ty) : Prop :=
  t.Recorded occurrences ∧ t.Tokened captures

theorem identified_of_fresh {occurrences : Nat → TypeKind → Ty} {captures : Nat → Ty} {t : Ty}
    (h : t.Fresh) : t.Identified occurrences captures :=
  ⟨fun hne => absurd h.1 hne, fun token site upper lower marks heq =>
    absurd heq (h.2 token site upper lower marks)⟩

section Identified

variable {occurrences : Nat → TypeKind → Ty} {captures : Nat → Ty} {s t : Ty}

theorem bare_eq_of_same_of_identified (hs : s.Every (Identified occurrences captures))
    (ht : t.Every (Identified occurrences captures)) (h : s.same t = true) : s.bare = t.bare :=
  bare_eq_of_same h (hs.mono fun _ hx => hx.2) (ht.mono fun _ hx => hx.2)

end Identified

end Ty

namespace Table

variable {tbl : Table} {k : Nat} {s t e e' : Ty}

/-! ### Comparing erased types -/

/-- One step of the check, if the second type is erased. -/
theorem check_eq_of_erased (hs : s.kind ≠ .intersection ∧ s.kind ≠ .union)
    (hprimitive : s.isPrimitive = false) (hnone : s.isNoType = false) (he : e.Erased) :
    tbl.check (k + 1) .subtype s e =
      if (!s.isWildcard && s.same e) = true ∨ s.isNull = true ∨ tbl.isObject e = true then .ok true
      else tbl.checkUpper k (tbl.check k) .subtype s e := by
  have hlower : checkLower (tbl.check k) .subtype s e = .ok false := by
    cases he <;> rfl
  rw [check_simple hs ⟨he.atomic.1, he.atomic.2.1⟩ (he.isSameOccurrence s), checkSimple, hlower,
    hprimitive, he.isPrimitive, hnone, he.isNoType]
  simp only [Bool.or_self, Bool.false_eq_true, if_false, Bool.or_eq_true]
  by_cases hsame : (!s.isWildcard && s.same e) = true
  · rw [if_pos hsame, if_pos (.inl hsame)]
    rfl
  · by_cases hrest : s.isNull = true ∨ tbl.isObject e = true
    · rw [if_neg hsame, if_pos hrest, if_pos (.inr hrest)]
      rfl
    · rw [if_neg hsame, if_neg hrest, if_neg (not_or.mpr ⟨hsame, hrest⟩)]
      rfl

/-- One step of the check of erased types. -/
theorem check_erased_eq (he : e.Erased) (he' : e'.Erased) :
    tbl.check (k + 1) .subtype e e' =
      if e.same e' = true ∨ e.isNull = true ∨ tbl.isObject e' = true then .ok true
      else tbl.checkUpper k (tbl.check k) .subtype e e' := by
  have hwildcard : e.isWildcard = false := by
    cases he <;> rfl
  rw [check_eq_of_erased ⟨he.atomic.1, he.atomic.2.1⟩ he.isPrimitive he.isNoType he', hwildcard,
    Bool.not_false, Bool.true_and]

theorem check_erased_of_same (he : e.Erased) (h : e.same e' = true) :
    tbl.check 1 .subtype e e' = .ok true :=
  check_atomic he.atomic h

theorem check_null_erased (he : e.Erased) : tbl.check 1 .subtype .null e = .ok true := by
  rw [check_erased_eq .null he, if_pos (.inr (.inl rfl))]

theorem check_erased_object (he : e.Erased) (he' : e'.Erased) (h : tbl.isObject e' = true) :
    tbl.check 1 .subtype e e' = .ok true := by
  rw [check_erased_eq he he', if_pos (.inr (.inr h))]

/-- Only the null type is below the null type. -/
theorem eq_null_of_check (he : e.Erased) (h : tbl.check k .subtype e .null = .ok true) :
    e = .null := by
  cases k with
  | zero => cases h
  | succ k =>
    cases he with
    | null => rfl
    | declared | primitives | array => cases h

theorem check_erased_array (he : e.Erased) (he' : e'.Erased) (marks marks' : List ClassId)
    (h : tbl.check k .subtype e e' = .ok true) :
    tbl.check (k + 1) .subtype (.array e marks) (.array e' marks') = .ok true := by
  rw [check_erased_eq (.array he) (.array he')]
  split_ifs
  · rfl
  · simp only [checkUpper, checkArray, he.isPrimitive, he'.isPrimitive]
    exact h

theorem check_erased_arraySupertype (he : (Ty.array e marks).Erased) (marks' : List ClassId)
    (hc : tbl.isArraySupertype c = true) :
    tbl.check 1 .subtype (.array e marks) (.declared c [] none marks') = .ok true := by
  rw [check_erased_eq he .declared]
  split_ifs
  · rfl
  · simp only [checkUpper, checkArray, hc]
    rfl

/-- A class without arguments is below every class that the way up leads to. -/
theorem check_erased_declared {d ms} (marks marks' : List ClassId)
    (hsub : tbl.isSubclassOf c d = .ok true)
    (hr : (tbl.resolveSupertype k (.declared c [] none marks) d : Result (Option Ty)) =
      .ok (some (.declared d args owner ms))) :
    tbl.check (k + 1) .subtype (.declared c [] none marks) (.declared d [] none marks') =
      .ok true := by
  rw [check_erased_eq .declared .declared]
  split_ifs
  · rfl
  · rw [checkUpper, checkDeclared, hsub]
    rw [hr]
    cases args <;> cases owner <;> rfl

/-! ### Going up from different uses of a class -/

section Climb

variable {n : Nat}

/-- Two types on the way up: the same one, or two uses of one class of which the second is built as
the constructors build it. -/
def Alongside (s t : Ty) : Prop :=
  s = t ∨ ∃ c, Ty.Uses c s ∧ Ty.Uses c t ∧ t.Formed

theorem nominal_of_descriptors (hnames : ∀ c, ∃ ds, tbl.rawSupertypes c = .ok ds)
    (hps : tbl.descriptors (tbl.supertypeExprs c) = .ok ps) : ∀ p ∈ ps, p.Nominal := by
  intro p hp
  obtain ⟨ds, hds⟩ := hnames c
  rw [descriptors_eq_mapM] at hps
  obtain ⟨e, he, hpe⟩ := exists_of_forall₂_right (mapM_eq_ok.mp hps) hp
  obtain ⟨d, -, hd⟩ := exists_of_forall₂_left (mapM_eq_ok.mp hds) he
  exact kind_of_rawClass hd hpe

/-- What a use of a class inherits through a supertype expression. -/
def Inherited (tbl : Table) (n : Nat) (p s : Ty) : Prop :=
  tbl.eraseUnionFree n p = .ok s ∨ ∃ m, tbl.substitute m p = .ok s

theorem Inherited.uses {p} (h : tbl.Inherited n p s) {d} (hd : Ty.Uses d p) : Ty.Uses d s := by
  rcases h with h | ⟨m, h⟩
  · obtain ⟨_, _, _, rfl⟩ := hd
    rw [(settles_eraseUnionFree rfl).eq_of_ok h]
    exact ⟨_, _, _, rfl⟩
  · exact uses_of_substitute hd h

theorem Inherited.eq {p} (h : tbl.Inherited n p s) (hp : (p.isPrimitive || p.isNoType) = true) :
    s = p := by
  rcases h with h | ⟨m, h⟩
  · cases n with
    | zero => cases h
    | succ n =>
      cases p with
      | primitive | none | void =>
        cases h
        rfl
      | _ => cases hp
  · rw [substitute_eq_self hp] at h
    cases h
    rfl

/-- The supertypes of a use of a class come from the patterns of the class. -/
theorem forall₂_inherited
    (hexprs : tbl.supertypeExprs c ≠ []) (hps : tbl.descriptors (tbl.supertypeExprs c) = .ok ps)
    (h : tbl.declaredSupertypes n c args owner = .ok ss) : Forall₂ (tbl.Inherited n) ps ss := by
  rw [declaredSupertypes_of_patterns hexprs hps] at h
  split_ifs at h
  · exact (mapM_eq_ok.mp h).imp fun _ _ => .inl
  · obtain ⟨m, -, h⟩ := bind_eq_ok.mp h
    exact (mapM_eq_ok.mp h).imp fun _ _ hs => .inr ⟨m, hs⟩

/-- A use of a class that is built as the constructors build it inherits through each pattern. -/
theorem exists_inherited (hroot : tbl.Rooted) (hn : 0 < n)
    (hformed : (Ty.declared c args owner []).Formed)
    (hexprs : tbl.supertypeExprs c ≠ []) (hps : tbl.descriptors (tbl.supertypeExprs c) = .ok ps)
    (hnominal : ∀ p ∈ ps, p.Nominal) :
    ∃ ts, tbl.declaredSupertypes n c args owner = .ok ts ∧
      Forall₂ (fun p t => tbl.Inherited n p t ∧ (p.kind = .declared → t.Formed)) ps ts := by
  have hdenoted := descriptors_denoted _ hps
  have hall {f : Ty → Result Ty} (hf : ∀ p ∈ ps, ∃ t, f p = .ok t ∧ tbl.Inherited n p t ∧
      (p.kind = .declared → t.Formed)) : ∃ ts, ps.mapM f = .ok ts ∧
      Forall₂ (fun p t => tbl.Inherited n p t ∧ (p.kind = .declared → t.Formed)) ps ts := by
    obtain ⟨ts, hts⟩ := exists_mapM_eq_ok fun p hp => (hf p hp).imp fun _ h => h.1
    refine ⟨ts, hts, forall₂_imp_mem (mapM_eq_ok.mp hts) fun p hp t _ hpt => ?_⟩
    obtain ⟨t', ht', h⟩ := hf p hp
    cases ht'.symm.trans hpt
    exact h
  rw [declaredSupertypes_of_patterns hexprs hps]
  split_ifs
  · refine hall fun p hp => ?_
    obtain ⟨n, rfl⟩ := Nat.exists_eq_succ_of_ne_zero (Nat.ne_of_gt hn)
    obtain ⟨t, ht, hformed⟩ : ∃ t, tbl.eraseUnionFree (n + 1) p = .ok t ∧
        (p.kind = .declared → t.Formed) := by
      cases p with
      | declared d args owner marks =>
        exact ⟨_, eraseUnionFree_succ rfl n, fun _ => Ty.formed_bare_class _ _⟩
      | primitive | none | void => exact ⟨_, rfl, nofun⟩
      | _ => rcases hnominal _ hp with h | h <;> cases h
    exact ⟨t, ht, .inl ht, hformed⟩
  · obtain ⟨m, hm⟩ : ∃ m, tbl.typeMapping _ = .ok m := exists_typeMapping hformed
    have hsuits (v : TypeVarId) (x : Ty) (hx : m.lookup v = some x) : x.Suits :=
      suits_assignment hformed v x ((lookup_typeMapping hm v).symm.trans hx)
    rw [hm]
    refine hall fun p hp => ?_
    obtain ⟨t, ht⟩ := exists_substitute hsuits hroot (hdenoted p hp)
    exact ⟨t, ht, .inr ⟨m, ht⟩, fun hkind => formed_of_substitute hsuits (hdenoted p hp) hkind ht⟩

/-- Different uses of a class have supertypes of the same classes. -/
theorem exists_alongside (hroot : tbl.Rooted) (hnames : ∀ c, ∃ ds, tbl.rawSupertypes c = .ok ds)
    (hn : 0 < n) (hformed : (Ty.declared c args' owner' []).Formed)
    (h : tbl.declaredSupertypes n c args owner = .ok ss) :
    ∃ ts, tbl.declaredSupertypes n c args' owner' = .ok ts ∧ Forall₂ Alongside ss ts := by
  by_cases hexprs : tbl.supertypeExprs c = []
  · rw [declaredSupertypes_of_nil hexprs] at h ⊢
    cases h
    exact ⟨_, rfl, forall₂_same.mpr fun _ _ => .inl rfl⟩
  · cases hps : tbl.descriptors (tbl.supertypeExprs c) with
    | error e =>
      rw [declaredSupertypes] at h
      split at h
      · contradiction
      · rw [hps] at h
        cases h
    | ok ps =>
      have hnominal := nominal_of_descriptors hnames hps
      obtain ⟨ts, hts, hall⟩ := exists_inherited hroot hn hformed hexprs hps hnominal
      refine ⟨ts, hts, forall₂_join (forall₂_inherited hexprs hps h) hall fun p hp s t hs ht => ?_⟩
      rcases hnominal p hp with hkind | hkind
      · obtain ⟨d, hd⟩ := Ty.exists_uses hkind
        exact .inr ⟨d, hs.uses hd, ht.1.uses hd, ht.2 hkind⟩
      · rw [hs.eq hkind, ht.1.eq hkind]
        exact .inl rfl

theorem firstFound_of_forall₂ {f : Ty → Result (Option Ty)} {ts}
    (hall : Forall₂ (fun s t => ∀ r, f s = .ok r → ∃ r', f t = .ok r' ∧ (r ≠ none → r' ≠ none))
      ss ts) {r} (h : firstFound f ss = .ok r) :
    ∃ r', firstFound f ts = .ok r' ∧ (r ≠ none → r' ≠ none) := by
  induction hall with
  | nil => exact ⟨r, h, id⟩
  | @cons s t ss ts hst _ ih =>
    obtain ⟨q, hq, h⟩ := bind_eq_ok.mp h
    obtain ⟨q', hq', hne⟩ := hst q hq
    rw [firstFound, hq']
    cases q' with
    | some x => exact ⟨some x, rfl, fun _ => Option.some_ne_none _⟩
    | none =>
      cases q with
      | some y => exact absurd rfl (hne (Option.some_ne_none y))
      | none => exact ih h

/-- If the way up from some use of a class can be found, then from every use of the class, and it
leads to the target from the second if it does from the first. By induction on the length of the
way. -/
theorem climb_of_uses (hroot : tbl.Rooted) (hnames : ∀ c, ∃ ds, tbl.rawSupertypes c = .ok ds)
    (hn : 0 < n) {target r} (hst : Alongside s t) (h : climb (tbl.ascend n target) k s = .ok r) :
    ∃ r', climb (tbl.ascend n target) k t = .ok r' ∧ (r ≠ none → r' ≠ none) := by
  induction k generalizing s t r with
  | zero => cases h
  | succ k ih =>
    rcases hst with rfl | ⟨c, ⟨args, owner, marks, rfl⟩, ⟨args', owner', marks', rfl⟩, hformed⟩
    · exact ⟨r, h, id⟩
    · rw [climb, ascend] at h ⊢
      by_cases hc : c = target
      · rw [if_pos hc]
        exact ⟨_, rfl, fun _ => Option.some_ne_none _⟩
      · rw [if_neg hc] at h ⊢
        cases hsub : tbl.isSubclassOf c target with
        | error e =>
          rw [hsub] at h
          cases h
        | ok b =>
          rw [hsub] at h
          cases b with
          | false =>
            cases h
            exact ⟨none, rfl, id⟩
          | true =>
            obtain ⟨a, ha, h⟩ := bind_eq_ok.mp h
            change
              (tbl.declaredSupertypes n c args owner >>= fun ss => pure (Ascent.above ss)) = _ at ha
            obtain ⟨ss, hss, ha⟩ := bind_eq_ok.mp ha
            cases ha
            obtain ⟨ts, hts, hall⟩ := exists_alongside hroot hnames hn (hformed.remark []) hss
            obtain ⟨r', hr', hne⟩ := firstFound_of_forall₂ (hall.imp fun _ _ hst _ => ih hst) h
            refine ⟨r', ?_, hne⟩
            rw [hts]
            exact hr'

end Climb

/-! ### Erasure along single bounds -/

/-- The erasure of a type in which no intersections and unions are met: that of the upper bound for
variables and wildcards. Wildcards and captured variables have at most one explicit bound. -/
inductive ErasesTo (tbl : Table) : Ty → Ty → Prop
  | null : ErasesTo tbl .null .null
  | declared {c args owner marks} :
    ErasesTo tbl (.declared c args owner marks) (.declared c [] none marks)
  | primitives {p ms marks} :
    ErasesTo tbl (.array (.primitive p ms) marks) (.array (.primitive p ms) marks)
  | array {t e marks} (h : ErasesTo tbl t e) : ErasesTo tbl (.array t marks) (.array e marks)
  | var {u e n v marks} (hu : tbl.upperBound v = .ok u) (h : ErasesTo tbl u e) :
    ErasesTo tbl (.var n v marks) e
  | captured {token site upper lower e marks} (hone : tbl.isObject upper = true ∨ lower = .null)
    (h : ErasesTo tbl upper e) : ErasesTo tbl (.captured token site upper lower marks) e
  | wildcard {n upper lower e marks} (hone : tbl.isObject upper = true ∨ lower = .null)
    (h : ErasesTo tbl upper e) : ErasesTo tbl (.wildcard n upper lower marks) e

/-- The type is a class, an array of such types or of primitive types, the null type, or a variable
or wildcard with one upper bound that is such a type. The bounds are not circular. -/
def Straight (tbl : Table) (t : Ty) : Prop :=
  ∃ e, tbl.ErasesTo t e

namespace ErasesTo

variable (h : tbl.ErasesTo t e)

include h

theorem erased : e.Erased := by
  induction h with
  | null => exact .null
  | declared => exact .declared
  | primitives => exact .primitives
  | array _ ih => exact .array ih
  | var _ _ ih | captured _ _ ih | wildcard _ _ ih => exact ih

theorem simple : t.kind ≠ .intersection ∧ t.kind ≠ .union := by
  cases h <;> simp [Ty.kind]

theorem isPrimitive : t.isPrimitive = false := by
  cases h <;> rfl

theorem isNoType : t.isNoType = false := by
  cases h <;> rfl

theorem isPseudo : t.isPseudo = false := by
  cases h <;> rfl

theorem erases : tbl.Erases t e := by
  induction h with
  | null => exact .basic rfl
  | declared => exact .declared
  | primitives => exact .array (.basic rfl)
  | array _ ih => exact .array ih
  | var hu _ ih => exact .var hu ih
  | captured _ _ ih => exact .captured ih
  | wildcard _ _ ih => exact .wildcard ih

theorem settles_erase : Settles (fun k => tbl.erase k t) e :=
  h.erases.settles_eraseWith fun k => tbl.leastUpperBounds k

theorem isObject (ht : tbl.isObject t = true) : tbl.isObject e = true := by
  cases h with
  | declared => exact ht
  | _ => cases ht

end ErasesTo

/-- Types that differ in annotations and numbers only have erasures that differ in annotations
only. -/
theorem ErasesTo.bare_eq (hs : tbl.ErasesTo s e) (ht : tbl.ErasesTo t e') (h : s.bare = t.bare) :
    e.bare = e'.bare := by
  obtain ⟨x, hx, hbare⟩ := hs.erases.exists_of_bare_eq h
  rw [← hbare, hx.unique ht.erases]

/-! ### Monotonicity -/

/-- What the check confirms of two types with the given budget, it confirms of their erasures. -/
def Transfers (tbl : Table) (occurrences : Nat → TypeKind → Ty) (captures : Nat → Ty) (k : Nat) :
    Prop :=
  ∀ {s t e e' : Ty}, tbl.ErasesTo s e → tbl.ErasesTo t e' →
    s.Every (Ty.Identified occurrences captures) → t.Every (Ty.Identified occurrences captures) →
    tbl.check k .subtype s t = .ok true → ∃ n, tbl.check n .subtype e e' = .ok true

section Transfers

variable {occurrences : Nat → TypeKind → Ty} {captures : Nat → Ty}

/-- A wildcard with an explicit lower bound erases to the root class, and only the null type is
below the lower bound of any other. -/
theorem Transfers.lower (ih : tbl.Transfers occurrences captures k) (hs : tbl.ErasesTo s e)
    (ht : tbl.ErasesTo t e') (hsid : s.Every (Ty.Identified occurrences captures))
    (h : checkLower (tbl.check k) .subtype s t = .ok true) :
    ∃ n, tbl.check n .subtype e e' = .ok true := by
  have hbound {upper lower : Ty} (hone : tbl.isObject upper = true ∨ lower = .null)
      (hupper : tbl.ErasesTo upper e') (h : tbl.check k .subtype s lower = .ok true) :
      ∃ n, tbl.check n .subtype e e' = .ok true := by
    rcases hone with hobject | rfl
    · exact ⟨1, check_erased_object hs.erased hupper.erased (hupper.isObject hobject)⟩
    · have hnull : Ty.null.Identified occurrences captures :=
        Ty.identified_of_fresh ⟨rfl, fun _ _ _ _ _ h => by cases h⟩
      obtain ⟨n, hn⟩ := ih hs .null hsid (.leaf hnull rfl) h
      rw [eq_null_of_check hs.erased hn]
      exact ⟨1, check_null_erased hupper.erased⟩
  cases ht with
  | captured hone hupper => exact hbound hone hupper h
  | wildcard hone hupper => exact hbound hone hupper h
  | _ => cases h

variable (hroot : tbl.Rooted) (hnames : ∀ c, ∃ ds, tbl.rawSupertypes c = .ok ds)

include hroot hnames

/-- The way up from a class is found for the class without arguments, too. -/
theorem exists_check_declared {c' marks marks'}
    (h : tbl.checkDeclared k (tbl.check k) .subtype (.declared c args owner marks) c c' args'
      owner' = .ok true) :
    ∃ n, tbl.check n .subtype (.declared c [] none marks) (.declared c' [] none marks') =
      .ok true := by
  obtain ⟨b, hsub, h⟩ := bind_eq_ok.mp h
  cases b with
  | false => cases h
  | true =>
    obtain ⟨r, hr, h⟩ := bind_eq_ok.mp h
    rw [resolveSupertype_eq_climb] at hr
    have hpos : 0 < k := by
      cases k with
      | zero => cases hr
      | succ k => exact Nat.succ_pos k
    have hsome : r ≠ none := by
      rintro rfl
      cases h
    obtain ⟨r', hr', hsome'⟩ := climb_of_uses hroot hnames hpos
      (.inr ⟨c, ⟨_, _, _, rfl⟩, ⟨_, _, _, rfl⟩, Ty.formed_bare_class c marks⟩) hr
    obtain ⟨x, rfl⟩ := Option.ne_none_iff_exists'.mp (hsome' hsome)
    obtain ⟨_, _, _, rfl⟩ := uses_of_climb hr'
    rw [← resolveSupertype_eq_climb] at hr'
    exact ⟨k + 1, check_erased_declared marks marks' hsub hr'⟩

theorem Transfers.upper (ih : tbl.Transfers occurrences captures k) (hs : tbl.ErasesTo s e)
    (ht : tbl.ErasesTo t e') (hsid : s.Every (Ty.Identified occurrences captures))
    (htid : t.Every (Ty.Identified occurrences captures))
    (h : tbl.checkUpper k (tbl.check k) .subtype s t = .ok true) :
    ∃ n, tbl.check n .subtype e e' = .ok true := by
  cases hs with
  | null =>
    cases ht <;> cases h
  | var hu hs =>
    simp only [checkUpper, hu] at h
    exact ih hs ht ((every_denoted_upperBound hu).mono fun _ hx =>
      Ty.identified_of_fresh hx.fresh) htid h
  | captured _ hs => exact ih hs ht hsid.capturedUpper htid h
  | wildcard _ hs => exact ih hs ht hsid.upper htid h
  | declared =>
    cases ht with
    | declared => exact exists_check_declared hroot hnames h
    | _ => cases h
  | primitives =>
    cases ht with
    | declared => exact ⟨1, check_erased_arraySupertype .primitives _ (Except.ok.inj h)⟩
    | primitives => exact ⟨1, check_erased_of_same .primitives (Except.ok.inj h)⟩
    | array ht =>
      cases ht <;> cases h
    | _ => cases h
  | array hs =>
    simp only [checkUpper, checkArray] at h
    cases ht with
    | declared => exact ⟨1, check_erased_arraySupertype (.array hs.erased) _ (Except.ok.inj h)⟩
    | primitives =>
      cases hs <;> cases h
    | array ht =>
      simp only [hs.isPrimitive, ht.isPrimitive, Bool.or_self, Bool.false_eq_true, if_false] at h
      obtain ⟨n, hn⟩ := ih hs ht hsid.component htid.component h
      exact ⟨n + 1, check_erased_array hs.erased ht.erased _ _ hn⟩
    | _ => cases h

/-- What the check confirms of two types it confirms of their erasures. By induction on the budget,
which follows the bounds of the types as erasure does. -/
theorem transfers (occurrences : Nat → TypeKind → Ty) (captures : Nat → Ty) (k : Nat) :
    tbl.Transfers occurrences captures k := by
  induction k with
  | zero => exact fun _ _ _ _ h => by cases h
  | succ k ih =>
    intro s t e e' hs ht hsid htid h
    have hbare (hst : s.bare = t.bare) : ∃ n, tbl.check n .subtype e e' = .ok true :=
      ⟨1, check_erased_of_same hs.erased (Ty.same_of_bare_eq (hs.bare_eq ht hst))⟩
    by_cases hocc : s.isSameOccurrence t = true
    · exact hbare (Ty.bare_eq_of_recorded hsid.top.1 htid.top.1 hocc)
    rw [check_simple hs.simple ht.simple ((Bool.not_eq_true _).mp hocc), checkSimple,
      hs.isPrimitive, ht.isPrimitive, hs.isNoType, ht.isNoType] at h
    simp only [Bool.or_self, Bool.false_eq_true, if_false] at h
    split_ifs at h with hsame hcond
    · rw [Bool.and_eq_true] at hsame
      exact hbare (Ty.bare_eq_of_same_of_identified hsid htid hsame.2)
    · rw [Bool.or_eq_true] at hcond
      rcases hcond with hnull | hobject
      · cases hs with
        | null => exact ⟨1, check_null_erased ht.erased⟩
        | _ => cases hnull
      · exact ⟨1, check_erased_object hs.erased ht.erased (ht.isObject hobject)⟩
    · obtain ⟨below, hbelow, h⟩ := bind_eq_ok.mp h
      cases below with
      | true => exact ih.lower hs ht hsid hbelow
      | false => exact ih.upper hroot hnames hs ht hsid htid h

end Transfers

/-- Erasure is monotone: if a type is a subtype of another, then the erasures of both are found, and
the first is a subtype of the second. -/
theorem isSubtype_erase (hroot : tbl.Rooted) (hnames : ∀ c, ∃ ds, tbl.rawSupertypes c = .ok ds)
    {occurrences : Nat → TypeKind → Ty} {captures : Nat → Ty} {s t : Ty} (hs : tbl.Straight s)
    (ht : tbl.Straight t) (hsid : s.Every (Ty.Identified occurrences captures))
    (htid : t.Every (Ty.Identified occurrences captures)) {k : Nat}
    (h : tbl.isSubtype k s t = .ok true) :
    ∃ e e', Settles (fun n => tbl.erase n s) e ∧ Settles (fun n => tbl.erase n t) e' ∧
      Settles (fun n => tbl.isSubtype n e e') true := by
  obtain ⟨e, he⟩ := hs
  obtain ⟨e', he'⟩ := ht
  rw [isSubtype_eq_of_isPseudo he.isPseudo he'.isPseudo] at h
  obtain ⟨n, hn⟩ := transfers hroot hnames occurrences captures k he he' hsid htid h
  refine ⟨e, e', he.settles_erase, he'.settles_erase, ?_⟩
  simp only [isSubtype_eq_of_isPseudo he.erased.isPseudo he'.erased.isPseudo]
  exact settles_check_of_ok hn

set_option maxRecDepth 20000 in
/-- An array of a type variable whose bound inherits an interface, and an array of the interface
with a wildcard. -/
theorem isSubtype_erase_arrays :
    let tbl : Table := {
      classes := #[
        { name := "java.lang.Object", simpleName := "Object", kind := .cls },
        { name := "p.A", simpleName := "A", kind := .cls, superclass := some (.named ⟨0⟩ []) },
        { name := "p.N", simpleName := "N", kind := .interface,
          typeParameters := [{ name := "T" }] },
        { name := "p.D", simpleName := "D", kind := .cls, typeParameters := [{ name := "T" }],
          interfaces := [.applied ⟨2⟩ [.var ⟨.cls ⟨3⟩, 0⟩ []] none []] },
        { name := "p.G", simpleName := "G", kind := .cls, typeParameters :=
            [{ name := "T", bounds := [.applied ⟨3⟩ [.named ⟨1⟩ []] none []] }] }] }
    let s : Ty := .array (.var 0 ⟨.cls ⟨4⟩, 0⟩ []) []
    let t : Ty := .array (.declared ⟨2⟩ [.wildcard 0 (.declared ⟨1⟩ [] none []) .null []]
      none []) []
    tbl.Rooted ∧ tbl.Straight s ∧ tbl.Straight t ∧ tbl.isSubtype 8 s t = .ok true ∧
      ∃ e e', Settles (fun n => tbl.erase n s) e ∧ Settles (fun n => tbl.erase n t) e' ∧
        Settles (fun n => tbl.isSubtype n e e') true := by
  intro tbl s t
  have hroot : tbl.Rooted := rooted_of_isRooted (by rfl)
  have hnames (c : ClassId) : ∃ ds, tbl.rawSupertypes c = .ok ds :=
    exists_rawSupertypes_of_isLayered (by rfl) c
  have hs : tbl.Straight s := ⟨_, .array (.var rfl .declared)⟩
  have ht : tbl.Straight t := ⟨_, .array .declared⟩
  have hst : tbl.isSubtype 8 s t = .ok true := by rfl
  have hid (t : Ty) (h : t.Every Ty.Fresh) :
      t.Every (Ty.Identified (fun _ _ => .null) fun _ => .null) :=
    h.mono fun _ => Ty.identified_of_fresh
  have hargs : ∀ a ∈ [Ty.wildcard 0 (.declared ⟨1⟩ [] none []) .null []], a.Every Ty.Fresh :=
    forall_mem_singleton.mpr
      (.wildcard ⟨rfl, nofun⟩ (.leaf ⟨rfl, nofun⟩ rfl) (.leaf ⟨rfl, nofun⟩ rfl))
  exact ⟨hroot, hs, ht, hst, isSubtype_erase hroot hnames hs ht
    (hid s (.array ⟨rfl, nofun⟩ (.leaf ⟨rfl, nofun⟩ rfl)))
    (hid t (.array ⟨rfl, nofun⟩ (.declared ⟨rfl, nofun⟩ hargs nofun))) hst⟩

end Table

end NominalTypes
