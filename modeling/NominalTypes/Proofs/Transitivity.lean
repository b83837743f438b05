import NominalTypes.Proofs.Criteria

/-!
# Transitivity of subtyping

Subtyping is transitive for arrays, parameterized classes without owners, type variables and
intersections, in tables that are regular (`Table.Regular`): inheritance is coherent, supertype
expressions hand wildcards on in simple ways, and what arrays have above them has nothing above it
but the root class.

The proof is by induction on the number of nested rules in both premises. The case that takes work
is that of two uses of classes. What the first inherits as the class of the second is contained in
the second; containment passes upwards to the class of the third; and by coherence the first
inherits the third class on any other way with the same arguments.
-/

namespace NominalTypes

open List

variable {n : Nat} {b a s : Ty} {marks ms : List ClassId} {c : ClassId} {owner : Option Ty}

/-- Types without raw types, owners and captured variables. -/
def Shape.plain : Shape where
  raw := false
  owners := false
  supers := true
  intersections := true
  captures := false
  capturedSupers := false

namespace Table

variable (tbl : Table)

/-- The tables for which subtyping is transitive. Wildcards may stand for the type parameters in
`V`. -/
structure Regular (V : TypeVarId → Prop) : Prop where
  obeys : tbl.Obeys .plain
  arrays : ∀ c, tbl.isArraySupertype c = true → tbl.supertypeExprs c = []
  coherent : tbl.Coherent
  wellScoped : tbl.Scoped
  conveys : tbl.Conveys V

/-- The types for which subtyping is transitive. -/
def Plain (V : TypeVarId → Prop) (t : Ty) : Prop :=
  tbl.Within .plain t ∧ t.Every (Ty.Placed V)

/-- Transitivity for premises with at most `N` nested rules together. -/
def TransUpTo (V : TypeVarId → Prop) (N : Nat) : Prop :=
  ∀ {n m : Nat} {a b c : Ty}, n + m ≤ N → tbl.Plain V a → tbl.Plain V b → tbl.Plain V c →
    tbl.SubN n a b → tbl.SubN m b c → tbl.Sub a c

variable {tbl} {V : TypeVarId → Prop}

section Plain

variable {t : Ty}

theorem Plain.member {bounds} (h : tbl.Plain V (.intersection n bounds)) (hb : b ∈ bounds) :
    tbl.Plain V b :=
  ⟨h.1.member hb, h.2.part hb⟩

theorem Plain.component {component} (h : tbl.Plain V (.array component marks)) :
    tbl.Plain V component :=
  ⟨h.1.component, h.2.component⟩

theorem Regular.plain_upperBound (h : tbl.Regular V) {v u} (hu : tbl.upperBound v = .ok u) :
    tbl.Plain V u := by
  obtain ⟨_, _, -, hu', hwithin, -⟩ := h.obeys.exists_upperBound v
  cases hu.symm.trans hu'
  exact ⟨hwithin, h.conveys.every_upperBound hu⟩

theorem plain_orUpper (ha : tbl.Admits .plain a) (hplaced : a.Every (Ty.Placed V)) :
    tbl.Plain V a.orUpper :=
  ⟨ha.orUpper, hplaced.orUpper⟩

theorem plain_orLower (ha : tbl.Admits .plain a) (hplaced : a.Every (Ty.Placed V)) :
    tbl.Plain V a.orLower :=
  ⟨ha.orLower, hplaced.orLower⟩

end Plain

/-- Containment is transitive if subtyping is. -/
theorem TransUpTo.contained_trans {N m} (h : tbl.TransUpTo V N) (hnm : n + m ≤ N) {c}
    (ha : tbl.Admits .plain a) (hb : tbl.Admits .plain b) (hc : tbl.Admits .plain c)
    (haV : a.Every (Ty.Placed V)) (hbV : b.Every (Ty.Placed V)) (hcV : c.Every (Ty.Placed V))
    (hab : Contained (tbl.SubN n) a b) (hbc : Contained (tbl.SubN m) b c) :
    Contained tbl.Sub a c := by
  obtain ⟨hupper, hlower⟩ := hab.bounds
  cases hbc with
  | same hcw hbc =>
    cases hab with
    | same _ hab => exact .same hcw (hab.trans hbc)
    | between =>
      rw [← Ty.isWildcard_bare, ← hbc] at hcw
      cases hcw
  | between hupper' hlower' =>
    refine .between ?_ ?_
    · exact h hnm (plain_orUpper ha haV) (plain_orUpper hb hbV)
        (plain_orUpper hc hcV) hupper hupper'
    · exact h (Nat.add_comm n m ▸ hnm) (plain_orLower hc hcV) (plain_orLower hb hbV)
        (plain_orLower ha haV) hlower' hlower

/-! ### Uses of classes -/

theorem Plain.isRaw {args} (h : tbl.Plain V (.declared c args owner marks)) :
    tbl.isRaw c args = false := by
  have hcount := h.1.2.top.1.resolve_right fun hraw => Bool.false_ne_true hraw.2
  refine (isRaw_of_length_eq ?_).trans (isRaw_typeVars c)
  rw [hcount, length_map, typeVars, length_map, length_range]
  rfl

/-- What a plain use of a class inherits has wildcards in the right places. -/
theorem Regular.placed_of_resolves (h : tbl.Regular V) {x} (hs : tbl.Invokes .plain s)
    (hplaced : s.Every (Ty.Placed V)) (hx : tbl.Resolves s c (some x)) :
    tbl.Invokes .plain x ∧ x.Every (Ty.Placed V) ∧ Ty.Uses c x := by
  obtain ⟨r, hr, hall, -⟩ := h.obeys.exists_resolves (p := Ty.Every (Ty.Placed V))
    (fun ht hp hts => h.obeys.placed_of_supers rfl h.conveys ht hp hts) hs hplaced c
  cases hx.eq hr
  exact hall x rfl

/-- What is inherited as the class of a type of which it is a subtype fits that type. -/
theorem Plain.fits_of_contained {ds args o} (hx : tbl.Invokes .plain (.declared c ds o ms))
    (hxplaced : (Ty.declared c ds o ms).Every (Ty.Placed V))
    (ht : tbl.Plain V (.declared c args owner marks)) (hraw : args = [] ∨ ds ≠ [])
    (hargs : ∀ b a, (b, a) ∈ args.zip ds → Contained (tbl.SubN n) a b) :
    tbl.Fits .plain V n (.declared c ds o ms) (.declared c args owner marks) := by
  have htinvokes := ht.1.invokes rfl
  refine ⟨⟨hx, htinvokes⟩, ⟨hxplaced, ht.2⟩, ?_⟩
  cases hx.owner_eq_none rfl
  cases htinvokes.owner_eq_none rfl
  have hcount := ht.1.2.top.1.resolve_right fun hraw => Bool.false_ne_true hraw.2
  have hlength : args.length = ds.length := by
    rcases hx.2.1.1 with hds | ⟨hds, -⟩
    · rw [hcount, hds]
    · rcases hraw with hnil | hne
      · rw [hnil, hds]
      · exact absurd hds hne
  refine ⟨c, ds, args, ms, marks, rfl, rfl, Forall₂.flip ?_⟩
  exact forall₂_iff_zip.mpr ⟨hlength, fun {b a} hba => hargs b a hba⟩

private theorem exists_mem_zip_of_forall₂ {C : Ty → Ty → Prop} {as es bs : List Ty}
    (h : Forall₂ C as es) (hba : (b, a) ∈ bs.zip as) :
    ∃ e, C a e ∧ (b, e) ∈ bs.zip es := by
  induction h generalizing bs with
  | nil =>
    rw [zip_nil_right] at hba
    cases hba
  | cons hae _ ih =>
    cases bs with
    | nil => cases hba
    | cons b' bs =>
      rcases mem_cons.mp hba with heq | hba
      · cases heq
        exact ⟨_, hae, mem_cons_self⟩
      · obtain ⟨e, hae, hbe⟩ := ih hba
        exact ⟨e, hae, mem_cons_of_mem _ hbe⟩

/-- Where two ways up follow one another, there is a direct one. -/
theorem Orderly.exists_resolves_of_resolves (h : tbl.Orderly) {x y d} (hs : s.Formed)
    (hx : tbl.Resolves s c (some x)) (hxformed : x.Formed) (hy : tbl.Resolves x d (some y)) :
    ∃ z, tbl.Resolves s d (some z) := by
  obtain ⟨e, he⟩ := Ty.exists_uses hs.kind
  obtain ⟨hsx, hcx⟩ := h.reaches_of_resolves hs hx
  obtain ⟨hxy, hdy⟩ := h.reaches_of_resolves hxformed hy
  by_cases hde : d = e
  · subst hde
    obtain ⟨_, _, _, rfl⟩ := he
    exact ⟨_, resolves_self⟩
  · have hprimitive : (tbl.cls e).isPrimitive = false := by
      rcases eq_or_isPrimitive_of_resolves he hx with rfl | hprimitive
      · exact (eq_or_isPrimitive_of_resolves hcx hy).resolve_left hde
      · exact hprimitive
    obtain ⟨r, hr, -, hsome⟩ := h.exists_resolves (p := fun _ => True) (fun _ _ _ _ _ => trivial) hs
      trivial d
    obtain ⟨z, rfl⟩ := Option.ne_none_iff_exists'.mp
      (hsome e he hprimitive (h.inherits_of_reaches hs (hsx.trans hxy) he hdy))
    exact ⟨z, hr⟩

/-- Two uses of classes, one after the other. -/
theorem Regular.sub_of_invocations (h : tbl.Regular V) {N m} (htrans : tbl.TransUpTo V N)
    (hnm : n + m ≤ N)
    {c₁ c₂ c₃ args₁ args₂ args₃ ds es owner₁ owner₂ owner₃ o o' marks₁ marks₂ marks₃ ms'}
    (ha : tbl.Plain V (.declared c₁ args₁ owner₁ marks₁))
    (hb : tbl.Plain V (.declared c₂ args₂ owner₂ marks₂))
    (hc : tbl.Plain V (.declared c₃ args₃ owner₃ marks₃))
    (hab : tbl.Resolves (.declared c₁ args₁ owner₁ marks₁) c₂ (some (.declared c₂ ds o ms)))
    (habraw : args₂ = [] ∨ ds ≠ [])
    (habargs : ∀ y x, (y, x) ∈ args₂.zip ds → Contained (tbl.SubN n) x y)
    (hbc : tbl.Resolves (.declared c₂ args₂ owner₂ marks₂) c₃ (some (.declared c₃ es o' ms')))
    (hbcraw : args₃ = [] ∨ es ≠ [])
    (hbcargs : ∀ z y, (z, y) ∈ args₃.zip es → Contained (tbl.SubN m) y z) :
    tbl.Sub (.declared c₁ args₁ owner₁ marks₁) (.declared c₃ args₃ owner₃ marks₃) := by
  have hobeys := h.obeys
  have hainv := ha.1.invokes rfl
  have hcinv := hc.1.invokes rfl
  obtain ⟨hx, hxplaced, -⟩ := h.placed_of_resolves hainv ha.2 hab
  obtain ⟨hy, hyplaced, -⟩ := h.placed_of_resolves (hb.1.invokes rfl) hb.2 hbc
  -- What the first inherits as the second class has, as the third class, arguments contained in
  -- those of what the second inherits.
  have hfits := hb.fits_of_contained hx hxplaced habraw habargs
  obtain ⟨r, r', hleft, hright, hrel, -⟩ :=
    hobeys.exists_ascends (hobeys.passes_fits rfl h.conveys n) hfits c₃
  cases hbc.eq hright
  cases hrel with
  | @some x' _ hx' =>
    obtain ⟨⟨⟨hx'inv, -⟩, ⟨hx'placed, -⟩, hargs⟩, huses⟩ := hx'
    obtain ⟨_, as, _, _, _, rfl, heq, hargs⟩ := hargs
    cases heq
    -- The way that leads from the first to the third class directly leads to the same arguments.
    have hreaches := (hobeys.reaches_of_resolves hainv.formed hab).1.trans
      (hobeys.reaches_of_resolves hx.formed hleft).1
    obtain ⟨w, hr''⟩ := hobeys.exists_resolves_of_resolves hainv.formed hab hx.formed hleft
    obtain ⟨hwreaches, hwuses⟩ := hobeys.reaches_of_resolves hainv.formed hr''
    have hbare := hobeys.bare_eq_of_reaches h.wellScoped h.coherent hainv ha.isRaw hreaches
      hwreaches huses hwuses
    obtain ⟨as', o'', _, rfl, has, -⟩ := Ty.eq_declared_of_bare_eq hbare.symm
    cases (hobeys.invokes_of_reaches hainv hwreaches).owner_eq_none rfl
    refine .of_step (.invocation hr'' ?_ (fun z x hzx => ?_) fun x hx => nomatch hx)
    · refine hbcraw.imp_right fun hes has' => hes ?_
      rw [has', map_nil, eq_comm, map_eq_nil_iff] at has
      rw [← length_eq_zero_iff, ← hargs.length_eq, has, length_nil]
    · obtain ⟨z', x', hzx', hzz', hxx'⟩ := exists_mem_zip_of_bare_eq has.symm rfl hzx
      obtain ⟨y, hxy, hzy⟩ := exists_mem_zip_of_forall₂ hargs hzx'
      have hmem := of_mem_zip hzx'
      have hymem := (of_mem_zip hzy).2
      have hxadmits := hx'inv.admits hmem.2
      have hzadmits := hcinv.admits hmem.1
      have hcontained := htrans.contained_trans hnm hxadmits (hy.admits hymem) hzadmits
        (hx'placed.arg hmem.2) (hyplaced.arg hymem) (hc.2.arg hmem.1) hxy (hbcargs z' y hzy)
      obtain ⟨k, hk⟩ := hcontained.exists_subN
      exact (hk.of_admits hobeys hxadmits hzadmits hxx' hzz').mono fun _ _ hsub => ⟨k, hsub⟩

/-- A class without supertype expressions inherits only itself and the root class. -/
theorem Obeys.eq_or_eq_object_of_resolves {S} (h : tbl.Obeys S) (hs : tbl.Invokes S s) {d}
    (hc : Ty.Uses c s) (hexprs : tbl.supertypeExprs c = []) {x} (hx : tbl.Resolves s d (some x)) :
    d = c ∨ d = tbl.core.object := by
  obtain ⟨hreaches, huses⟩ := h.reaches_of_resolves hs.formed hx
  rcases Relation.ReflTransGen.cases_head (h.inherits_of_reaches hs.formed hreaches hc huses) with
    heq | ⟨e, hinherits, hpath⟩
  · exact .inl heq.symm
  · rcases hinherits with hextends | ⟨-, -, rfl⟩
    · exact absurd hextends (not_extends_of_nil hexprs e)
    · rcases Relation.ReflTransGen.cases_head hpath with heq | ⟨_, hinherits, -⟩
      · exact .inr heq.symm
      · exact absurd hinherits (h.not_inherits_object _)

/-! ### All rules -/

theorem widensTo_trans {c} (hab : a.widensTo b = true) (hbc : b.widensTo c = true) :
    a.widensTo c = true := by
  have htrans : ∀ p q r : Primitive, p.widensTo q = true → q.widensTo r = true →
      p.widensTo r = true := by
    intro p q r
    cases p <;> cases q <;> cases r <;> decide
  cases a with
  | primitive =>
    cases b with
    | primitive =>
      cases c with
      | primitive => exact htrans _ _ _ hab hbc
      | _ => cases hbc
    | _ => cases hab
  | _ => cases hab

/-- What a reference type other than an intersection is below is an intersection, member by member,
or again such a type. -/
theorem SubStep.meet_or_isSingle {R t} (h : tbl.SubStep R s t) (hs : s.isSingle = true) :
    (∃ n bounds, t = .intersection n bounds ∧ ∀ b ∈ bounds, R s b) ∨ t.isSingle = true := by
  cases h with
  | refl h => exact .inr (isSingle_of_bare_eq h ▸ hs)
  | meet h => exact .inl ⟨_, _, rfl, h⟩
  | member => cases hs
  | widens h => cases s <;> first | cases h | cases hs
  | null ht | bound ht | upper ht => exact .inr ht
  | root _ ht => exact .inr (isSingle_of_isObject ht)
  | component | array | invocation => exact .inr rfl

theorem Regular.transUpTo (h : tbl.Regular V) (N : Nat) : tbl.TransUpTo V N := by
  have hobeys := h.obeys
  have hleft {m : Nat} {a b c : Ty} (hb : tbl.Plain V b) (hc : tbl.Plain V c)
      (hab : a.bare = b.bare) (hbc : tbl.SubN m b c) : tbl.Sub a c :=
    ⟨m, hbc.of_bare_eq hobeys hb.1 hc.1 hab.symm rfl⟩
  have hright {n : Nat} {a b c : Ty} (ha : tbl.Plain V a) (hb : tbl.Plain V b)
      (hab : tbl.SubN n a b) (hbc : b.bare = c.bare) : tbl.Sub a c :=
    ⟨n, hab.of_bare_eq hobeys ha.1 hb.1 rfl hbc⟩
  have hroot {a c : Ty} (ha : a.isSingle = true) (hc : tbl.isObject c = true) : tbl.Sub a c :=
    .of_step (.root ha hc)
  have hobject {c : ClassId} {args : List Ty} {owner : Option Ty} {marks : List ClassId}
      (hc : c = tbl.core.object) : tbl.isObject (.declared c args owner marks) = true := by
    rw [hc, isObject, hobeys.rooted.name]
    rfl
  induction N with
  | zero =>
    intro n m a b c hnm _ hb hc hab hbc
    obtain ⟨rfl, -⟩ : n = 0 ∧ m = 0 := by omega
    exact hleft hb hc hab hbc
  | succ N ih =>
    intro n m a b c hnm ha hb hc hab hbc
    -- The rules that look at the first type alone, or at the last, reduce one premise.
    cases n with
    | zero => exact hleft hb hc hab hbc
    | succ n =>
    cases m with
    | zero => exact hright ha hb hab hbc
    | succ m =>
    have hmeet {k : Nat} {bounds : List Ty} (hc : tbl.Plain V (.intersection k bounds))
        (hbounds : ∀ x ∈ bounds, tbl.SubN m b x) : tbl.Sub a (.intersection k bounds) :=
      .of_step (.meet fun x hx => ih (by omega) ha hb (hc.member hx) hab (hbounds x hx))
    cases hab with
    | refl hab => exact hleft hb hc hab hbc
    | member hx hab => exact .of_step (.member hx (ih (by omega) (ha.member hx) hb hc hab hbc))
    | null hbsingle =>
      rcases hbc.meet_or_isSingle hbsingle with ⟨k, bounds, rfl, hbounds⟩ | hcsingle
      · exact hmeet hc hbounds
      · exact .of_step (.null hcsingle)
    | bound hbsingle hu hab =>
      rcases hbc.meet_or_isSingle hbsingle with ⟨k, bounds, rfl, hbounds⟩ | hcsingle
      · exact hmeet hc hbounds
      · exact .of_step (.bound hcsingle hu (ih (by omega) (h.plain_upperBound hu) hb hc hab hbc))
    | upper => exact absurd ha.1.2.top.1 Bool.false_ne_true
    | widens hab =>
      cases hbc with
      | refl hbc => exact hright ha hb (n := n + 1) (.widens hab) hbc
      | meet hbc => exact hmeet hc hbc
      | widens hbc => exact .of_step (.widens (widensTo_trans hab hbc))
      | root hbsingle => cases a <;> cases b <;> first | cases hab | cases hbsingle
      | _ => cases a <;> cases hab
    | meet hab =>
      cases hbc with
      | refl hbc => exact hright ha hb (n := n + 1) (.meet hab) hbc
      | meet hbc => exact hmeet hc hbc
      | member hx hbc => exact ih (by omega) ha (hb.member hx) hc (hab _ hx) hbc
      | widens hbc | root hbc => cases hbc
    | root hasingle hbroot =>
      cases hbc with
      | refl hbc => exact hroot hasingle (isObject_of_bare_eq hbc ▸ hbroot)
      | meet hbc => exact hmeet hc hbc
      | root _ hc => exact hroot hasingle hc
      | invocation hr =>
        have hclass := hobeys.rooted.unique _ (eq_of_beq hbroot)
        refine hroot hasingle (hobject ?_)
        rcases hobeys.eq_or_eq_object_of_resolves (hb.1.invokes rfl) ⟨_, _, _, rfl⟩
          (hclass ▸ hobeys.rooted.supertypeExprs) hr with heq | heq
        · exact heq.trans hclass
        · exact heq
      | widens hbc => cases b <;> first | cases hbc | cases hbroot
      | _ => cases hbroot
    | component hap hbp hab =>
      cases hbc with
      | refl hbc => exact hright ha hb (n := n + 1) (.component hap hbp hab) hbc
      | meet hbc => exact hmeet hc hbc
      | root _ hc => exact hroot rfl hc
      | widens hbc => cases hbc
      | component _ hcp hbc =>
        exact .of_step (.component hap hcp (ih (by omega) ha.component hb.component hc.component
          hab hbc))
      | array harray => exact .of_step (.array harray)
    | array harray =>
      cases hbc with
      | refl hbc => exact hright ha hb (n := n + 1) (.array harray) hbc
      | meet hbc => exact hmeet hc hbc
      | root _ hc => exact hroot rfl hc
      | widens hbc => cases hbc
      | invocation hr =>
        rcases hobeys.eq_or_eq_object_of_resolves (hb.1.invokes rfl) ⟨_, _, _, rfl⟩
          (h.arrays _ harray) hr with rfl | heq
        · exact .of_step (.array harray)
        · exact hroot rfl (hobject heq)
    | invocation hr hraw hargs =>
      cases hbc with
      | refl hbc => exact hright ha hb (n := n + 1) (.invocation hr hraw hargs ‹_›) hbc
      | meet hbc => exact hmeet hc hbc
      | root _ hc => exact hroot rfl hc
      | widens hbc => cases hbc
      | invocation hr' hraw' hargs' =>
        exact h.sub_of_invocations ih (by omega) ha hb hc hr hraw hargs hr' hraw' hargs'

/-- Subtyping is transitive. -/
theorem Regular.sub_trans (h : tbl.Regular V) {c} (ha : tbl.Plain V a) (hb : tbl.Plain V b)
    (hc : tbl.Plain V c) (hab : tbl.Sub a b) (hbc : tbl.Sub b c) :
    tbl.Sub a c := by
  obtain ⟨n, hab⟩ := hab
  obtain ⟨m, hbc⟩ := hbc
  exact h.transUpTo (n + m) (Nat.le_refl _) ha hb hc hab hbc

/-! ### The check -/

/-- If the check confirms that a type is below a second, and that below a third, then it does not
deny that the first is below the third, and confirms it with a large enough budget, provided there
are no lower bounds of wildcards or no intersections. -/
theorem isSubtype_trans (h : tbl.Regular V) {occurrences : Nat → TypeKind → Ty} {a b c : Ty}
    (ha : tbl.Plain V a) (hb : tbl.Plain V b) (hc : tbl.Plain V c)
    (haocc : a.Every (Ty.Recorded occurrences)) (hbocc : b.Every (Ty.Recorded occurrences))
    (hcocc : c.Every (Ty.Recorded occurrences)) {k l : Nat} (hab : tbl.isSubtype k a b = .ok true)
    (hbc : tbl.isSubtype l b c = .ok true) :
    (∀ n, Yields (tbl.isSubtype n a c) (· = true)) ∧
      (tbl.Tame .plain a c → ∃ n, ∀ k ≥ n, tbl.isSubtype k a c = .ok true) := by
  rw [isSubtype_eq_check ha.1 hb.1] at hab
  rw [isSubtype_eq_check hb.1 hc.1] at hbc
  have hsub := h.sub_trans ha hb hc ⟨k, h.obeys.subN_of_check rfl ha.1 hb.1 haocc hbocc hab⟩
    ⟨l, h.obeys.subN_of_check rfl hb.1 hc.1 hbocc hcocc hbc⟩
  simp only [isSubtype_eq_check ha.1 hc.1]
  exact ⟨hsub.yields_check h.obeys ha.1 hc.1, fun htame => (hsub.settles_of_tame htame).1⟩

set_option maxRecDepth 20000 in
/-- A variable bounded by a class, what the class is contained in, and what that inherits. -/
theorem isSubtype_trans_bound :
    let tbl : Table := {
      classes := #[
        { name := "java.lang.Object", simpleName := "Object", kind := .cls },
        { name := "p.A", simpleName := "A", kind := .cls, superclass := some (.named ⟨0⟩ []) },
        { name := "p.B", simpleName := "B", kind := .cls, superclass := some (.named ⟨1⟩ []) },
        { name := "p.N", simpleName := "N", kind := .interface,
          typeParameters := [{ name := "T" }] },
        { name := "p.L", simpleName := "L", kind := .interface, typeParameters := [{ name := "T" }],
          interfaces := [.applied ⟨3⟩ [.wildcard [.var ⟨.cls ⟨4⟩, 0⟩ []] [] []] none []] },
        { name := "p.D", simpleName := "D", kind := .cls, superclass := some (.named ⟨0⟩ []),
          typeParameters :=
            [{ name := "T", bounds := [.applied ⟨4⟩ [.named ⟨2⟩ []] none []] }] }] }
    let w : Ty := .wildcard 0 (.declared ⟨1⟩ [] none []) .null []
    let a : Ty := .var 0 ⟨.cls ⟨5⟩, 0⟩ []
    let b : Ty := .declared ⟨4⟩ [w] none []
    let c : Ty := .declared ⟨3⟩ [w] none []
    tbl.Regular (fun _ => True) ∧ tbl.isSubtype 8 a b = .ok true ∧
      tbl.isSubtype 8 b c = .ok true ∧ ∃ n, ∀ k ≥ n, tbl.isSubtype k a c = .ok true := by
  intro tbl w a b c
  have horderly : tbl.Orderly := orderly_of_isLayered (by rfl) (by rfl) (by rfl)
  have hobeys : tbl.Obeys .plain := horderly.obeys_of_tests (by rfl) (by rfl)
  have hcovariant : tbl.Obeys Shape.plain.covariant := horderly.obeys_of_tests (by rfl) (by rfl)
  have hregular : tbl.Regular fun _ => True := {
    obeys := hobeys
    arrays := horderly.arrays_of_testPatterns (by rfl)
    coherent := horderly.coherent_of_all (by rfl)
    wellScoped := hobeys.scoped_of_testPatterns (by rfl)
    conveys := conveys_of_tests (by rfl) (by rfl) (by rfl) }
  have hgrounded : tbl.Grounded := grounded_of_testBounds (by rfl)
  have hab : tbl.isSubtype 8 a b = .ok true := by rfl
  have hbc : tbl.isSubtype 8 b c = .ok true := by rfl
  have hrecorded (t : Ty) (ht : t.Every (fun x => x.occurrence = 0)) :
      t.Every (Ty.Recorded fun _ _ => .null) := ht.mono fun x hx hne => absurd hx hne
  refine ⟨hregular, hab, hbc, ?_⟩
  have htame : tbl.Tame .plain a c := .inl ⟨hgrounded, hcovariant, by decide, by decide⟩
  exact (isSubtype_trans hregular ⟨by decide, by decide⟩ ⟨by decide, by decide⟩
    ⟨by decide, by decide⟩ (hrecorded a (by decide)) (hrecorded b (by decide))
    (hrecorded c (by decide)) hab hbc).2 htame

set_option maxRecDepth 20000 in
/-- Each of the conditions matters. A supertype expression must not hand a type parameter on inside
an argument; no raw type may bound a variable, and no supertype may have an owner; and where there
are both intersections and lower bounds of wildcards, the check may not end. -/
theorem isSubtype_not_transitive :
    let tbl : Table := {
      classes := #[
        { name := "java.lang.Object", simpleName := "Object", kind := .cls },
        { name := "p.A", simpleName := "A", kind := .cls },
        { name := "p.N", simpleName := "N", kind := .interface,
          typeParameters := [{ name := "T" }] },
        { name := "p.K", simpleName := "K", kind := .interface, typeParameters := [{ name := "T" }],
          interfaces := [.applied ⟨2⟩ [.applied ⟨2⟩ [.var ⟨.cls ⟨3⟩, 0⟩ []] none []] none []] },
        { name := "p.C", simpleName := "C", kind := .cls, interfaces :=
            [.applied ⟨2⟩ [.applied ⟨2⟩ [.wildcard [] [.named ⟨4⟩ []] []] none []] none []] },
        { name := "p.F", simpleName := "F", kind := .cls, typeParameters := [{ name := "T" }],
          interfaces := [.applied ⟨2⟩ [.var ⟨.cls ⟨5⟩, 0⟩ []] none []] },
        { name := "p.S", simpleName := "S", kind := .interface,
          interfaces := [.applied ⟨2⟩ [.named ⟨1⟩ []] none []] },
        { name := "p.R", simpleName := "R", kind := .cls, typeParameters := [{ name := "T" }],
          interfaces := [.applied ⟨2⟩ [.named ⟨1⟩ []] none [], .named ⟨6⟩ []] },
        { name := "p.D", simpleName := "D", kind := .cls,
          typeParameters := [{ name := "T", bounds := [.named ⟨7⟩ []] }] },
        { name := "p.O", simpleName := "O", kind := .cls, typeParameters := [{ name := "T" }] },
        { name := "p.O.I", simpleName := "I", kind := .cls, enclosing := some ⟨9⟩,
          interfaces := [.applied ⟨2⟩ [.var ⟨.cls ⟨9⟩, 0⟩ []] none []] },
        { name := "p.E", simpleName := "E", kind := .cls, superclass :=
            some (.applied ⟨10⟩ [] (some (.applied ⟨9⟩ [.named ⟨1⟩ []] none [])) []) }] }
    let A : Ty := .declared ⟨1⟩ [] none []
    let N (a : Ty) : Ty := .declared ⟨2⟩ [a] none []
    let K (a : Ty) : Ty := .declared ⟨3⟩ [a] none []
    let C : Ty := .declared ⟨4⟩ [] none []
    let F (a : Ty) : Ty := .declared ⟨5⟩ [a] none []
    let any : Ty := .wildcard 0 tbl.objectType .null []
    let above : Ty := .wildcard 0 tbl.objectType C []
    let both : Ty := .intersection 0 [C, F above]
    let S : Ty := .declared ⟨6⟩ [] none []
    let bounded : Ty := .var 0 ⟨.cls ⟨8⟩, 0⟩ []
    let I : Ty := .declared ⟨10⟩ [] none []
    let E : Ty := .declared ⟨11⟩ [] none []
    let T : Ty := .var 0 ⟨.cls ⟨9⟩, 0⟩ []
    (tbl.isSubtype 8 (K A) (K any) = .ok true ∧ tbl.isSubtype 8 (K any) (N (N any)) = .ok true ∧
      tbl.isSubtype 8 (K A) (N (N any)) = .ok false) ∧
    (tbl.isSubtype 8 bounded S = .ok true ∧ tbl.isSubtype 8 S (N A) = .ok true ∧
      tbl.isSubtype 8 bounded (N A) = .ok false) ∧
    (tbl.isSubtype 8 E I = .ok true ∧ tbl.isSubtype 8 I (N T) = .ok true ∧
      tbl.isSubtype 8 E (N T) = .ok false) ∧
    (tbl.isSubtype 8 both (F above) = .ok true ∧ tbl.isSubtype 8 (F above) (N above) = .ok true ∧
      ∀ n, tbl.isSubtype n both (N above) = .error .exhausted) := by
  intro tbl A N K C F any above both S bounded I E T
  refine ⟨⟨rfl, rfl, rfl⟩, ⟨rfl, rfl, rfl⟩, ⟨rfl, rfl, rfl⟩, ⟨rfl, rfl, ?_⟩⟩
  -- Whether the class is below the last type depends on that very question.
  have hstep (n : Nat) (f : Relation → Ty → Ty → Result Bool)
      (hN : f .subtype (N above) tbl.objectType = .ok true)
      (hC : f .subtype C (N above) = .error .exhausted) :
      tbl.checkStep (n + 4) f .subtype C (N above) = .error .exhausted := by
    have hcontains : checkContains f above (N above) = .error .exhausted := by
      change (f .subtype (N above) tbl.objectType >>= _) = _
      rw [hN]
      exact hC
    change (checkContains f above (N above) >>= _) >>= _ = _
    rw [hcontains]
    rfl
  have hloop (n : Nat) : tbl.check n .subtype C (N above) = .error .exhausted := by
    induction n with
    | zero => rfl
    | succ n ih =>
      rcases n with _ | _ | _ | _ | n
      · rfl
      · rfl
      · rfl
      · rfl
      · exact hstep n _ rfl ih
  intro n
  rcases n with _ | n
  · rfl
  · change tbl.check n .subtype C (N above) >>= _ = _
    rw [hloop n]
    rfl

end Table

end NominalTypes
