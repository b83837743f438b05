import NominalTypes.Proofs.Shape

/-!
# Substitution in denoted types

Types that expressions denote have passed the checks of the constructors in all their layers, and
their variables and bounds are occurrences of their own (`Table.Denoted`). What substitution makes
of the outermost layer of a type is said once, by `Table.remakes_of_instantiate`; the rest follows
by induction over the layers. Substitution of arguments succeeds, equal arguments give equal types,
and in a fragment of the type language substitution is `Ty.subst` up to bare forms.
-/

namespace NominalTypes

open List

variable {c : ClassId} {marks : List ClassId} {ts : List Ty} {t : Ty}

namespace Ty

/-- The type is an occurrence of its own, and no captured variable. -/
def Fresh (t : Ty) : Prop :=
  t.occurrence = 0 ∧ ∀ token site upper lower marks, t ≠ captured token site upper lower marks

/-- The type can be put for a type parameter: it is a type argument, and what it gives way to can
bound a wildcard. -/
structure Suits (x : Ty) : Prop where
  isArgument : x.isArgument = true
  upper : Table.isBadBound x.orUpper = false
  lower : Table.isBadBound x.orLower = false

end Ty

namespace Table

variable (tbl : Table)

/-- The outermost layer of the type has passed the checks of its constructor, and is an occurrence
of its own. -/
def Denoted : Ty → Prop
  | .primitive _ _ => True
  | .void _ => True
  | .null => True
  | .array component _ => component.isPseudo = false ∧ component.isWildcard = false
  | .declared c args owner _ =>
    (args = [] ∨ args.length = (tbl.cls c).typeParameters.length) ∧
      (∀ a ∈ args, a.isArgument = true) ∧ ∀ o ∈ owner, o.kind = .declared
  | .var n _ _ => n = 0
  | .wildcard n upper lower _ =>
    n = 0 ∧ isBadBound upper = false ∧ isBadBound lower = false ∧
      (upper = tbl.objectType ∨ lower = .null)
  | .intersection n bounds => n = 0 ∧ 2 ≤ bounds.length
  | _ => False

/-- What the functions that build types have checked at the top of a type. -/
def Checked : Ty → Prop
  | .array component _ => component.isPseudo = false ∧ component.isWildcard = false
  | .declared c args _ _ =>
    (args = [] ∨ args.length = (tbl.cls c).typeParameters.length) ∧ ∀ a ∈ args, a.isArgument = true
  | .wildcard _ upper lower _ =>
    isBadBound upper = false ∧ isBadBound lower = false ∧
    (tbl.isObject upper = true ∨ lower = .null)
  | .intersection _ bounds => 2 ≤ bounds.length
  | .union _ alternatives => 2 ≤ alternatives.length
  | _ => True

/-- The same, where the root class bounds a wildcard as that of the core library. -/
def Passed : Ty → Prop
  | .wildcard _ upper lower _ =>
    isBadBound upper = false ∧ isBadBound lower = false ∧ (upper = tbl.objectType ∨ lower = .null)
  | t => tbl.Checked t

variable {tbl}

/-! ### What expressions denote -/

theorem makeArray_eq_ok {component} (h : makeArray component marks = .ok t) :
    t = .array component marks ∧ component.isPseudo = false ∧ component.isWildcard = false := by
  rw [makeArray] at h
  split_ifs at h with hbad
  cases h
  simpa using hbad

theorem makeDeclared_eq_ok {args owner} (h : tbl.makeDeclared c args owner marks = .ok t) :
    t = .declared c args owner marks ∧
      (args = [] ∨ args.length = (tbl.cls c).typeParameters.length) ∧
      ∀ a ∈ args, a.isArgument = true := by
  rw [makeDeclared] at h
  split_ifs at h with hcount
  split at h
  · cases h
  · rename_i hfind
    cases h
    refine ⟨rfl, ?_, fun a ha => ?_⟩
    · by_cases hargs : args = []
      · exact .inl hargs
      · refine .inr ?_
        simpa [hargs] using hcount
    · simpa using List.find?_eq_none.mp hfind a ha

theorem makeDeclared_ok {args} (owner : Option Ty) (marks : List ClassId)
    (hcount : args = [] ∨ args.length = (tbl.cls c).typeParameters.length)
    (hargs : ∀ a ∈ args, a.isArgument = true) :
    tbl.makeDeclared c args owner marks = .ok (.declared c args owner marks) := by
  have hfind : args.find? (fun a => !a.isArgument) = none := by
    rw [List.find?_eq_none]
    intro a ha
    simp [hargs a ha]
  have hif : ¬(!args.isEmpty && decide (args.length ≠ (tbl.cls c).typeParameters.length)) =
      true := by
    rcases hcount with rfl | hcount
    · simp
    · simp [hcount]
  rw [makeDeclared, if_neg hif, hfind]

theorem makeWildcard_eq_ok {upper lower} (h : tbl.makeWildcard upper lower marks = .ok t) :
    ∃ u l, t = .wildcard 0 u l marks ∧ isBadBound u = false ∧ isBadBound l = false ∧
      (u = tbl.objectType ∨ l = .null) ∧
      (u = tbl.objectType ∨ upper = some u) ∧ (l = .null ∨ lower = some l) := by
  rw [makeWildcard, explicitBounds] at h
  cases hu : upper.filter fun t => !tbl.isObject t <;>
    cases hl : lower.filter fun t => !t.isNull <;> rw [hu, hl] at h
  · cases h
    exact ⟨_, _, rfl, rfl, rfl, .inl rfl, .inl rfl, .inl rfl⟩
  · rename_i l
    dsimp only at h
    split at h
    · cases h
    · rename_i hfind
      cases h
      have hbad := List.find?_eq_none.mp hfind l (by simp)
      exact ⟨_, _, rfl, rfl, by simpa using hbad, .inl rfl, .inl rfl,
        .inr (Option.filter_eq_some_iff.mp hl).1⟩
  · rename_i u
    dsimp only at h
    split at h
    · cases h
    · rename_i hfind
      cases h
      have hbad := List.find?_eq_none.mp hfind u (by simp)
      exact ⟨_, _, rfl, by simpa using hbad, rfl, .inr rfl,
        .inr (Option.filter_eq_some_iff.mp hu).1, .inl rfl⟩
  · cases h

theorem makeIntersection_eq_ok {bounds} (h : makeIntersection bounds = .ok t) :
    t = .intersection 0 bounds ∧ 2 ≤ bounds.length := by
  rw [makeIntersection] at h
  split_ifs at h with hfew
  cases h
  exact ⟨rfl, Nat.le_of_not_lt hfew⟩

theorem makeUnion_eq_ok {alternatives} (h : makeUnion alternatives = .ok t) :
    t = .union 0 alternatives ∧ 2 ≤ alternatives.length := by
  rw [makeUnion] at h
  split_ifs at h with hfew
  cases h
  exact ⟨rfl, Nat.le_of_not_lt hfew⟩

theorem every_denoted_objectType : tbl.objectType.Every tbl.Denoted :=
  .leaf ⟨.inl rfl, forall_mem_nil _, fun _ h => by cases h⟩ rfl

theorem every_denoted_null : Ty.null.Every tbl.Denoted :=
  .leaf trivial rfl

/-- A class applied to its own type parameters. -/
theorem selfTypeIn_denoted (c : ClassId) (es : List ClassId) :
    (tbl.selfTypeIn c es).Every tbl.Denoted ∧ (tbl.selfTypeIn c es).kind = .declared := by
  have hargs (c : ClassId) :
      ∀ a ∈ (tbl.typeVars (.cls c)).map fun v => Ty.var 0 v [],
        a.isArgument = true ∧ a.Every tbl.Denoted := by
    intro a ha
    obtain ⟨v, -, rfl⟩ := mem_map.mp ha
    exact ⟨rfl, .leaf rfl rfl⟩
  have hlength (c : ClassId) : ((tbl.typeVars (.cls c)).map fun v => Ty.var 0 v []).length =
      (tbl.cls c).typeParameters.length := by
    simp [typeVars, typeParametersOf]
  have hself (c : ClassId) (owner : Option Ty)
      (howner : ∀ o ∈ owner, o.Every tbl.Denoted ∧ o.kind = .declared) :
      (Ty.declared c ((tbl.typeVars (.cls c)).map fun v => Ty.var 0 v []) owner []).Every
        tbl.Denoted :=
    .declared ⟨.inr (hlength c), fun a ha => (hargs c a ha).1, fun o ho => (howner o ho).2⟩
      (fun a ha => (hargs c a ha).2) fun o ho => (howner o ho).1
  induction es generalizing c with
  | nil =>
    refine ⟨hself c none fun o ho => ?_, rfl⟩
    cases ho
  | cons e es ih =>
    refine ⟨hself c _ fun o ho => ?_, rfl⟩
    split at ho
    · cases ho
    · cases ho
      exact ih e

theorem implicitOwner_denoted (c : ClassId) :
    ∀ o ∈ tbl.implicitOwner c, o.Every tbl.Denoted ∧ o.kind = .declared := by
  intro o ho
  rw [implicitOwner] at ho
  split at ho
  · split at ho
    · cases ho
    · cases ho
      exact selfTypeIn_denoted _ _
  · cases ho

theorem joinBounds_denoted {bound} (h : joinBounds ts = .ok bound)
    (hts : ∀ t ∈ ts, t.Every tbl.Denoted) : ∀ t ∈ bound, t.Every tbl.Denoted := by
  rw [joinBounds.eq_def] at h
  split at h
  · cases h
    intro t ht
    cases ht
  · cases h
    rintro t ⟨⟩
    exact hts _ mem_cons_self
  · obtain ⟨t, ht, h⟩ := bind_eq_ok.mp h
    cases h
    obtain ⟨rfl, hlength⟩ := makeIntersection_eq_ok ht
    rintro t ⟨⟩
    exact .intro ⟨rfl, hlength⟩ hts

/-- The owner of a use of the class, where the expression has this owner or none. -/
inductive OwnerOf (tbl : Table) (c : ClassId) : Option Expr → Option Ty → Prop
  | implied : OwnerOf tbl c none (tbl.implicitOwner c)
  | written {e d} (hd : tbl.descriptor e = .ok d) (hkind : d.kind = .declared) :
      OwnerOf tbl c (some e) (some d)

/-- How the outermost layer of an expression says that of the type it denotes. -/
inductive Describes (tbl : Table) : Expr → Ty → Prop
  | primitive {c p marks} (hc : (tbl.cls c).isPrimitive = true)
      (hp : Primitive.ofName? (tbl.cls c).name = some p) :
      Describes tbl (.named c marks) (.primitive p marks)
  | void {c : ClassId} {marks : List ClassId} (hc : (tbl.cls c).isPrimitive = true)
      (hname : (tbl.cls c).name = "void") :
      Describes tbl (.named c marks) (.void marks)
  | named {c : ClassId} {marks : List ClassId} (hc : (tbl.cls c).isPrimitive = false) :
      Describes tbl (.named c marks) (.declared c [] (tbl.implicitOwner c) marks)
  | array {e s marks} (hs : tbl.descriptor e = .ok s)
      (hpassed : s.isPseudo = false ∧ s.isWildcard = false) :
      Describes tbl (.array e marks) (.array s marks)
  | applied {c args as owner o marks} (hc : (tbl.cls c).isPrimitive = false)
      (has : tbl.descriptors args = .ok as)
      (hcount : as = [] ∨ as.length = (tbl.cls c).typeParameters.length)
      (hkinds : ∀ a ∈ as, a.isArgument = true) (howner : tbl.OwnerOf c owner o) :
      Describes tbl (.applied c args owner marks) (.declared c as o marks)
  | wildcard {upper lower us ls u l u' l' marks} (hus : tbl.descriptors upper = .ok us)
      (hu : joinBounds us = .ok u) (hls : tbl.descriptors lower = .ok ls)
      (hl : joinBounds ls = .ok l)
      (hmade : tbl.makeWildcard u l marks = .ok (.wildcard 0 u' l' marks)) :
      Describes tbl (.wildcard upper lower marks) (.wildcard 0 u' l' marks)
  | var {v marks} : Describes tbl (.var v marks) (.var 0 v marks)

theorem describes_of_descriptor {e} (h : tbl.descriptor e = .ok t) : tbl.Describes e t := by
  cases e with
  | named c marks =>
    rw [descriptor] at h
    split_ifs at h with hc
    · rw [primitiveType] at h
      split at h
      · cases h
        exact .primitive hc (by assumption)
      · split_ifs at h with hname
        cases h
        exact .void hc (beq_iff_eq.mp hname)
    · cases h
      exact .named ((Bool.not_eq_true _).mp hc)
  | array component marks =>
    obtain ⟨s, hs, h⟩ := bind_eq_ok.mp h
    obtain ⟨rfl, hpassed⟩ := makeArray_eq_ok h
    exact .array hs hpassed
  | applied c args owner marks =>
    have hmade {o} (howner : tbl.OwnerOf c owner o) (h : (do
        tbl.requireDeclaration c
        tbl.makeDeclared c (← tbl.descriptors args) o marks) = .ok t) :
        tbl.Describes (.applied c args owner marks) t := by
      obtain ⟨_, hrequire, h⟩ := bind_eq_ok.mp h
      obtain ⟨as, has, h⟩ := bind_eq_ok.mp h
      obtain ⟨rfl, hcount, hkinds⟩ := makeDeclared_eq_ok h
      rw [requireDeclaration] at hrequire
      split_ifs at hrequire with hc
      exact .applied ((Bool.not_eq_true _).mp hc) has hcount hkinds howner
    cases owner with
    | none => exact hmade .implied h
    | some e =>
      obtain ⟨d, hd, h⟩ := bind_eq_ok.mp h
      cases d with
      | declared => exact hmade (.written hd rfl) h
      | _ => cases h
  | wildcard upper lower marks =>
    obtain ⟨us, hus, h⟩ := bind_eq_ok.mp h
    obtain ⟨u, hu, h⟩ := bind_eq_ok.mp h
    obtain ⟨ls, hls, h⟩ := bind_eq_ok.mp h
    obtain ⟨l, hl, h⟩ := bind_eq_ok.mp h
    obtain ⟨u', l', rfl, -⟩ := makeWildcard_eq_ok h
    exact .wildcard hus hu hls hl h
  | var v marks =>
    cases h
    exact .var
  | foreign value => cases h

mutual

/-- What an expression denotes has passed all checks, in all its layers. -/
theorem descriptor_denoted (e : Expr) {t} (h : tbl.descriptor e = .ok t) : t.Every tbl.Denoted := by
  cases describes_of_descriptor h with
  | primitive | void => exact .leaf trivial rfl
  | named =>
    exact .declared ⟨.inl rfl, forall_mem_nil _, fun o ho => (implicitOwner_denoted _ o ho).2⟩
      (forall_mem_nil _) fun o ho => (implicitOwner_denoted _ o ho).1
  | array hs hpassed => exact .array hpassed (descriptor_denoted _ hs)
  | @applied c args as owner o _ _ has hcount hkinds howner =>
    have hdeclared : ∀ x ∈ o, x.Every tbl.Denoted ∧ x.kind = .declared := by
      cases howner with
      | implied => exact implicitOwner_denoted c
      | written hd hkind =>
        rintro x ⟨⟩
        exact ⟨descriptor_denoted _ hd, hkind⟩
    exact .declared ⟨hcount, hkinds, fun x hx => (hdeclared x hx).2⟩ (descriptors_denoted args has)
      fun x hx => (hdeclared x hx).1
  | wildcard hus hu hls hl hmade =>
    obtain ⟨_, _, ⟨⟩, hbadu, hbadl, hone, hu', hl'⟩ := makeWildcard_eq_ok hmade
    refine .wildcard ⟨rfl, hbadu, hbadl, hone⟩ ?_ ?_
    · rcases hu' with rfl | rfl
      · exact every_denoted_objectType
      · exact joinBounds_denoted hu (descriptors_denoted _ hus) _ rfl
    · rcases hl' with rfl | rfl
      · exact every_denoted_null
      · exact joinBounds_denoted hl (descriptors_denoted _ hls) _ rfl
  | var => exact .leaf rfl rfl

/-- What expressions denote has passed all checks. -/
theorem descriptors_denoted : ∀ (es : List Expr) {ts}, tbl.descriptors es = .ok ts →
    ∀ t ∈ ts, t.Every tbl.Denoted
  | [], ts, h => by
    cases h
    exact forall_mem_nil _
  | e :: es, ts, h => by
    obtain ⟨t, ht, h⟩ := bind_eq_ok.mp h
    obtain ⟨ts', hts', h⟩ := bind_eq_ok.mp h
    cases h
    exact forall_mem_cons.mpr ⟨descriptor_denoted e ht, descriptors_denoted es hts'⟩

end

theorem descriptors_eq_mapM (es : List Expr) : tbl.descriptors es = es.mapM tbl.descriptor := by
  induction es with
  | nil => rfl
  | cons e es ih => rw [descriptors, ih, mapM_cons]

/-- An expression that names a class denotes a use of the class, unless the class stands in for a
primitive type or `void`. -/
theorem kind_of_rawClass {e} (hc : tbl.rawClass e = .ok c) (ht : tbl.descriptor e = .ok t) :
    t.kind = .declared ∨ (t.isPrimitive || t.isNoType) = true := by
  cases describes_of_descriptor ht with
  | primitive | void => exact .inr rfl
  | named | applied => exact .inl rfl
  | _ => cases hc

/-! ### One layer of a substitution -/

theorem substitute_eq_ok {m} (h : tbl.substitute m s = .ok t) :
    m = [] ∧ t = s ∨ tbl.instantiate m s = .ok t := by
  rw [substitute] at h
  split_ifs at h with hempty
  · cases h
    exact .inl ⟨isEmpty_iff.mp hempty, rfl⟩
  · exact .inr h

theorem substitute_eq_self {m} (h : (t.isPrimitive || t.isNoType) = true) :
    tbl.substitute m t = .ok t := by
  rw [substitute]
  split
  · rfl
  · cases t <;> first | rfl | cases h

section Instantiate

variable {m m' : Mapping} {t' : Ty}

theorem explicitBounds_some (upper lower : Ty) :
    tbl.explicitBounds (some upper) (some lower) =
      (if tbl.isObject upper then none else some upper,
      if lower.isNull then none else some lower) := by
  have hu : (some upper).filter (fun t => !tbl.isObject t) =
      if tbl.isObject upper then none else some upper := by
    cases h : tbl.isObject upper <;> simp [Option.filter, h]
  have hl : (some lower).filter (fun t => !t.isNull) =
      if lower.isNull then none else some lower := by
    cases h : lower.isNull <;> simp [Option.filter, h]
  rw [explicitBounds, hu, hl]

private theorem eq_null_of_isNull (h : t.isNull = true) : t = .null := by
  cases t <;> first | rfl | cases h

/-- In a wildcard that is built from two bounds the root class is normalized. -/
theorem makeWildcard_some_eq_ok {upper lower}
    (h : tbl.makeWildcard (some upper) (some lower) marks = .ok t) :
    t = .wildcard 0 (if tbl.isObject upper then tbl.objectType else upper) lower marks := by
  rw [makeWildcard, explicitBounds_some] at h
  split_ifs at h ⊢ with hobject hnull hnull
  · cases h
    rw [eq_null_of_isNull hnull]
    rfl
  · dsimp only at h
    split at h
    · cases h
    · cases h
      rfl
  · dsimp only at h
    split at h
    · cases h
    · cases h
      rw [eq_null_of_isNull hnull]
      rfl

theorem makeWildcard_ok {upper lower} (marks : List ClassId) (hupper : isBadBound upper = false)
    (hlower : isBadBound lower = false) (hone : tbl.isObject upper = true ∨ lower = .null) :
    ∃ t, tbl.makeWildcard (some upper) (some lower) marks = .ok t := by
  rw [makeWildcard, explicitBounds_some]
  split_ifs with hobject hnull hnull
  · exact ⟨_, rfl⟩
  · exact ⟨.wildcard 0 tbl.objectType lower marks, by simp [hlower]⟩
  · exact ⟨.wildcard 0 upper .null marks, by simp [hupper]⟩
  · exact absurd (congrArg Ty.isNull (hone.resolve_left hobject)) hnull

theorem Passed.checked (hcore : tbl.isObject tbl.objectType = true) (h : tbl.Passed t) :
    tbl.Checked t := by
  cases t with
  | wildcard =>
    refine ⟨h.1, h.2.1, h.2.2.imp_left ?_⟩
    rintro rfl
    exact hcore
  | _ => exact h

theorem Passed.suits (h : tbl.Passed t) (hargument : t.isArgument = true) : t.Suits := by
  cases t with
  | wildcard n upper lower marks => exact ⟨rfl, h.1, h.2.1⟩
  | array | declared | captured | null | var => exact ⟨rfl, rfl, rfl⟩
  | _ => cases hargument

theorem Denoted.passed (h : tbl.Denoted t) : tbl.Passed t := by
  cases t with
  | array => exact h
  | declared => exact ⟨h.1, h.2.1⟩
  | wildcard | intersection => exact h.2
  | union => cases h
  | _ => trivial

/-- Substitution goes through all parts of what an expression denotes. -/
theorem Denoted.parts_eq (h : tbl.Denoted t) : t.visitedParts = t.children ∧ t.keptParts = [] := by
  cases t with
  | captured | executable => cases h
  | _ => exact ⟨rfl, rfl⟩

/-- A layer as the functions that build types leave it: it is an occurrence of its own, and the root
class bounds a wildcard as that of the core library. -/
def normalized (tbl : Table) : Ty → Ty
  | .wildcard _ upper lower marks =>
    .wildcard 0 (if tbl.isObject upper then tbl.objectType else upper) lower marks
  | .intersection _ bounds => .intersection 0 bounds
  | .union _ alternatives => .union 0 alternatives
  | t => t

/-- What substitution makes of a type, if it succeeds. -/
def outcome (tbl : Table) (m : Mapping) (t : Ty) : Ty :=
  (tbl.instantiate m t).toOption.getD t

theorem outcome_eq (h : tbl.instantiate m t = .ok t') : tbl.outcome m t = t' := by
  rw [outcome, h]
  rfl

/-- The second type is what substitution makes of the first by making its outermost layer anew. -/
structure Remakes (tbl : Table) (m : Mapping) (t t' : Ty) : Prop where
  isAffected : t.isAffected m id = true
  isVariable : t.isVariable = false
  parts : ∀ x ∈ t.visitedParts, tbl.instantiate m x = .ok (tbl.outcome m x)
  eq : t' = tbl.normalized (t.rebuild (tbl.outcome m))
  passed : tbl.Passed t'

theorem instantiateAll_eq_mapM (m : Mapping) (ts : List Ty) :
    tbl.instantiateAll m ts = ts.mapM (tbl.instantiate m) := by
  induction ts with
  | nil => rfl
  | cons t ts ih => rw [instantiateAll, ih, mapM_cons]

theorem instantiateAll_eq_ok {ts'} (h : tbl.instantiateAll m ts = .ok ts') :
    (∀ x ∈ ts, tbl.instantiate m x = .ok (tbl.outcome m x)) ∧ ts' = ts.map (tbl.outcome m) := by
  induction ts generalizing ts' with
  | nil =>
    cases h
    exact ⟨forall_mem_nil _, rfl⟩
  | cons t ts ih =>
    obtain ⟨t', ht, h⟩ := bind_eq_ok.mp h
    obtain ⟨ts', hts, h⟩ := bind_eq_ok.mp h
    cases h
    obtain rfl := outcome_eq ht
    obtain ⟨hall, rfl⟩ := ih hts
    exact ⟨forall_mem_cons.mpr ⟨ht, hall⟩, rfl⟩

theorem instantiateOwner_eq_ok {o o'} (h : tbl.instantiateOwner m o = .ok o') :
    (∀ x ∈ o.toList, tbl.instantiate m x = .ok (tbl.outcome m x)) ∧ o' = o.map (tbl.outcome m) := by
  cases o with
  | none =>
    cases h
    exact ⟨forall_mem_nil _, rfl⟩
  | some x =>
    obtain ⟨x', hx, h⟩ := bind_eq_ok.mp h
    cases h
    obtain rfl := outcome_eq hx
    exact ⟨forall_mem_singleton.mpr hx, rfl⟩

/-- Substitution leaves a type as it is, has another type for it, or makes its outermost layer
anew. -/
theorem remakes_of_instantiate (h : tbl.instantiate m t = .ok t') :
    t.isAffected m id = false ∧ t' = t ∨ (∃ n v marks, t = .var n v marks ∧ m.lookup v = some t') ∨
      tbl.Remakes m t t' := by
  cases t with
  | primitive | none | void | null | package | captured =>
    cases h
    exact .inl ⟨rfl, rfl⟩
  | var n v marks =>
    rw [instantiate] at h
    cases hx : m.lookup v with
    | none =>
      rw [hx] at h
      cases h
      exact .inl ⟨by rw [Ty.isAffected, hx]; rfl, rfl⟩
    | some x =>
      rw [hx] at h
      cases h
      exact .inr (.inl ⟨n, v, marks, rfl, hx⟩)
  | array component marks =>
    rw [instantiate] at h
    split_ifs at h with haffected
    · obtain ⟨s, hs, h⟩ := bind_eq_ok.mp h
      obtain rfl := outcome_eq hs
      obtain ⟨rfl, hpassed⟩ := makeArray_eq_ok h
      exact .inr (.inr ⟨haffected, rfl, forall_mem_singleton.mpr hs, rfl, hpassed⟩)
    · cases h
      exact .inl ⟨(Bool.not_eq_true _).mp haffected, rfl⟩
  | declared c args owner marks =>
    rw [instantiate] at h
    split_ifs at h with haffected
    · obtain ⟨args', hargs, h⟩ := bind_eq_ok.mp h
      obtain ⟨owner', howner, h⟩ := bind_eq_ok.mp h
      obtain ⟨hall, rfl⟩ := instantiateAll_eq_ok hargs
      obtain ⟨hown, rfl⟩ := instantiateOwner_eq_ok howner
      obtain ⟨rfl, hpassed⟩ := makeDeclared_eq_ok h
      exact .inr (.inr ⟨haffected, rfl, forall_mem_append.mpr ⟨hall, hown⟩, rfl, hpassed⟩)
    · cases h
      exact .inl ⟨(Bool.not_eq_true _).mp haffected, rfl⟩
  | wildcard n upper lower marks =>
    rw [instantiate] at h
    split_ifs at h with haffected
    · obtain ⟨u, hu, h⟩ := bind_eq_ok.mp h
      obtain ⟨l, hl, h⟩ := bind_eq_ok.mp h
      obtain rfl := outcome_eq hu
      obtain rfl := outcome_eq hl
      have heq := makeWildcard_some_eq_ok h
      obtain ⟨u', l', rfl, hbadu, hbadl, hone, -⟩ := makeWildcard_eq_ok h
      exact .inr (.inr ⟨haffected, rfl, forall_mem_cons.mpr ⟨hu, forall_mem_singleton.mpr hl⟩, heq,
        hbadu, hbadl, hone⟩)
    · cases h
      exact .inl ⟨(Bool.not_eq_true _).mp haffected, rfl⟩
  | intersection n bounds =>
    rw [instantiate] at h
    split_ifs at h with haffected
    · obtain ⟨bounds', hbounds, h⟩ := bind_eq_ok.mp h
      obtain ⟨hall, rfl⟩ := instantiateAll_eq_ok hbounds
      rw [map_map] at h
      obtain ⟨rfl, hpassed⟩ := makeIntersection_eq_ok h
      exact .inr (.inr ⟨haffected, rfl, hall, rfl, hpassed⟩)
    · cases h
      exact .inl ⟨(Bool.not_eq_true _).mp haffected, rfl⟩
  | union n alternatives =>
    rw [instantiate] at h
    split_ifs at h with haffected
    · obtain ⟨alternatives', halternatives, h⟩ := bind_eq_ok.mp h
      obtain ⟨hall, rfl⟩ := instantiateAll_eq_ok halternatives
      obtain ⟨rfl, hpassed⟩ := makeUnion_eq_ok h
      exact .inr (.inr ⟨haffected, rfl, hall, rfl, hpassed⟩)
    · cases h
      exact .inl ⟨(Bool.not_eq_true _).mp haffected, rfl⟩
  | executable e vars result parameters receiver thrown =>
    obtain ⟨result', hresult, h⟩ := bind_eq_ok.mp h
    obtain ⟨parameters', hparameters, h⟩ := bind_eq_ok.mp h
    obtain ⟨receiver', hreceiver, h⟩ := bind_eq_ok.mp h
    obtain ⟨thrown', hthrown, h⟩ := bind_eq_ok.mp h
    cases h
    obtain rfl := outcome_eq hresult
    obtain rfl := outcome_eq hreceiver
    obtain ⟨hall, rfl⟩ := instantiateAll_eq_ok hparameters
    obtain ⟨hall', rfl⟩ := instantiateAll_eq_ok hthrown
    exact .inr (.inr ⟨rfl, rfl, forall_mem_cons.mpr ⟨hresult, forall_mem_cons.mpr
      ⟨hreceiver, forall_mem_append.mpr ⟨hall, hall'⟩⟩⟩, rfl, trivial⟩)

namespace Remakes

variable (h : tbl.Remakes m t t')

include h

theorem kind_eq : t'.kind = t.kind := by
  rw [h.eq]
  cases t <;> rfl

theorem isVariable_eq : t'.isVariable = false := by
  rw [← h.isVariable, h.eq]
  cases t <;> rfl

theorem isObject_eq : tbl.isObject t' = tbl.isObject t := by
  rw [h.eq]
  cases t <;> rfl

theorem fresh : t'.Fresh := by
  obtain ⟨haffected, hvariable, -, rfl, -⟩ := h
  cases t with
  | var => cases hvariable
  | captured => cases haffected
  | _ => exact ⟨rfl, fun _ _ _ _ _ heq => by cases heq⟩

/-- A property of the new layer and of what its parts become is one of the whole. -/
theorem every {q} (hobject : tbl.objectType.Every q) (htop : q t')
    (hparts : ∀ x ∈ t.visitedParts, (tbl.outcome m x).Every q)
    (hkept : ∀ x ∈ t.keptParts, x.Every q) : t'.Every q := by
  have hchildren := Ty.forall_children_rebuild hparts hkept
  rw [h.eq] at htop ⊢
  generalize t.rebuild (tbl.outcome m) = s at htop hchildren
  cases s with
  | wildcard n upper lower marks =>
    refine .wildcard htop ?_ (hchildren lower (by simp [Ty.children]))
    split_ifs
    · exact hobject
    · exact hchildren upper mem_cons_self
  | _ => exact .intro htop hchildren

/-- Up to bare forms the layer is rebuilt, if its parts are and the root class is plain in them. -/
theorem bare_eq {g : Ty → Ty}
    (hparts : ∀ x ∈ t.visitedParts, (tbl.outcome m x).bare = g x.bare)
    (hplain : ∀ x ∈ t.visitedParts, tbl.isObject (tbl.outcome m x).orUpper = true →
      (tbl.outcome m x).orUpper.bare = tbl.objectType) : t'.bare = t.bare.rebuild g := by
  rw [h.eq, ← Ty.bare_rebuild hparts]
  cases t with
  | wildcard n upper lower marks =>
    simp only [Ty.rebuild, normalized, Ty.bare]
    split_ifs with hobject
    · rw [hplain upper mem_cons_self hobject]
      rfl
    · rfl
  | _ => rfl

end Remakes

/-- What substitution makes of a type is of the same kind, or has been put for it. -/
theorem kind_of_instantiate (h : tbl.instantiate m t = .ok t') :
    t'.kind = t.kind ∨ ∃ n v marks, t = .var n v marks ∧ m.lookup v = some t' := by
  rcases remakes_of_instantiate h with ⟨-, rfl⟩ | hvar | hremakes
  · exact .inl rfl
  · exact .inr hvar
  · exact .inl hremakes.kind_eq

/-- What holds of every layer that substitution makes holds of the whole type. -/
theorem every_of_instantiate {q} (hm : ∀ v x, m.lookup v = some x → x.Every q)
    (hobject : tbl.objectType.Every q) (ht : t.Every q)
    (hlayer : t.Visited fun x => ∀ x', tbl.instantiate m x = .ok x' → q x')
    (h : tbl.instantiate m t = .ok t') : t'.Every q := by
  induction t using Ty.children_induction generalizing t' with
  | step t ih =>
    have htop := hlayer.top t' h
    rcases remakes_of_instantiate h with ⟨-, rfl⟩ | ⟨n, v, marks, rfl, hx⟩ | hremakes
    · exact ht
    · exact hm v t' hx
    · refine hremakes.every hobject htop (fun x hx => ?_) fun x hx =>
        ht.part (t.keptParts_subset x hx)
      have hchild := t.visitedParts_subset x hx
      exact ih x hchild (ht.part hchild) (hlayer.part hx) (hremakes.parts x hx)

private theorem isSameOccurrence_zero (t : Ty) (v : TypeVarId) (marks : List ClassId) :
    t.isSameOccurrence (.var 0 v marks) = false := by
  rw [Ty.isSameOccurrence, Ty.occurrence.eq_def (.var 0 v marks)]
  cases h : t.occurrence <;> simp

theorem anyAffected_eq_any (settle : Ty → Ty) (ts : List Ty) :
    Ty.anyAffected m settle ts = ts.any (Ty.isAffected m settle) := by
  induction ts with
  | nil => rfl
  | cons t ts ih => rw [Ty.anyAffected, ih, any_cons]

/-- Whether a type is affected is a matter of the variables that are mapped. -/
theorem isAffected_congr (hm : ∀ v, (m.lookup v).isSome = (m'.lookup v).isSome)
    (ht : t.Every tbl.Denoted) (settle : Ty → Ty) :
    t.isAffected m settle = t.isAffected m' settle := by
  induction ht generalizing settle with
  | @intro t top parts ih =>
    have hlist {ts : List Ty} (hts : ∀ x ∈ ts, x ∈ t.children) (settle : Ty → Ty) :
        Ty.anyAffected m settle ts = Ty.anyAffected m' settle ts := by
      rw [anyAffected_eq_any, anyAffected_eq_any, Bool.eq_iff_iff, any_eq_true, any_eq_true]
      exact exists_congr fun x => and_congr_right fun hx => by rw [ih x (hts x hx)]
    cases t with
    | var n v marks =>
      cases top
      have hv := hm v
      rw [Ty.isAffected, Ty.isAffected]
      cases h : m.lookup v <;> cases h' : m'.lookup v <;> simp_all [isSameOccurrence_zero]
    | array component marks => exact ih component mem_cons_self _
    | declared c args owner marks =>
      rw [Ty.isAffected, Ty.isAffected, @hlist args fun x hx => mem_append_left _ hx]
      cases owner with
      | none => rfl
      | some o => exact congrArg _ (ih o (mem_append_right _ mem_cons_self) _)
    | wildcard n upper lower marks =>
      rw [Ty.isAffected, Ty.isAffected, ih upper mem_cons_self,
        ih lower (mem_cons_of_mem _ mem_cons_self)]
    | intersection n bounds => rw [Ty.isAffected, Ty.isAffected, @hlist bounds fun x hx => hx]
    | primitive | void | null => rfl
    | none | captured | union | executable | package => cases top

/-- If a type is not affected, then neither are its parts, as they stand in it. -/
theorem parts_of_not_isAffected {settle} (h : t.isAffected m settle = false) :
    ∀ x ∈ t.visitedParts, ∃ settle', (settle' = id ∨ t.stems ≠ []) ∧
      x.isAffected m settle' = false := by
  have hlist {f : Ty → Ty} {ts : List Ty} (h : Ty.anyAffected m f ts = false) :
      ∀ x ∈ ts, x.isAffected m f = false := by
    rw [anyAffected_eq_any, any_eq_false] at h
    exact fun x hx => by simpa using h x hx
  cases t with
  | array component marks =>
    exact forall_mem_singleton.mpr ⟨_, .inr (cons_ne_nil _ _), h⟩
  | declared c args owner marks =>
    rw [Ty.isAffected, Bool.or_eq_false_iff] at h
    refine forall_mem_append.mpr ⟨fun x hx => ⟨id, .inl rfl, hlist h.1 x hx⟩, fun o ho => ?_⟩
    cases owner with
    | none => cases ho
    | some o =>
      rw [mem_singleton.mp ho]
      exact ⟨id, .inl rfl, h.2⟩
  | wildcard n upper lower marks =>
    rw [Ty.isAffected, Bool.or_eq_false_iff] at h
    exact forall_mem_cons.mpr ⟨⟨_, .inr (cons_ne_nil _ _), h.1⟩,
      forall_mem_singleton.mpr ⟨_, .inr (cons_ne_nil _ _), h.2⟩⟩
  | intersection n bounds =>
    rw [Ty.isAffected, Bool.or_eq_false_iff] at h
    exact fun x hx => ⟨_, .inr (ne_nil_of_mem hx), hlist h.2 x hx⟩
  | union n alternatives => exact fun x hx => ⟨id, .inl rfl, hlist h x hx⟩
  | executable => cases h
  | _ => exact forall_mem_nil _

/-- A type that substitution leaves alone has no variable that is mapped. -/
theorem over_of_not_isAffected {settle} (ht : t.Every tbl.Denoted)
    (h : t.isAffected m settle = false) : t.Every (Ty.Over fun v => m.lookup v = none) := by
  induction ht generalizing settle with
  | @intro t top parts ih =>
    refine .intro (fun n v marks heq => ?_) fun x hx => ?_
    · subst heq
      cases top
      rw [Ty.isAffected] at h
      cases hv : m.lookup v with
      | none => rfl
      | some x => simp [hv, isSameOccurrence_zero] at h
    · obtain ⟨_, -, hx'⟩ := parts_of_not_isAffected h x (top.parts_eq.1 ▸ hx)
      exact ih x hx hx'

/-! ### Substitution succeeds -/

/-- The root class remains the root class. -/
private theorem isObject_orUpper_of_instantiate (hobject : tbl.isObject t = true)
    (h : tbl.instantiate m t = .ok t') : tbl.isObject t'.orUpper = true := by
  have hupper {x : Ty} (hx : tbl.isObject x = true) : tbl.isObject x.orUpper = true := by
    cases x with
    | wildcard => cases hx
    | _ => exact hx
  rcases remakes_of_instantiate h with ⟨-, rfl⟩ | ⟨_, _, _, rfl, -⟩ | hremakes
  · exact hupper hobject
  · cases hobject
  · exact hupper (hremakes.isObject_eq.trans hobject)

section Exists

variable (hm : ∀ v x, m.lookup v = some x → x.Suits)
include hm

private theorem isBadBound_of_instantiate (hbound : isBadBound t = false)
    (h : tbl.instantiate m t = .ok t') :
    isBadBound t'.orUpper = false ∧ isBadBound t'.orLower = false := by
  rcases kind_of_instantiate h with hkind | ⟨_, v, _, -, hx⟩
  · rw [← isBadBound_of_kind_eq hkind] at hbound
    have hwildcard : t'.isWildcard = false := by
      rw [isBadBound, Bool.or_eq_false_iff, Bool.or_eq_false_iff] at hbound
      exact hbound.1.1
    rw [Ty.orUpper_eq_self hwildcard, Ty.orLower_eq_self hwildcard]
    exact ⟨hbound, hbound⟩
  · exact ⟨(hm v t' hx).upper, (hm v t' hx).lower⟩

private theorem isComponent_of_instantiate (hpseudo : t.isPseudo = false)
    (hwildcard : t.isWildcard = false) (h : tbl.instantiate m t = .ok t') :
    (t'.orUpper.isPseudo || t'.orUpper.isWildcard) = false := by
  rcases kind_of_instantiate h with hkind | ⟨_, v, _, -, hx⟩
  · rw [← Ty.isPseudo_of_kind_eq hkind] at hpseudo
    rw [← Ty.isWildcard_of_kind_eq hkind] at hwildcard
    rw [Ty.orUpper_eq_self hwildcard, hpseudo, hwildcard, Bool.or_self]
  · have hbound := (hm v t' hx).upper
    rw [isBadBound, Bool.or_eq_false_iff, Bool.or_comm] at hbound
    exact hbound.1

private theorem isArgument_of_instantiate (hargument : t.isArgument = true)
    (h : tbl.instantiate m t = .ok t') : t'.isArgument = true := by
  rcases kind_of_instantiate h with hkind | ⟨_, v, _, -, hx⟩
  · rw [Ty.isArgument_of_kind_eq hkind, hargument]
  · exact (hm v t' hx).isArgument

/-- What can be put for a type parameter stays so. -/
theorem suits_of_instantiate (ht : t.Suits) (h : tbl.instantiate m t = .ok t') : t'.Suits := by
  have hargument := isArgument_of_instantiate hm ht.isArgument h
  rcases remakes_of_instantiate h with ⟨-, rfl⟩ | ⟨_, v, _, -, hx⟩ | hremakes
  · exact ht
  · exact hm v t' hx
  · exact hremakes.passed.suits hargument

/-- Substitution in types that passed the checks succeeds. -/
theorem exists_instantiate (ht : t.Every tbl.Checked) : ∃ t', tbl.instantiate m t = .ok t' := by
  induction ht with
  | @intro t top parts ih =>
    have hlist {ts : List Ty} (hts : ∀ x ∈ ts, x ∈ t.children) :
        ∃ ts', tbl.instantiateAll m ts = .ok ts' ∧
          Forall₂ (fun x x' => tbl.instantiate m x = .ok x') ts ts' := by
      obtain ⟨ts', hts'⟩ := exists_mapM_eq_ok fun x hx => ih x (hts x hx)
      exact ⟨ts', (instantiateAll_eq_mapM m ts).trans hts', mapM_eq_ok.mp hts'⟩
    cases t with
    | var n v marks => exact ⟨_, rfl⟩
    | array component marks =>
      obtain ⟨s, hs⟩ := ih component mem_cons_self
      have hcomponent := isComponent_of_instantiate hm top.1 top.2 hs
      rw [instantiate]
      split_ifs
      · rw [hs]
        refine ⟨.array s.orUpper marks, ?_⟩
        change makeArray s.orUpper marks = _
        rw [makeArray, hcomponent]
        rfl
      · exact ⟨_, rfl⟩
    | declared c args owner marks =>
      obtain ⟨hcount, hargument⟩ := top
      obtain ⟨args', hargs', hall⟩ := @hlist args fun x hx => mem_append_left _ hx
      have howner : ∃ owner', tbl.instantiateOwner m owner = .ok owner' := by
        cases owner with
        | none => exact ⟨none, rfl⟩
        | some o =>
          obtain ⟨o', ho⟩ := ih o (mem_append_right _ mem_cons_self)
          exact ⟨some o', by rw [instantiateOwner, ho]; rfl⟩
      obtain ⟨owner', howner'⟩ := howner
      rw [instantiate]
      split_ifs
      · rw [hargs', howner']
        refine ⟨_, makeDeclared_ok owner' marks ?_ fun a ha => ?_⟩
        · rwa [← length_eq_zero_iff, ← hall.length_eq, length_eq_zero_iff]
        · obtain ⟨b, hb, hba⟩ := exists_of_forall₂_right hall ha
          exact isArgument_of_instantiate hm (hargument b hb) hba
      · exact ⟨_, rfl⟩
    | wildcard n upper lower marks =>
      obtain ⟨hbadu, hbadl, hone⟩ := top
      obtain ⟨u, hu⟩ := ih upper mem_cons_self
      obtain ⟨l, hl⟩ := ih lower (mem_cons_of_mem _ mem_cons_self)
      have hone' : tbl.isObject u.orUpper = true ∨ l.orLower = .null := by
        refine hone.imp (fun hobject => isObject_orUpper_of_instantiate hobject hu) ?_
        rintro rfl
        cases hl
        rfl
      rw [instantiate]
      split_ifs
      · rw [hu, hl]
        exact makeWildcard_ok marks (isBadBound_of_instantiate hm hbadu hu).1
          (isBadBound_of_instantiate hm hbadl hl).2 hone'
      · exact ⟨_, rfl⟩
    | intersection n bounds =>
      obtain ⟨bounds', hbounds', hall⟩ := @hlist bounds fun x hx => hx
      rw [instantiate]
      split_ifs
      · rw [hbounds']
        refine ⟨.intersection 0 (bounds'.map Ty.orUpper), if_neg ?_⟩
        rw [length_map, ← hall.length_eq]
        exact Nat.not_lt.mpr top
      · exact ⟨_, rfl⟩
    | union n alternatives =>
      obtain ⟨alternatives', halternatives', hall⟩ := @hlist alternatives fun x hx => hx
      rw [instantiate]
      split_ifs
      · rw [halternatives']
        exact ⟨.union 0 alternatives', if_neg (hall.length_eq ▸ Nat.not_lt.mpr top)⟩
      · exact ⟨_, rfl⟩
    | executable e vars result parameters receiver thrown =>
      obtain ⟨result', hresult⟩ := ih result (by simp [Ty.children])
      obtain ⟨parameters', hparameters, -⟩ := @hlist parameters (by simp +contextual [Ty.children])
      obtain ⟨receiver', hreceiver⟩ := ih receiver (by simp [Ty.children])
      obtain ⟨thrown', hthrown, -⟩ := @hlist thrown (by simp +contextual [Ty.children])
      rw [instantiate, hresult, hparameters, hreceiver, hthrown]
      exact ⟨_, rfl⟩
    | _ => exact ⟨_, rfl⟩

end Exists

/-! ### Equal arguments -/

theorem isObject_eq_of_same {s} (h : s.same t = true) : tbl.isObject s = tbl.isObject t := by
  cases s with
  | declared c args owner marks =>
    obtain ⟨_, _, _, rfl, -⟩ := Ty.exists_eq_declared_of_same h
    rfl
  | _ =>
    cases t with
    | declared => cases h
    | _ => rfl

theorem same_normalized_rebuild {f g : Ty → Ty} (ht : tbl.Denoted t)
    (h : ∀ x ∈ t.children, (f x).same (g x) = true) :
    (tbl.normalized (t.rebuild f)).same (tbl.normalized (t.rebuild g)) = true := by
  have hall {ts : List Ty} (hts : ∀ x ∈ ts, x ∈ t.children) :
      Forall₂ (fun x y => x.same y = true) (ts.map f) (ts.map g) := by
    rw [forall₂_map_left_iff, forall₂_map_right_iff]
    exact forall₂_same.mpr fun x hx => h x (hts x hx)
  cases t with
  | array component marks => exact Ty.same_orUpper (h component mem_cons_self)
  | declared c args owner marks =>
    simp only [Ty.rebuild, normalized, Ty.same, beq_self_eq_true,
      Ty.sameAll_of_forall₂ (hall fun x hx => mem_append_left _ hx)]
    cases owner with
    | none => rfl
    | some o => exact h o (mem_append_right _ mem_cons_self)
  | wildcard n upper lower marks =>
    have hupper := Ty.same_orUpper (h upper mem_cons_self)
    have hlower := Ty.same_orLower (h lower (mem_cons_of_mem _ mem_cons_self))
    simp only [Ty.rebuild, normalized, Ty.same, hlower, ← isObject_eq_of_same hupper, Bool.and_true]
    split_ifs
    · exact Ty.same_refl _
    · exact hupper
  | intersection n bounds =>
    refine Ty.sameAll_of_forall₂ ?_
    rw [forall₂_map_left_iff, forall₂_map_right_iff]
    exact forall₂_same.mpr fun x hx => Ty.same_orUpper (h x hx)
  | var | primitive | void | null => exact Ty.same_refl _
  | none | captured | union | executable | package => cases ht

/-- Equal types that are put for the same variables give equal types. -/
theorem same_of_instantiate {s s'}
    (hm : ∀ v, Option.Rel (fun x y => x.same y = true) (m.lookup v) (m'.lookup v))
    (ht : t.Every tbl.Denoted) (hs : tbl.instantiate m t = .ok s)
    (hs' : tbl.instantiate m' t = .ok s') : s.same s' = true := by
  have hdomain (v : TypeVarId) : (m.lookup v).isSome = (m'.lookup v).isSome := by
    have hv := hm v
    generalize m.lookup v = o, m'.lookup v = o' at hv
    cases hv <;> rfl
  induction ht generalizing s s' with
  | @intro t top parts ih =>
    have haffected := isAffected_congr hdomain (.intro top parts) id
    cases hvariable : t.isVariable with
    | true =>
      obtain ⟨n, v, marks, rfl⟩ := Ty.exists_eq_var hvariable
      cases hs
      cases hs'
      have hv := hm v
      generalize m.lookup v = o, m'.lookup v = o' at hv
      cases hv with
      | none => exact Ty.same_refl _
      | some hxy => exact hxy
    | false =>
      rcases remakes_of_instantiate hs with ⟨h, rfl⟩ | ⟨_, _, _, rfl, -⟩ | h
      · rcases remakes_of_instantiate hs' with ⟨-, rfl⟩ | ⟨_, _, _, rfl, -⟩ | h'
        · exact Ty.same_refl _
        · cases hvariable
        · cases (haffected.symm.trans h).symm.trans h'.isAffected
      · cases hvariable
      · rcases remakes_of_instantiate hs' with ⟨h', rfl⟩ | ⟨_, _, _, rfl, -⟩ | h'
        · cases (haffected.symm.trans h.isAffected).symm.trans h'
        · cases hvariable
        · rw [h.eq, h'.eq]
          refine same_normalized_rebuild top fun x hx => ?_
          have hvisited := top.parts_eq.1.symm ▸ hx
          exact ih x hx (h.parts x hvisited) (h'.parts x hvisited)

/-! ### Substitution within a fragment -/

theorem Denoted.fresh (h : tbl.Denoted t) : t.Fresh := by
  refine ⟨?_, fun _ _ _ _ _ heq => ?_⟩
  · cases t with
    | var | wildcard | intersection => simp_all [Denoted, Ty.occurrence]
    | union => cases h
    | _ => rfl
  · subst heq
    cases h

/-- The second type is what replacing the variables makes of the first, up to bare forms, and its
new layers are occurrences of their own. -/
structure Replaces (m : Mapping) (t t' : Ty) : Prop where
  bare_eq : t'.bare = (t.subst fun v => m.lookup v).bare
  every : ∀ q : Ty → Prop, (∀ x : Ty, x.Fresh → q x) → (∀ v x, m.lookup v = some x → x.Every q) →
    t'.Every q

theorem Replaces.self {S} (hdenoted : t.Every tbl.Denoted) (hlayer : t.Every (tbl.Layer S))
    (hvars : t.Every (Ty.Over fun v => m.lookup v = none)) : Replaces m t t where
  bare_eq := by rw [subst_eq_self hlayer hvars]
  every q hq _ := hdenoted.mono fun x hx => hq x hx.fresh

theorem Denoted.isLayered (h : tbl.Denoted t) (hvariable : t.isVariable = false) :
    t.isLayered = true := by
  cases t with
  | var => cases hvariable
  | union | executable => cases h
  | _ => rfl

/-- Within a fragment, substitution in what an expression denotes replaces the variables. -/
theorem replaces_of_instantiate (hroot : tbl.Rooted) {S}
    (hm : ∀ v x, m.lookup v = some x → tbl.Admits S x) (hdenoted : t.Every tbl.Denoted)
    (hlayer : t.Every (tbl.Layer S)) (h : tbl.instantiate m t = .ok t') : Replaces m t t' := by
  induction hdenoted generalizing t' with
  | @intro t top parts ih =>
    have hdenoted : t.Every tbl.Denoted := .intro top parts
    rcases remakes_of_instantiate h with ⟨haffected, rfl⟩ | ⟨n, v, marks, rfl, hx⟩ | hremakes
    · exact .self hdenoted hlayer (over_of_not_isAffected hdenoted haffected)
    · refine ⟨?_, fun q hq hv => hv v t' hx⟩
      rw [Ty.subst, hx]
      rfl
    have hreplaces (x : Ty) (hx : x ∈ t.visitedParts) : Replaces m x (tbl.outcome m x) :=
      have hchild := t.visitedParts_subset x hx
      ih x hchild (hlayer.part hchild) (hremakes.parts x hx)
    refine ⟨?_, fun q hq hv => ?_⟩
    · have hbare (x : Ty) := (Ty.bare_subst_bare (fun v => m.lookup v) x).symm
      rw [Ty.subst_of_isLayered (top.isLayered hremakes.isVariable),
        Ty.bare_rebuild (g := fun y => (y.subst fun v => m.lookup v).bare) fun x _ => hbare x]
      refine hremakes.bare_eq (fun x hx => (hreplaces x hx).bare_eq.trans (hbare x))
        fun x hx hobject => ?_
      -- Putting the core library's root class for a use of the root class keeps bare forms.
      have hlayers := (every_layer_subst hm (hlayer.part (t.visitedParts_subset x hx))).of_bare_eq
        (fun _ _ => Layer.of_bare_eq) (hreplaces x hx).bare_eq.symm
      exact hroot.bare_eq hlayers.orUpper.top hobject
    · refine hremakes.every (.leaf (hq _ ⟨rfl, by rintro _ _ _ _ _ ⟨⟩⟩) rfl) (hq _ hremakes.fresh)
        (fun x hx => (hreplaces x hx).every q hq hv) ?_
      rw [top.parts_eq.2]
      exact forall_mem_nil _

end Instantiate

end Table

end NominalTypes
