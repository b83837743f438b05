import NominalTypes.Member.View
import NominalTypes.Proofs.Composition
import NominalTypes.Proofs.Criteria

/-!
# Supertypes and members of instances

Arguments may be filled in before or after going up: what a type with substituted arguments inherits
is what the type inherits, with the substitution carried out there. The same holds of the members
seen from the type, as long as the class that declares a member is not seen raw.

This is about tables in which the expressions of a class mention only its own type parameters, as
those of top-level and static classes do (`Table.Static`). One step up substitutes the arguments of
a type into such expressions, so that the composition of substitutions applies at each step; the
induction along the way up is that of `Table.Orderly.exists_ascends`.
-/

namespace NominalTypes

open List

variable {c : ClassId} {x : Element} {marks : List ClassId} {args : List Ty} {owner : Option Ty}
  {v : TypeVarId}

/-- The declarations whose type parameters the type of a field, parameter or executable may mention:
the class that declares it, and the executable. -/
def Element.generics : Element → List GenericId
  | .field f => [.cls f.cls]
  | .executable e => [.cls e.cls, .executable e]
  | .parameter p => [.cls p.executable.cls, .executable p.executable]
  | _ => []

/-- The bounds of an intersection. -/
def Ty.conjuncts : Ty → List Ty
  | intersection _ bounds => bounds
  | _ => []

namespace Table

variable (tbl : Table)

/-- The type mentions only variables with the property. In it the root class has no owner, and no
wildcard bounds an intersection. -/
def Confined (p : TypeVarId → Prop) (t : Ty) : Prop :=
  t.Every fun x => x.Over p ∧ (tbl.isObject x = true → x.bare = tbl.objectType) ∧
    ∀ b ∈ x.conjuncts, b.isWildcard = false

/-- The supertype expressions of a class mention only type parameters of its own, as those of
top-level and static classes do. -/
def Static : Prop :=
  ∀ c ps, tbl.descriptors (tbl.supertypeExprs c) = .ok ps →
    ∀ p ∈ ps, tbl.Confined (· ∈ tbl.typeVars (.cls c)) p

/-- The type of a field, parameter or executable mentions only type parameters of the class that
declares it and of the executable. -/
def IsLocal (x : Element) (p : Ty) : Prop :=
  tbl.Confined (fun v => ∃ g ∈ x.generics, v ∈ tbl.typeVars g) p

/-- The way up to a class leads from the second type to what substitution makes of that to which it
leads from the first, or from both to none. -/
def ResolvesWith (m : Mapping) (t t' : Ty) (target : ClassId) : Prop :=
  ∃ r r', Settles (fun k => (tbl.resolveSupertype k t target : Result (Option Ty))) r ∧
    Settles (fun k => (tbl.resolveSupertype k t' target : Result (Option Ty))) r' ∧
    Option.Rel (fun s s' => ∃ u, tbl.substitute m s = .ok u ∧ s'.same u = true) r r'

/-- The type of a member, seen from the second type, is what substitution makes of its type seen
from the first. -/
def SeenWith (m : Mapping) (t t' : Ty) (x : Element) : Prop :=
  ∃ y y' u, Settles (fun k => tbl.memberType k t x) y ∧
    Settles (fun k => tbl.memberType k t' x) y' ∧ tbl.substitute m y = .ok u ∧ y'.same u = true

variable {tbl} {occurrences : Nat → TypeKind → Ty} {vs : TypeVarId → Prop} {p t : Ty}

/-! ### Confined types -/

instance decidableBareEqObject (tbl : Table) (t : Ty) : Decidable (t.bare = tbl.objectType) :=
  match t with
  | .declared c args owner marks =>
    decidable_of_iff (c = tbl.core.object ∧ args.isEmpty = true ∧ owner.isNone = true) (by
      rw [Ty.bare_declared, objectType]
      simp)
  | .primitive _ _ | .none | .void _ | .null | .array _ _ | .var _ _ _ | .wildcard _ _ _ _
  | .captured _ _ _ _ _ | .intersection _ _ | .union _ _ | .executable _ _ _ _ _ _ | .package _ =>
    isFalse fun h => nomatch h

instance decidableConfined (tbl : Table) (p : TypeVarId → Prop) [DecidablePred p] :
    DecidablePred (tbl.Confined p) := fun t =>
  inferInstanceAs (Decidable (t.Every fun x => x.Over p ∧
    (tbl.isObject x = true → x.bare = tbl.objectType) ∧ ∀ b ∈ x.conjuncts, b.isWildcard = false))

instance decidableIsLocal (tbl : Table) (x : Element) : DecidablePred (tbl.IsLocal x) := fun t =>
  inferInstanceAs (Decidable (tbl.Confined (fun v => ∃ g ∈ x.generics, v ∈ tbl.typeVars g) t))

/-- That supertype expressions mention only type parameters of their own class can be tested. -/
theorem static_of_testPatterns
    (h : tbl.testPatterns (fun c p => decide (tbl.Confined (· ∈ tbl.typeVars (.cls c)) p)) = true) :
    tbl.Static :=
  fun _ _ hps p hp => of_decide_eq_true (forall_of_testPatterns h hps p hp)

theorem genuine_of_denoted (hcore : tbl.isObject tbl.objectType = true) (hp : p.Every tbl.Denoted)
    (hconfined : tbl.Confined vs p) : tbl.Genuine occurrences p := by
  induction hp with
  | @intro p top parts ih =>
    have hfresh : p.Recorded occurrences := fun hne => absurd top.fresh.1 hne
    refine .intro ⟨?_, hfresh, hconfined.top.2.1⟩ fun x hx => ih x hx (hconfined.part hx)
    cases p with
    | array => exact top
    | declared => exact ⟨top.1, top.2.1⟩
    | wildcard n upper lower marks =>
      refine ⟨top.2.1, top.2.2.1, top.2.2.2.imp_left fun h => ?_⟩
      rw [h, hcore]
    | intersection => exact top.2
    | union => cases top
    | _ => trivial

/-- Where no wildcard has to give way, a type in which nothing is replaced stays as it is. -/
theorem replace_eq_self (hgenuine : tbl.Genuine occurrences p)
    (hbounds : p.Every fun x => ∀ b ∈ x.conjuncts, b.isWildcard = false) :
    p.replace (fun _ => none) = p := by
  induction hgenuine with
  | @intro p top parts ih =>
    have hlayer (hvariable : p.isVariable = false) (hstems : ∀ x ∈ p.stems, x.isWildcard = false) :
        p.replace (fun _ => none) = p := by
      rw [Ty.replace_eq_rebuild hvariable]
      exact Ty.rebuild_eq_self (fun x hx => ih x hx (hbounds.part hx)) hstems
    cases p with
    | var => rfl
    | array component marks => exact hlayer rfl (forall_mem_singleton.mpr top.1.2)
    | wildcard n upper lower marks =>
      obtain ⟨hupper, hlower, -⟩ := top.1
      rw [isBadBound, Bool.or_eq_false_iff, Bool.or_eq_false_iff] at hupper hlower
      refine hlayer rfl (forall_mem_cons.mpr ⟨hupper.1.1, ?_⟩)
      exact forall_mem_singleton.mpr hlower.1.1
    | intersection n bounds => exact hlayer rfl hbounds.top
    | _ => exact hlayer rfl (forall_mem_nil _)

/-- Substitution in a confined type succeeds with what replacing variables describes, also if there
is nothing to substitute. -/
theorem exists_substitute_replace (hcore : tbl.isObject tbl.objectType = true)
    (hm : ∀ v x, m.lookup v = some x → tbl.GenuineArgument occurrences x)
    (hp : tbl.Genuine occurrences p) (hconfined : tbl.Confined vs p) :
    ∃ y, tbl.substitute m p = .ok y ∧ tbl.Realizes occurrences (m.lookup ·) p y := by
  rw [substitute]
  split_ifs with hempty
  · refine ⟨p, rfl, ?_, hp⟩
    rw [List.isEmpty_iff.mp hempty]
    exact congrArg Ty.bare (replace_eq_self hp (hconfined.mono fun _ hx => hx.2.2)).symm
  · exact exists_instantiate_replace hcore hm hp

/-! ### Arguments -/

theorem genuineArgument_assignment (hformed : t.Formed) (ht : tbl.Genuine occurrences t) {x}
    (hx : tbl.assignment t v = some x) : tbl.GenuineArgument occurrences x :=
  ⟨(suits_assignment hformed v x hx).isArgument, every_assignment ht v x hx⟩

variable {σ : TypeVarId → Option Ty} {s s' : Ty} {m : Mapping}

theorem assignment_replace (hs : s.Formed) (v : TypeVarId) :
    tbl.assignment (s.replace σ) v = (tbl.assignment s v).map (Ty.replace σ) := by
  induction hs with
  | @intro c args owner marks _ _ ih =>
    have hown : (if v ∈ tbl.typeVars (.cls c) then (args.map (Ty.replace σ))[v.index]? else none) =
        (if v ∈ tbl.typeVars (.cls c) then args[v.index]? else none).map (Ty.replace σ) := by
      split_ifs
      · exact getElem?_map
      · rfl
    rw [Ty.replace, Ty.replaceAll_eq_map, Ty.replaceOwner_eq_map]
    cases owner with
    | none => exact hown
    | some o => rw [Option.map_some, assignment, assignment, hown, Option.map_or, ih o rfl]

/-- The argument of an instance is the argument with variables replaced, for each type parameter
that has an argument or is not replaced. -/
theorem bare_image_assignment (hs : s.Formed) (hbare : s'.bare = (s.replace σ).bare)
    (hv : tbl.assignment s v = none → σ v = none) :
    (Ty.image (tbl.assignment s') v).bare = ((Ty.image (tbl.assignment s) v).replace σ).bare := by
  rw [bare_image (assignment_of_bare_eq hbare v), Ty.image, Ty.image, Ty.subst, Ty.subst,
    assignment_replace hs]
  cases h : tbl.assignment s v with
  | none =>
    rw [Option.getD_none, Ty.replace, hv h]
    rfl
  | some y => rfl

/-- Putting in the arguments of an instance is putting in the arguments and then replacing
variables, in types whose variables have arguments or are not replaced. -/
theorem bare_replace_assignment (hs : s.Formed) (hbare : s'.bare = (s.replace σ).bare)
    (hp : p.Every (Ty.Over fun v => tbl.assignment s v = none → σ v = none)) :
    (p.replace (tbl.assignment s')).bare = ((p.replace (tbl.assignment s)).replace σ).bare :=
  Ty.bare_replace_of_image (hp.mono fun _ hx n v marks hv =>
    bare_image_assignment hs hbare (hx n v marks hv))

/-- Substituting the arguments of a type in a confined type. -/
theorem exists_substitute_assignment (hcore : tbl.isObject tbl.objectType = true)
    (hm : (m.lookup ·) = tbl.assignment s) (hs : s.Formed) (hgenuine : tbl.Genuine occurrences s)
    (hp : tbl.Genuine occurrences p) (hconfined : tbl.Confined vs p) :
    ∃ y, tbl.substitute m p = .ok y ∧ tbl.Realizes occurrences (tbl.assignment s) p y := by
  rw [← hm]
  exact exists_substitute_replace hcore (fun v a ha =>
    genuineArgument_assignment hs hgenuine ((congrFun hm v).symm.trans ha)) hp hconfined

theorem formed_of_replace (hs : s.Formed) (hgenuine : tbl.Genuine occurrences s')
    (hbare : s'.bare = (s.replace σ).bare) : s'.Formed := by
  induction hs generalizing s' with
  | @intro c args owner marks _ _ ih =>
    rw [Ty.replace, Ty.replaceAll_eq_map, Ty.replaceOwner_eq_map] at hbare
    obtain ⟨args', owner', marks', rfl, -, howner⟩ := Ty.eq_declared_of_bare_eq hbare
    refine .intro (fun a ha => GenuineArgument.suits ⟨hgenuine.top.1.2 a ha, hgenuine.arg ha⟩)
      fun o ho => ?_
    obtain ⟨x, hx, hxo⟩ := Ty.exists_mem_of_owner_bare_eq howner.symm ho
    obtain ⟨y, hy, rfl⟩ := Option.map_eq_some_iff.mp hx
    exact ih y hy (hgenuine.owner ho) hxo.symm

/-! ### Going up from an instance -/

/-- Both types are uses of classes, and the second is what replacing variables makes of the
first. -/
structure Instance (tbl : Table) (occurrences : Nat → TypeKind → Ty) (σ : TypeVarId → Option Ty)
    (s s' : Ty) : Prop where
  formed : s.Formed
  genuine : tbl.Genuine occurrences s
  realizes : tbl.Realizes occurrences σ s s'

theorem Instance.formed_right (h : tbl.Instance occurrences σ s s') : s'.Formed :=
  formed_of_replace h.formed h.realizes.2 h.realizes.1

theorem instance_bare_class (hroot : tbl.Rooted) (c : ClassId) (marks : List ClassId) :
    tbl.Instance occurrences σ (.declared c [] none marks) (.declared c [] none marks) := by
  have hgenuine : tbl.Genuine occurrences (.declared c [] none marks) := by
    refine .leaf ⟨⟨.inl rfl, forall_mem_nil _⟩, fun h => absurd rfl h, fun h => ?_⟩ rfl
    rw [isObject, beq_iff_eq] at h
    rw [hroot.unique c h]
    rfl
  exact ⟨Ty.formed_bare_class c marks, hgenuine, rfl, hgenuine⟩

/-- The arguments of a type that is not raw. -/
theorem isSome_assignment
    (hchecked : tbl.Checked (.declared c args owner marks)) (hraw : tbl.isRaw c args = false)
    (hv : v ∈ tbl.typeVars (.cls c)) :
    (tbl.assignment (.declared c args owner marks) v).isSome = true := by
  have hlt : v.index < args.length := by
    have hindex : v.index < (tbl.cls c).typeParameters.length := (mem_typeVars.mp hv).2
    rcases hchecked.1 with rfl | hcount
    · rw [isRaw, isEmpty_nil, Bool.true_and, Bool.not_eq_false', List.isEmpty_iff] at hraw
      rw [hraw] at hindex
      exact absurd hindex (Nat.not_lt_zero _)
    · rwa [hcount]
  cases owner <;> simp only [assignment, if_pos hv, getElem?_eq_getElem hlt, Option.some_or,
    Option.isSome_some]

/-- What a use of a class inherits through one of the supertype expressions of the class. -/
theorem Orderly.realizes_of_substitute (h : tbl.Orderly) {ps}
    (hps : tbl.descriptors (tbl.supertypeExprs c) = .ok ps) (hp : p ∈ ps)
    (hconfined : tbl.Confined vs p) (hs : s.Formed) (hgenuine : tbl.Genuine occurrences s)
    (hm : (m.lookup ·) = tbl.assignment s) {x} (hx : tbl.substitute m p = .ok x) :
    x.Formed ∧ tbl.Realizes occurrences (tbl.assignment s) p x := by
  have hcore := h.rooted.isObject_objectType
  obtain ⟨hkind, hdenoted⟩ := h.forall_patterns hps p hp
  constructor
  · exact formed_of_substitute
      (fun v a ha => suits_assignment hs v a ((congrFun hm v).symm.trans ha)) hdenoted
      hkind hx
  · obtain ⟨y, hy, hreal⟩ := exists_substitute_assignment hcore hm hs hgenuine
      (genuine_of_denoted hcore hdenoted hconfined) hconfined
    cases hx.symm.trans hy
    exact hreal

/-- The supertypes of two uses of a class, of which both or none are raw, and of which the second
has the arguments of the first with variables replaced. -/
theorem Orderly.forall₂_instance (h : tbl.Orderly) {args' owner' marks' ss ss'}
    (hplain : ∀ ps, tbl.descriptors (tbl.supertypeExprs c) = .ok ps →
      ∀ p ∈ ps, tbl.Confined (fun _ => True) p) (hs : (Ty.declared c args owner marks).Formed)
    (hgenuine : tbl.Genuine occurrences (.declared c args owner marks))
    (hs' : (Ty.declared c args' owner' marks').Formed)
    (hgenuine' : tbl.Genuine occurrences (.declared c args' owner' marks'))
    (hraw : tbl.isRaw c args = tbl.isRaw c args')
    (himage : tbl.isRaw c args = false → ∀ ps, tbl.descriptors (tbl.supertypeExprs c) = .ok ps →
      ∀ p ∈ ps, p.Every (Ty.Over fun v =>
        (Ty.image (tbl.assignment (.declared c args' owner' marks')) v).bare =
          ((Ty.image (tbl.assignment (.declared c args owner marks)) v).replace σ).bare))
    (hss : tbl.Supers c args owner ss) (hss' : tbl.Supers c args' owner' ss') :
    Forall₂ (tbl.Instance occurrences σ) ss ss' := by
  refine hss.forall₂ hss' hraw (instance_bare_class h.rooted _ _) ?_ ?_
  · intro ps hps _ p hp
    obtain ⟨d, _, _, ms, rfl⟩ := Ty.exists_eq_declared (h.forall_patterns hps p hp).1
    exact instance_bare_class h.rooted d ms
  · intro ps m m' hps hnotraw hm hm' hxs hys
    have hlookup : (m.lookup ·) = tbl.assignment (.declared c args owner marks) :=
      (funext (lookup_typeMapping hm)).trans (assignment_remark c args owner [] marks)
    have hlookup' : (m'.lookup ·) = tbl.assignment (.declared c args' owner' marks') :=
      (funext (lookup_typeMapping hm')).trans (assignment_remark c args' owner' [] marks')
    refine forall₂_join (mapM_eq_ok.mp hxs) (mapM_eq_ok.mp hys) fun p hp x y hx hy => ?_
    obtain ⟨hformed, hreal⟩ :=
      h.realizes_of_substitute hps hp (hplain ps hps p hp) hs hgenuine hlookup hx
    obtain ⟨-, hreal'⟩ :=
      h.realizes_of_substitute hps hp (hplain ps hps p hp) hs' hgenuine' hlookup' hy
    refine ⟨hformed, hreal.2, ?_, hreal'.2⟩
    calc y.bare = (p.replace (tbl.assignment (.declared c args' owner' marks'))).bare := hreal'.1
      _ = ((p.replace (tbl.assignment (.declared c args owner marks))).replace σ).bare :=
        Ty.bare_replace_of_image (himage hnotraw ps hps p hp)
      _ = (x.replace σ).bare := Ty.bare_replace_congr hreal.1.symm fun _ => rfl

theorem Orderly.passes_instance (h : tbl.Orderly) (hstatic : tbl.Static) :
    tbl.Passes (tbl.Instance occurrences σ) := by
  refine ⟨fun {s s'} hs => ⟨hs.formed, hs.formed_right⟩, fun {s s'} hs => ?_,
    fun {s s' ss ss'} hs hss hss' => ?_⟩
  · obtain ⟨c, args, owner, marks, rfl⟩ := Ty.exists_eq_declared hs.formed.kind
    obtain ⟨_, _, _, rfl, -⟩ := Ty.eq_declared_of_bare_eq hs.realizes.1
    exact ⟨c, ⟨_, _, _, rfl⟩, _, _, _, rfl⟩
  · obtain ⟨c, args, owner, marks, rfl, -, hsupers⟩ := hss
    obtain ⟨c', args', owner', marks', rfl, -, hsupers'⟩ := hss'
    obtain ⟨_, _, _, heq, hargs, -⟩ := Ty.eq_declared_of_bare_eq hs.realizes.1
    cases heq
    have hraw : tbl.isRaw c args = tbl.isRaw c args' := by
      refine isRaw_of_length_eq ?_
      simpa using (congrArg List.length hargs).symm
    refine h.forall₂_instance (fun ps hps p hp => (hstatic c ps hps p hp).mono fun x hx =>
      ⟨fun _ _ _ _ => trivial, hx.2⟩) hs.formed hs.genuine hs.formed_right hs.realizes.2 hraw
      (fun hnotraw ps hps p hp => (hstatic c ps hps p hp).mono fun x hx n v ms hv => ?_)
      hsupers hsupers'
    refine bare_image_assignment hs.formed hs.realizes.1 fun hnone => ?_
    have hsome := isSome_assignment hs.genuine.top.1 hnotraw (hx.1 n v ms hv)
    rw [hnone] at hsome
    cases hsome

/-! ### Members -/

/-- The type of an executable is made of what expressions denote. -/
theorem exists_eq_executable {e} (hp : tbl.typeOf (.executable e) = .ok p) :
    ∃ result parameters receiver thrown,
      p = .executable e (tbl.ownVariables (.executable e)) result parameters receiver thrown ∧
      tbl.parameterTypes e = .ok parameters ∧ ∀ y ∈ p.children,
        y = .none ∨ y.Every tbl.Denoted := by
  obtain ⟨result, hresult, hp⟩ := bind_eq_ok.mp hp
  obtain ⟨parameters, hparameters, hp⟩ := bind_eq_ok.mp hp
  obtain ⟨thrown, hthrown, hp⟩ := bind_eq_ok.mp hp
  cases hp
  refine ⟨_, _, _, _, rfl, hparameters, fun y hy => ?_⟩
  simp only [Ty.children, mem_append, mem_cons] at hy
  rcases hy with hy | rfl | rfl | hy | hy
  · obtain ⟨v, -, rfl⟩ := mem_map.mp hy
    exact .inr (.leaf rfl rfl)
  · rw [resultType] at hresult
    split_ifs at hresult
    · cases hresult
      exact .inr (.leaf trivial rfl)
    · exact .inr (descriptor_denoted _ hresult)
  · rw [receiverType]
    split_ifs
    · cases howner : tbl.implicitOwner e.cls with
      | none => exact .inl rfl
      | some o => exact .inr (implicitOwner_denoted _ o howner).1
    · exact .inl rfl
    · exact .inr (selfTypeIn_denoted _ _).1
  · exact .inr (descriptors_denoted _ hparameters y hy)
  · exact .inr (descriptors_denoted _ hthrown y hy)

/-- The types of fields, parameters and executables are as the program builds types. -/
theorem genuine_typeOf (hcore : tbl.isObject tbl.objectType = true)
    (hx : x.generics ≠ []) (hp : tbl.typeOf x = .ok p) (hconfined : tbl.Confined vs p) :
    tbl.Genuine occurrences p := by
  cases x with
  | field f => exact genuine_of_denoted hcore (descriptor_denoted _ hp) hconfined
  | parameter q => exact genuine_of_denoted hcore (descriptor_denoted _ hp) hconfined
  | executable e =>
    obtain ⟨_, _, _, _, rfl, -, hparts⟩ := exists_eq_executable hp
    refine .intro ⟨trivial, fun h => absurd rfl h, nofun⟩ fun y hy => ?_
    rcases hparts y hy with rfl | hdenoted
    · exact .leaf ⟨trivial, fun h => absurd rfl h, nofun⟩ rfl
    · exact genuine_of_denoted hcore hdenoted (hconfined.part hy)
  | _ => exact absurd rfl hx

theorem declaringClass_eq (hx : .cls c ∈ x.generics) : tbl.declaringClass x = .ok (some c) := by
  cases x <;> simp_all [Element.generics, declaringClass, pure, Except.pure]

theorem memberTypeUnder_eq (hx : x.generics ≠ []) (m : Mapping) :
    tbl.memberTypeUnder m x = tbl.typeOf x >>= tbl.substitute m := by
  cases x <;> first | rfl | exact absurd rfl hx

/-- A type is below the class to which the way up leads from it. -/
theorem Orderly.isSubclassOf_of_resolves (h : tbl.Orderly) {target r}
    (hr : tbl.Resolves (.declared c args owner marks) target (some r)) :
    tbl.isSubclassOf c target = .ok true := by
  obtain ⟨b, hb⟩ := isSubclassOf_isOk h.exists_rawSupertypes c target
  cases b with
  | true => exact hb
  | false => cases hr.eq (resolves_none hb)

/-- A member seen from a type: the arguments that the type gives to the class that declares it are
put into the type of the member. -/
theorem Orderly.exists_memberType (h : tbl.Orderly) (ht : t.Formed) (hx : .cls c ∈ x.generics)
    (hp : tbl.typeOf x = .ok p) (hconfined : tbl.Confined vs p) {r} (hr : tbl.Resolves t c (some r))
    (hformed : r.Formed) (hgenuine : tbl.Genuine occurrences r) :
    ∃ y, Settles (fun k => tbl.memberType k t x) y ∧
      tbl.Realizes occurrences (tbl.assignment r) p y := by
  have hcore := h.rooted.isObject_objectType
  have hne : x.generics ≠ [] := ne_nil_of_mem hx
  obtain ⟨d, args, owner, marks, rfl⟩ := Ty.exists_eq_declared ht.kind
  have hdeclarer : tbl.memberDeclarer (.declared d args owner marks) x = .ok c := by
    rw [memberDeclarer, declaringClass_eq hx]
    change (tbl.isSubclassOf d c >>= fun b => _) = _
    rw [h.isSubclassOf_of_resolves hr]
    rfl
  obtain ⟨m, hm⟩ : ∃ m, tbl.typeMapping r = .ok m := exists_typeMapping hformed
  obtain ⟨y, hy, hreal⟩ := exists_substitute_assignment hcore
    (funext (lookup_typeMapping hm)) hformed
    hgenuine (genuine_typeOf hcore hne hp hconfined) hconfined
  refine ⟨y, ?_, hreal⟩
  have hthrough : tbl.memberTypeThrough (some r) x = .ok y := by
    rw [memberTypeThrough, hm]
    change tbl.memberTypeUnder m x = _
    rw [memberTypeUnder_eq hne, hp]
    exact hy
  have hsettles := hr.settles.bind (g := fun r _ => tbl.memberTypeThrough r x) (b := y) (by
    rw [hthrough]
    exact .ok y)
  simpa only [memberType, hdeclarer, bind, Except.bind] using hsettles

/-! ### Filling in arguments before or after -/

section Substitute

/-- What the way up leads to is as the program builds types. -/
theorem Orderly.exists_resolves_genuine (h : tbl.Orderly) (hstatic : tbl.Static) (ht : t.Formed)
    (hgenuine : tbl.Genuine occurrences t) (target : ClassId) :
    ∃ r, tbl.Resolves t target r ∧ ∀ s ∈ r, s.Formed ∧ tbl.Genuine occurrences s := by
  obtain ⟨t', -, hreal⟩ := exists_instantiate_replace h.rooted.isObject_objectType
    (m := []) (fun _ _ hx => by cases hx) hgenuine
  obtain ⟨r, r', hleft, -, hrel, -⟩ :=
    h.exists_ascends (h.passes_instance hstatic) ⟨ht, hgenuine, hreal⟩ target
  refine ⟨r, hleft, fun s hs => ?_⟩
  cases hrel with
  | none => cases hs
  | some hxy =>
    cases hs
    exact ⟨hxy.1.formed, hxy.1.genuine⟩

/-- The variables of a member are type parameters of its executable, or have arguments in a type of
its class that is not raw. -/
theorem IsLocal.over (hp : tbl.IsLocal x p) (hx : .cls c ∈ x.generics)
    (hchecked : tbl.Checked (.declared c args owner marks)) (hraw : tbl.isRaw c args = false)
    (hσ : ∀ e v, .executable e ∈ x.generics → v ∈ tbl.typeVars (.executable e) → σ v = none) :
    p.Every (Ty.Over fun v => tbl.assignment (.declared c args owner marks) v = none →
      σ v = none) := by
  refine hp.mono fun z hz n v ms hv hnone => ?_
  obtain ⟨g, hg, hmem⟩ := hz.1 n v ms hv
  cases g with
  | executable e => exact hσ e v hg hmem
  | cls d =>
    have hdeclares : tbl.declaringClass x = .ok (some c) := declaringClass_eq hx
    cases (declaringClass_eq hg).symm.trans hdeclares
    have hsome := isSome_assignment hchecked hraw hmem
    rw [hnone] at hsome
    cases hsome

/-- Going up and viewing members commute with substitution. For every use of a class and every
mapping to type arguments, the way up from the type with substituted arguments leads to the same
parameterization of a class as substituting afterwards, or both lead to none. If the class that
declares a field, parameter or executable is then not seen raw, and no type parameter of the
executable is mapped, the member is seen with the same type both ways. -/
theorem Orderly.substitute_resolveSupertype (h : tbl.Orderly) (hstatic : tbl.Static)
    (hm : ∀ e ∈ m, tbl.GenuineArgument occurrences e.2) (ht : t.Formed)
    (hgenuine : tbl.Genuine occurrences t) :
    ∃ t', tbl.substitute m t = .ok t' ∧ (∀ target, tbl.ResolvesWith m t t' target) ∧
      ∀ x c args owner marks p, .cls c ∈ x.generics → tbl.typeOf x = .ok p → tbl.IsLocal x p →
        Settles (fun k => (tbl.resolveSupertype k t c : Result (Option Ty)))
          (some (.declared c args owner marks)) → tbl.isRaw c args = false →
        (∀ e v, .executable e ∈ x.generics → v ∈ tbl.typeVars (.executable e) →
          m.lookup v = none) →
        tbl.SeenWith m t t' x := by
  have hcore := h.rooted.isObject_objectType
  by_cases hne : m = []
  · subst hne
    refine ⟨t, rfl, fun target => ?_, fun x c args owner marks p hx hp hlocal hr _ _ => ?_⟩
    · obtain ⟨r, hr, -⟩ := h.exists_resolves_genuine hstatic ht hgenuine target
      refine ⟨r, r, hr.settles, hr.settles, ?_⟩
      cases r with
      | none => exact .none
      | some s => exact .some ⟨s, rfl, Ty.same_refl s⟩
    · obtain ⟨r, hr', hall⟩ := h.exists_resolves_genuine hstatic ht hgenuine c
      cases hr.eq hr'.settles
      obtain ⟨y, hy, -⟩ :=
        h.exists_memberType ht hx hp hlocal hr' (hall _ rfl).1 (hall _ rfl).2
      exact ⟨y, y, y, hy, hy, rfl, Ty.same_refl y⟩
  have hlookup (v : TypeVarId) (x : Ty) (hx : m.lookup v = some x) :
      tbl.GenuineArgument occurrences x := hm _ (mem_of_lookup hx)
  obtain ⟨t', ht', hreal⟩ := exists_instantiate_replace hcore hlookup hgenuine
  have hascends := h.exists_ascends (h.passes_instance hstatic) ⟨ht, hgenuine, hreal⟩
  refine ⟨t', (substitute_of_ne_nil hne t).trans ht', fun target => ?_,
    fun x c args owner marks p hx hp hlocal hr hraw hown => ?_⟩
  · obtain ⟨r, r', hleft, hright, hrel, -⟩ := hascends target
    refine ⟨r, r', hleft.settles, hright.settles, ?_⟩
    cases hrel with
    | none => exact .none
    | some hxy =>
      obtain ⟨u, hu, hureal⟩ := exists_instantiate_replace hcore hlookup hxy.1.genuine
      exact .some ⟨u, (substitute_of_ne_nil hne _).trans hu,
        Ty.same_of_bare_eq (hxy.1.realizes.1.trans hureal.1.symm)⟩
  · obtain ⟨r, r', hleft, hright, hrel, -⟩ := hascends c
    cases hr.eq hleft.settles
    cases hrel with
    | @some _ s' hxy =>
      have hinst := hxy.1
      obtain ⟨y, hy, hyreal⟩ := h.exists_memberType ht hx hp hlocal hleft hinst.formed hinst.genuine
      obtain ⟨y', hy', hyreal'⟩ := h.exists_memberType
        (formed_of_replace ht hreal.2 hreal.1) hx hp hlocal hright hinst.formed_right
        hinst.realizes.2
      obtain ⟨u, hu, hureal⟩ := exists_instantiate_replace hcore hlookup hyreal.2
      refine ⟨y, y', u, hy, hy', (substitute_of_ne_nil hne y).trans hu, Ty.same_of_bare_eq ?_⟩
      calc y'.bare = (p.replace (tbl.assignment s')).bare := hyreal'.1
        _ = ((p.replace (tbl.assignment (.declared c args owner marks))).replace
          (m.lookup ·)).bare :=
          bare_replace_assignment hinst.formed hinst.realizes.1
            (hlocal.over hx hinst.genuine.top.1 hraw hown)
        _ = (y.replace (m.lookup ·)).bare := Ty.bare_replace_congr hyreal.1.symm fun _ => rfl
        _ = u.bare := hureal.1.symm

set_option maxRecDepth 20000 in
/-- A wildcard put for a type parameter whose arrays the class above takes, and a field of that
class. -/
theorem Orderly.substitute_resolveSupertype_arrays :
    let tbl : Table := {
      classes := #[
        { name := "java.lang.Object", simpleName := "Object", kind := .cls },
        { name := "p.G", simpleName := "G", kind := .cls, typeParameters := [{ name := "V" }] },
        { name := "p.N", simpleName := "N", kind := .cls, typeParameters := [{ name := "T" }],
          fields := [{ name := "f", type := .var ⟨.cls ⟨2⟩, 0⟩ [] }] },
        { name := "p.K", simpleName := "K", kind := .cls, typeParameters := [{ name := "X" }],
          superclass := some (.applied ⟨2⟩ [.array (.var ⟨.cls ⟨3⟩, 0⟩ []) []] none []) }] }
    let V : TypeVarId := ⟨.cls ⟨1⟩, 0⟩
    let T : TypeVarId := ⟨.cls ⟨2⟩, 0⟩
    let f : Element := .field ⟨⟨2⟩, 0⟩
    let t : Ty := .declared ⟨3⟩ [.wildcard 0 (.var 0 V []) .null []] none []
    let s : Ty := .declared ⟨2⟩ [.array (.var 0 V []) []] none []
    let m : Mapping := [(V, .declared ⟨1⟩ [.var 0 V []] none [])]
    (tbl.Orderly ∧ tbl.Static ∧ (∀ e ∈ m, tbl.GenuineArgument (fun _ _ => .null) e.2) ∧ t.Formed ∧
      tbl.Genuine (fun _ _ => .null) t ∧ tbl.typeOf f = .ok (.var 0 T []) ∧
      tbl.IsLocal f (.var 0 T []) ∧
      Settles (fun k => (tbl.resolveSupertype k t ⟨2⟩ : Result (Option Ty))) (some s)) ∧
    ∃ t', tbl.substitute m t = .ok t' ∧ (∀ target, tbl.ResolvesWith m t t' target) ∧
      tbl.SeenWith m t t' f := by
  intro tbl V T f t s m
  have h : tbl.Orderly := orderly_of_isLayered (by rfl) (by rfl) (by rfl)
  have hstatic : tbl.Static := static_of_testPatterns (by rfl)
  have hvar (v : TypeVarId) : tbl.Genuine (fun _ _ => .null) (.var 0 v []) :=
    .leaf ⟨trivial, fun h => absurd rfl h, nofun⟩ rfl
  have hm : ∀ e ∈ m, tbl.GenuineArgument (fun _ _ => .null) e.2 :=
    forall_mem_cons.mpr ⟨⟨rfl, .declared ⟨⟨.inr rfl, by simp [Ty.isArgument]⟩,
      fun h => absurd rfl h, nofun⟩ (forall_mem_singleton.mpr (hvar V)) fun _ h => by cases h⟩,
      forall_mem_nil _⟩
  have hwildcard : tbl.Genuine (fun _ _ => .null) (.wildcard 0 (.var 0 V []) .null []) :=
    .wildcard ⟨⟨rfl, rfl, .inr rfl⟩, fun h => absurd rfl h, nofun⟩ (hvar V) genuine_null
  have hgenuine : tbl.Genuine (fun _ _ => .null) t :=
    .declared ⟨⟨.inr rfl, by simp [Ty.isArgument]⟩, fun h => absurd rfl h, nofun⟩
      (forall_mem_singleton.mpr hwildcard) fun _ h => by cases h
  have ht : t.Formed := .intro (by simpa using GenuineArgument.suits ⟨rfl, hwildcard⟩) fun _ h => by
    cases h
  have hlocal : tbl.IsLocal f (.var 0 T []) :=
    .leaf ⟨fun n v marks hv => by cases hv; exact ⟨.cls ⟨2⟩, mem_cons_self, by decide⟩,
      fun h => (by cases h), forall_mem_nil _⟩ rfl
  have hr : tbl.Resolves t ⟨2⟩ (some s) := by
    obtain ⟨r, hr, -⟩ := h.exists_resolves_genuine hstatic ht hgenuine ⟨2⟩
    have hfour : (tbl.resolveSupertype 4 t ⟨2⟩ : Result (Option Ty)) = .ok (some s) := by rfl
    rwa [← hr.settles.eq_of_ok hfour] at hr
  obtain ⟨t', ht', hresolves, hseen⟩ := h.substitute_resolveSupertype hstatic hm ht hgenuine
  exact ⟨⟨h, hstatic, hm, ht, hgenuine, rfl, hlocal, hr.settles⟩, t', ht', hresolves,
    hseen f ⟨2⟩ _ _ _ _ mem_cons_self rfl hlocal hr.settles rfl fun e v he => by cases he with
      | tail _ he => cases he⟩

/-- If a second class has the name of the root class, arguments that are filled in before going up
are lost in the bounds of wildcards. -/
theorem substitute_resolveSupertype_second_root :
    let tbl : Table := {
      classes := #[
        { name := "java.lang.Object", simpleName := "Object", kind := .cls },
        { name := "p.G", simpleName := "G", kind := .cls, typeParameters := [{ name := "V" }] },
        { name := "p.N", simpleName := "N", kind := .cls, typeParameters := [{ name := "T" }] },
        { name := "p.K", simpleName := "K", kind := .cls, typeParameters := [{ name := "X" }],
          superclass := some (.applied ⟨2⟩ [.array (.var ⟨.cls ⟨3⟩, 0⟩ []) []] none []) },
        { name := "java.lang.Object", simpleName := "java.lang.Object", kind := .cls }] }
    let V : TypeVarId := ⟨.cls ⟨1⟩, 0⟩
    let N (t : Ty) : Ty := .declared ⟨2⟩ [t] none []
    let K (t : Ty) : Ty := .declared ⟨3⟩ [t] none []
    let second : Ty := .declared ⟨4⟩ [] none []
    let t : Ty := K (.wildcard 0 (.var 0 V []) .null [])
    let t' : Ty := K (.wildcard 0 tbl.objectType .null [])
    let m : Mapping := [(V, second)]
    tbl.substitute m t = .ok t' ∧
      (tbl.resolveSupertype 4 t ⟨2⟩ : Result (Option Ty)) =
        .ok (some (N (.array (.var 0 V []) []))) ∧
      (tbl.resolveSupertype 4 t' ⟨2⟩ : Result (Option Ty)) =
        .ok (some (N (.array tbl.objectType []))) ∧
      tbl.substitute m (N (.array (.var 0 V []) [])) = .ok (N (.array second [])) ∧
      (N (.array tbl.objectType [])).same (N (.array second [])) = false := by
  intro tbl V N K second t t' m
  refine ⟨rfl, ?_, ?_, rfl, rfl⟩
  · rfl
  · rfl

end Substitute

end Table

end NominalTypes
