import NominalTypes.Element.Type
import NominalTypes.Proofs.Instantiation
import NominalTypes.Proofs.Registry
import NominalTypes.Proofs.Written

/-!
# Which of the expressions that are read denote types

The reader counts the arguments of classes. It does not ask what the arguments, owners and bounds
are, while types can be made of parts of certain kinds only. An expression of the form that is read
denotes a type exactly if the outermost layers of its parts are of these kinds.
-/

namespace NominalTypes

open List

variable {e : Expr} {marks : List ClassId}

namespace Table

variable (tbl : Table)

/-- Whether the expression names the stand-in for a primitive type or `void`. -/
def namesStandIn : Expr → Bool
  | .named c _ => (tbl.cls c).isPrimitive
  | _ => false

/-- Whether the expression names the stand-in for a primitive type. -/
def namesPrimitive : Expr → Bool
  | .named c _ => (tbl.cls c).isPrimitive && (tbl.cls c).name != "void"
  | _ => false

mutual

/-- Whether each part of the expression is of a kind that may stand there: stand-ins have the name
of a primitive type or `void`, are no owners and take no arguments; no argument is a primitive type
or `void`, and no bound of a wildcard is a primitive type. -/
def wellKinded : Expr → Bool
  | .named c _ => !(tbl.cls c).isPrimitive || (Primitive.ofName? (tbl.cls c).name).isSome ||
      (tbl.cls c).name == "void"
  | .array e _ => wellKinded e
  | .applied c args owner _ => !(tbl.cls c).isPrimitive && !args.any tbl.namesStandIn &&
      wellKindedAll args && wellKindedOwner owner
  | .wildcard upper lower _ =>
      !upper.any tbl.namesPrimitive && !lower.any tbl.namesPrimitive &&
        wellKindedAll upper && wellKindedAll lower
  | .var _ _ => true
  | .foreign _ => false

/-- Whether all expressions are well kinded. -/
def wellKindedAll : List Expr → Bool
  | [] => true
  | e :: es => wellKinded e && wellKindedAll es

/-- Whether the owner, if there is one, is well kinded. -/
def wellKindedOwner : Option Expr → Bool
  | none => true
  | some e => wellKinded e

end

variable {tbl}

theorem wellKindedAll_eq_true {es} :
    tbl.wellKindedAll es = true ↔ ∀ e ∈ es, tbl.wellKinded e = true := by
  induction es with
  | nil => exact ⟨fun _ => forall_mem_nil _, fun _ => rfl⟩
  | cons e es ih => rw [wellKindedAll, Bool.and_eq_true, ih, forall_mem_cons]

/-- The kind of what an expression denotes can be seen from its outermost layer. -/
theorem kind_descriptor {t} (h : tbl.descriptor e = .ok t) :
    t.isArgument = !tbl.namesStandIn e ∧ t.isPrimitive = tbl.namesPrimitive e ∧
      t.isWildcard = e.isWildcard ∧ t.isPseudo = false := by
  cases describes_of_descriptor h with
  | @primitive c _ _ hc hp =>
    have hvoid : (tbl.cls c).name ≠ "void" := by
      intro hname
      rw [hname] at hp
      cases hp
    simp [namesStandIn, namesPrimitive, hc, hvoid, Ty.isArgument, Ty.isPrimitive,
      Ty.isWildcard, Ty.isPseudo, Expr.isWildcard]
  | void hc hname =>
    simp [namesStandIn, namesPrimitive, hc, hname, Ty.isArgument, Ty.isPrimitive,
      Ty.isWildcard, Ty.isPseudo, Expr.isWildcard]
  | named hc =>
    simp [namesStandIn, namesPrimitive, hc, Ty.isArgument, Ty.isPrimitive,
      Ty.isWildcard, Ty.isPseudo, Expr.isWildcard]
  | _ => exact ⟨rfl, rfl, rfl, rfl⟩

theorem exists_descriptors {es} :
    (∃ ts, tbl.descriptors es = .ok ts) ↔ ∀ e ∈ es, ∃ t, tbl.descriptor e = .ok t := by
  rw [descriptors_eq_mapM]
  constructor
  · rintro ⟨ts, hts⟩ e he
    obtain ⟨t, -, ht⟩ := exists_of_forall₂_left (mapM_eq_ok.mp hts) he
    exact ⟨t, ht⟩
  · exact exists_mapM_eq_ok

/-! ### One layer -/

theorem exists_descriptor_named {c} :
    (∃ t, tbl.descriptor (.named c marks) = .ok t) ↔ tbl.wellKinded (.named c marks) = true := by
  rw [descriptor, wellKinded]
  cases hprimitive : (tbl.cls c).isPrimitive with
  | false => simp [pure, Except.pure]
  | true =>
    rw [primitiveType]
    cases Primitive.ofName? (tbl.cls c).name with
    | some p => simp
    | none =>
      by_cases hvoid : (tbl.cls c).name == "void"
      · simp [hvoid]
      · simp [hvoid]

theorem exists_descriptor_array (he : e.isWildcard = false) :
    (∃ t, tbl.descriptor (.array e marks) = .ok t) ↔ ∃ t, tbl.descriptor e = .ok t := by
  constructor
  · rintro ⟨t, h⟩
    obtain ⟨s, hs, -⟩ := bind_eq_ok.mp h
    exact ⟨s, hs⟩
  · rintro ⟨s, hs⟩
    obtain ⟨-, -, hwildcard, hpseudo⟩ := kind_descriptor hs
    refine ⟨.array s marks, bind_eq_ok.mpr ⟨s, hs, ?_⟩⟩
    rw [makeArray, hpseudo, hwildcard, he]
    rfl

/-- The use of a class with arguments that may be some. -/
theorem descriptor_applied {c args as owner o} (hc : (tbl.cls c).isPrimitive = false)
    (has : tbl.descriptors args = .ok as)
    (hcount : as = [] ∨ as.length = (tbl.cls c).typeParameters.length)
    (hkinds : ∀ a ∈ as, a.isArgument = true) (howner : tbl.OwnerOf c owner o) :
    tbl.descriptor (.applied c args owner marks) = .ok (.declared c as o marks) := by
  have hmade := makeDeclared_ok o marks hcount hkinds
  cases howner with
  | implied =>
    rw [descriptor]
    simp only [requireDeclaration, hc, has]
    exact hmade
  | @written _ d hd hkind =>
    cases d with
    | declared =>
      rw [descriptor]
      simp only [requireDeclaration, hc, has, hd]
      exact hmade
    | _ => cases hkind

/-- The arguments of a class denote types that may be arguments. -/
theorem exists_descriptor_applied {c args owner} (hcount : args = [] ∨ args.length = tbl.arity c)
    (howner : ∀ o ∈ owner, ∃ d ds outer own, o = .applied d ds outer own) :
    (∃ t, tbl.descriptor (.applied c args owner marks) = .ok t) ↔
      (tbl.cls c).isPrimitive = false ∧ args.any tbl.namesStandIn = false ∧
        (∀ a ∈ args, ∃ t, tbl.descriptor a = .ok t) ∧
          ∀ o ∈ owner, ∃ t, tbl.descriptor o = .ok t := by
  constructor
  · rintro ⟨t, h⟩
    cases describes_of_descriptor h with
    | applied hc has _ hkinds howner =>
      refine ⟨hc, ?_, exists_descriptors.mp ⟨_, has⟩, ?_⟩
      · rw [any_eq_false]
        intro a ha
        rw [descriptors_eq_mapM] at has
        obtain ⟨s, hs, hdenotes⟩ := exists_of_forall₂_left (mapM_eq_ok.mp has) ha
        have hkind := (kind_descriptor hdenotes).1
        rw [hkinds s hs] at hkind
        simpa using hkind.symm
      · rintro o ⟨⟩
        cases howner with
        | written hd => exact ⟨_, hd⟩
  · rintro ⟨hc, hstandIn, hargs, hdenotes⟩
    obtain ⟨as, has⟩ := exists_descriptors.mpr hargs
    have hforall := mapM_eq_ok.mp (descriptors_eq_mapM args ▸ has)
    have hcount : as = [] ∨ as.length = (tbl.cls c).typeParameters.length := by
      rcases hcount with rfl | hcount
      · cases hforall
        exact .inl rfl
      · exact .inr (hforall.length_eq.symm.trans hcount)
    have hkinds : ∀ s ∈ as, s.isArgument = true := by
      intro s hs
      obtain ⟨a, ha, hdenotes⟩ := exists_of_forall₂_right hforall hs
      rw [(kind_descriptor hdenotes).1, any_eq_false.mp hstandIn a ha |> (Bool.not_eq_true _).mp]
      rfl
    cases owner with
    | none => exact ⟨_, descriptor_applied hc has hcount hkinds .implied⟩
    | some o =>
      obtain ⟨d, ds, outer, own, rfl⟩ := howner o rfl
      obtain ⟨t, ht⟩ := hdenotes _ rfl
      have hkind : t.kind = .declared := by
        cases describes_of_descriptor ht
        rfl
      exact ⟨_, descriptor_applied hc has hcount hkinds (.written ht hkind)⟩

/-- A single upper bound stands if it is not the root class. -/
theorem makeWildcard_upper (s : Ty) :
    tbl.makeWildcard (some s) none marks =
      if tbl.isObject s then .ok (.wildcard 0 tbl.objectType .null marks)
      else if isBadBound s then .error (.kind (.wildcardBound s.kind))
      else .ok (.wildcard 0 s .null marks) := by
  cases hobject : tbl.isObject s <;> cases hbad : isBadBound s <;>
    simp [makeWildcard, explicitBounds, Option.filter_some, hobject, hbad]

theorem makeWildcard_lower (s : Ty) :
    tbl.makeWildcard none (some s) marks =
      if s.isNull then .ok (.wildcard 0 tbl.objectType .null marks)
      else if isBadBound s then .error (.kind (.wildcardBound s.kind))
      else .ok (.wildcard 0 tbl.objectType s marks) := by
  cases hnull : s.isNull <;> cases hbad : isBadBound s <;>
    simp [makeWildcard, explicitBounds, Option.filter_some, hnull, hbad]

/-- A single bound of a wildcard is not a primitive type; the root class is none. -/
theorem exists_makeWildcard {t} (ht : t.isWildcard = false) (hpseudo : t.isPseudo = false)
    (marks : List ClassId) :
    ((∃ w, tbl.makeWildcard (some t) none marks = .ok w) ↔ t.isPrimitive = false) ∧
      ((∃ w, tbl.makeWildcard none (some t) marks = .ok w) ↔ t.isPrimitive = false) := by
  have hbad : isBadBound t = t.isPrimitive := by
    rw [isBadBound, ht, hpseudo]
    rfl
  rw [makeWildcard_upper, makeWildcard_lower, hbad]
  cases t <;> simp [isObject, Ty.isNull, Ty.isPrimitive]
  split_ifs <;> simp

theorem descriptor_upper : tbl.descriptor (.wildcard [e] [] marks) =
      tbl.descriptor e >>= fun t => tbl.makeWildcard (some t) none marks := by
  rw [descriptor, descriptors, descriptors]
  cases tbl.descriptor e <;> rfl

theorem descriptor_lower : tbl.descriptor (.wildcard [] [e] marks) =
      tbl.descriptor e >>= fun t => tbl.makeWildcard none (some t) marks := by
  rw [descriptor, descriptors, descriptors, descriptors]
  cases tbl.descriptor e <;> rfl

/-- A bound of a wildcard denotes a type that may be one. -/
theorem exists_descriptor_wildcard (he : e.isWildcard = false) (marks : List ClassId) :
    ((∃ t, tbl.descriptor (.wildcard [e] [] marks) = .ok t) ↔
        tbl.namesPrimitive e = false ∧ ∃ t, tbl.descriptor e = .ok t) ∧
      ((∃ t, tbl.descriptor (.wildcard [] [e] marks) = .ok t) ↔
        tbl.namesPrimitive e = false ∧ ∃ t, tbl.descriptor e = .ok t) := by
  rw [descriptor_upper, descriptor_lower]
  cases hd : tbl.descriptor e with
  | error err => simp [bind, Except.bind]
  | ok t =>
    obtain ⟨-, hprimitive, hwildcard, hpseudo⟩ := kind_descriptor hd
    obtain ⟨hupper, hlower⟩ := exists_makeWildcard (hwildcard.trans he) hpseudo marks
    rw [hprimitive] at hupper hlower
    exact ⟨⟨fun h => ⟨hupper.mp h, t, rfl⟩, fun h => hupper.mpr h.1⟩,
      ⟨fun h => ⟨hlower.mp h, t, rfl⟩, fun h => hlower.mpr h.1⟩⟩

/-- An expression of the form that is read denotes a type exactly if its parts are of the right
kinds. -/
theorem exists_descriptor {member} (h : e.Written tbl.arity member) :
    (∃ t, tbl.descriptor e = .ok t) ↔ tbl.wellKinded e = true := by
  induction h with
  | named => exact exists_descriptor_named
  | var =>
    exact ⟨fun _ => rfl, fun _ => ⟨_, rfl⟩⟩
  | array he hwildcard ih => rw [exists_descriptor_array hwildcard, ih, wellKinded]
  | @applied c args marks hargs hne hcount ih =>
    rw [exists_descriptor_applied (.inr hcount) (by rintro o ⟨⟩), forall₂_congr ih, wellKinded,
      wellKindedOwner]
    simp [wellKindedAll_eq_true, and_assoc]
  | @member c args d ds o own marks hargs hcount hmember howner ih ihowner =>
    rw [exists_descriptor_applied hcount (by rintro o ⟨⟩; exact ⟨_, _, _, _, rfl⟩),
      forall₂_congr ih, wellKinded, wellKindedOwner]
    simp [wellKindedAll_eq_true, ihowner, and_assoc]
  | unbounded =>
    exact ⟨fun _ => rfl, fun _ => ⟨_, rfl⟩⟩
  | upper he hwildcard ih =>
    rw [(exists_descriptor_wildcard hwildcard _).1, ih, wellKinded]
    simp [wellKindedAll]
  | lower he hwildcard ih =>
    rw [(exists_descriptor_wildcard hwildcard _).2, ih, wellKinded]
    simp [wellKindedAll]

end Table

end NominalTypes
