import NominalTypes.Member.View
import NominalTypes.Proofs.Composition
import NominalTypes.Proofs.Criteria
import NominalTypes.Proofs.Persistence

/-!
# Where wildcards stand

A wildcard is a type argument: no other part of a type is one. Substitution puts types for variables
wherever the variables stand, and some of these types are wildcards. At a component, at a bound of a
wildcard or at a bound of an intersection the wildcard gives way to its own bound. At an alternative
of a union, at an owner and at the parts of an executable it is left as it is.

So substitution can break the rule at the places of the second sort, and breaks it only there:
exactly if a variable stands there for which the mapping has a wildcard. A member that is seen
through a type with wildcards among its arguments is the common case.
-/

namespace NominalTypes

open List

variable {σ : TypeVarId → Option Ty} {e : ExecutableId}

namespace Ty

/-! ### The parts that are no type arguments -/

/-- The parts at which substitution puts a bound in place of a wildcard, or nothing at all. -/
def guardedParts : Ty → List Ty
  | array component _ => [component]
  | wildcard _ upper lower _ => [upper, lower]
  | captured _ _ upper lower _ => [upper, lower]
  | intersection _ bounds => bounds
  | executable _ vars _ _ _ _ => vars
  | _ => []

/-- The other parts that are no type arguments. -/
def openParts : Ty → List Ty
  | declared _ _ owner _ => owner.toList
  | union _ alternatives => alternatives
  | executable _ _ result parameters receiver thrown => result :: receiver :: (parameters ++ thrown)
  | _ => []

/-- No wildcard occurs in the type as a component or as a bound. -/
def Guarded (t : Ty) : Prop :=
  t.Every fun x => ∀ y ∈ x.guardedParts, y.isWildcard = false

/-- Wildcards occur in the type as type arguments alone. -/
def Seated (t : Ty) : Prop :=
  t.Every fun x => ∀ y ∈ x.guardedParts ++ x.openParts, y.isWildcard = false

/-- Whether the type is a variable for which a wildcard is put. -/
def becomesWildcard (σ : TypeVarId → Option Ty) : Ty → Bool
  | var _ v _ => (σ v).any isWildcard
  | _ => false

/-- No wildcard is put for an open part of the type itself. -/
def Stays (σ : TypeVarId → Option Ty) (t : Ty) : Prop :=
  ∀ y ∈ t.openParts, y.becomesWildcard σ = false

instance decidableSeated : DecidablePred Seated := fun t =>
  inferInstanceAs (Decidable (t.Every fun x => ∀ y ∈ x.guardedParts ++ x.openParts,
    y.isWildcard = false))

variable {p q : Ty → Prop} {t x : Ty}

theorem visited_of_openParts (t : Ty) : ∀ x ∈ t.openParts, x ∈ t.visitedParts ∧ t.stems = [] := by
  cases t <;> simp +contextual [openParts, visitedParts, children, stems]

theorem openParts_rebuild (f : Ty → Ty) (t : Ty) : (t.rebuild f).openParts = t.openParts.map f := by
  cases t with
  | declared c args owner marks => cases owner <;> rfl
  | executable => simp [rebuild, openParts]
  | _ => rfl

theorem Every.every (h : t.Every p) : t.Every (Every p) := by
  induction h with
  | intro top parts ih => exact .intro (.intro top parts) ih

theorem Seated.guarded (h : t.Seated) : t.Guarded :=
  h.mono fun _ hx y hy => hx y (mem_append_left _ hy)

theorem Seated.isWildcard_of_openParts (h : t.Seated) (hx : x ∈ t.openParts) :
    x.isWildcard = false :=
  h.top x (mem_append_right _ hx)

theorem Seated.isWildcard_of_guardedParts (h : t.Seated) (hx : x ∈ t.guardedParts) :
    x.isWildcard = false :=
  h.top x (mem_append_left _ hx)

theorem Normal.seated (h : t.Normal) : t.Seated := by
  induction h with
  | @basic t h =>
    cases t with
    | primitive | none | void | null => exact .leaf (forall_mem_nil _) rfl
    | _ => cases h
  | declared => exact .leaf (forall_mem_nil _) rfl
  | array h ih => exact .array (forall_mem_singleton.mpr h.isWildcard) ih

theorem visited_var (n : Nat) (v : TypeVarId) (marks : List ClassId) :
    (var n v marks).Visited (Stays σ) :=
  .leaf (forall_mem_nil _) rfl

theorem isWildcard_of_isSameOccurrence {n v marks} (h : t.isSameOccurrence (var n v marks) = true) :
    t.isWildcard = false := by
  cases t with
  | wildcard => simp [isSameOccurrence, kind] at h
  | _ => rfl

/-- Where substitution changes nothing, no variable gives way to a wildcard. -/
theorem becomesWildcard_of_not_isAffected {m} (h : t.isAffected m id = false) :
    t.becomesWildcard (m.lookup ·) = false := by
  cases t with
  | var n v marks =>
    rw [isAffected] at h
    rw [becomesWildcard]
    cases hx : m.lookup v with
    | none => rfl
    | some x =>
      rw [hx] at h
      exact isWildcard_of_isSameOccurrence (by simpa using h)
  | _ => rfl

theorem visited_of_not_isAffected {m settle} (h : t.isAffected m settle = false) :
    t.Visited (Stays (m.lookup ·)) := by
  induction t using children_induction generalizing settle with
  | step t ih =>
    have hparts := Table.parts_of_not_isAffected h
    refine .intro (fun x hx => ?_) fun x hx => ?_
    · obtain ⟨hvisited, hstems⟩ := t.visited_of_openParts x hx
      obtain ⟨settle', hid, hx⟩ := hparts x hvisited
      rw [hid.resolve_right (not_not.mpr hstems)] at hx
      exact becomesWildcard_of_not_isAffected hx
    · obtain ⟨_, -, hx'⟩ := hparts x hx
      exact ih x (t.visitedParts_subset x hx) hx'

end Ty

namespace Table

variable {tbl : Table} {m : Mapping} {t t' : Ty}

/-! ### One layer -/

theorem isWildcard_of_not_isBadBound (h : isBadBound t = false) : t.isWildcard = false := by
  simp only [isBadBound, Bool.or_eq_false_iff] at h
  exact h.1.1

theorem openParts_normalized (t : Ty) : (tbl.normalized t).openParts = t.openParts := by
  cases t <;> rfl

/-- What substitution makes of a type that is no wildcard is one exactly if it is put for the
type. -/
theorem isWildcard_instantiate (ht : t.isWildcard = false) (h : tbl.instantiate m t = .ok t') :
    t'.isWildcard = t.becomesWildcard (m.lookup ·) := by
  rcases remakes_of_instantiate h with ⟨haffected, rfl⟩ | ⟨_, _, _, rfl, hx⟩ | hremakes
  · rw [ht, Ty.becomesWildcard_of_not_isAffected haffected]
  · simp [Ty.becomesWildcard, hx]
  · rw [Ty.isWildcard_of_kind_eq hremakes.kind_eq, ht]
    obtain ⟨-, hvariable, -⟩ := hremakes
    cases t with
    | var => cases hvariable
    | _ => rfl

section Layers

variable (hm : ∀ v x, m.lookup v = some x → x.Seated)
include hm

theorem guardedParts_of_instantiate (ht : t.Seated) (h : tbl.instantiate m t = .ok t') :
    ∀ y ∈ t'.guardedParts, y.isWildcard = false := by
  rcases remakes_of_instantiate h with ⟨-, rfl⟩ | ⟨_, v, _, -, hx⟩ |
    ⟨haffected, -, hparts, rfl, hpassed⟩
  · exact fun y => ht.isWildcard_of_guardedParts
  · exact fun y => (hm v t' hx).isWildcard_of_guardedParts
  cases t with
  | array => exact forall_mem_singleton.mpr hpassed.2
  | wildcard =>
    exact forall_mem_cons.mpr ⟨isWildcard_of_not_isBadBound hpassed.1,
      forall_mem_singleton.mpr (isWildcard_of_not_isBadBound hpassed.2.1)⟩
  | intersection n bounds =>
    intro y hy
    obtain ⟨b, hb, rfl⟩ := mem_map.mp hy
    -- A bound that becomes a wildcard is a variable, and the wildcard that is put for it is seated.
    rcases kind_of_instantiate (hparts b hb) with hkind | ⟨_, v, _, -, hx⟩
    · have hwildcard := (Ty.isWildcard_of_kind_eq hkind).trans (ht.isWildcard_of_guardedParts hb)
      rwa [Ty.orUpper_eq_self hwildcard]
    · cases hbound : tbl.outcome m b with
      | wildcard => exact (hbound ▸ hm v _ hx).isWildcard_of_guardedParts mem_cons_self
      | _ => rfl
  | executable => exact fun y => ht.isWildcard_of_guardedParts
  | captured => cases haffected
  | _ => exact forall_mem_nil _

theorem openParts_of_instantiate (ht : t.Seated) (hstays : t.Stays (m.lookup ·))
    (h : tbl.instantiate m t = .ok t') : ∀ y ∈ t'.openParts, y.isWildcard = false := by
  rcases remakes_of_instantiate h with ⟨-, rfl⟩ | ⟨_, v, _, -, hx⟩ | ⟨-, -, hparts, rfl, -⟩
  · exact fun y => ht.isWildcard_of_openParts
  · exact fun y => (hm v t' hx).isWildcard_of_openParts
  rw [openParts_normalized, Ty.openParts_rebuild]
  refine forall_mem_map.mpr fun x hx => ?_
  rw [isWildcard_instantiate (ht.isWildcard_of_openParts hx)
    (hparts x (t.visited_of_openParts x hx).1), hstays x hx]

end Layers

/-! ### All layers -/

theorem seated_objectType : tbl.objectType.Seated :=
  .leaf (forall_mem_nil _) rfl

section Whole

variable (hm : ∀ v x, m.lookup v = some x → x.Seated) (ht : t.Seated)
include hm ht

theorem guarded_of_instantiate (h : tbl.instantiate m t = .ok t') : t'.Guarded := by
  refine every_of_instantiate (fun v x hx => (hm v x hx).guarded) seated_objectType.guarded
    ht.guarded ?_ h
  exact ht.every.visited.mono fun x hx x' h => guardedParts_of_instantiate hm hx h

/-- Substitution keeps the rule if it puts no wildcard at an open place. -/
theorem seated_of_instantiate (hstays : t.Visited (Ty.Stays (m.lookup ·)))
    (h : tbl.instantiate m t = .ok t') : t'.Seated := by
  refine every_of_instantiate hm seated_objectType ht ?_ h
  refine (ht.every.visited.and hstays).mono fun x hx x' h => ?_
  exact forall_mem_append.mpr ⟨guardedParts_of_instantiate hm hx.1 h,
    openParts_of_instantiate hm hx.1 hx.2 h⟩

end Whole

/-- If no open part of the outcome is a wildcard, then no wildcard has been put for one. -/
theorem stays_of_openParts (ht : t.Seated) (h : tbl.instantiate m t = .ok t')
    (ht' : ∀ y ∈ t'.openParts, y.isWildcard = false) : t.Stays (m.lookup ·) := by
  rcases remakes_of_instantiate h with ⟨haffected, rfl⟩ | ⟨_, _, _, rfl, -⟩ | ⟨-, -, hparts, rfl, -⟩
  · exact (Ty.visited_of_not_isAffected haffected).top
  · exact forall_mem_nil _
  rw [openParts_normalized, Ty.openParts_rebuild] at ht'
  intro x hx
  rw [← isWildcard_instantiate (ht.isWildcard_of_openParts hx)
    (hparts x (t.visited_of_openParts x hx).1), ht' _ (mem_map_of_mem hx)]

theorem visited_of_isObject {u} (ht : t.isWildcard = false)
    (hplain : tbl.isObject t = true → t.children = []) (h : tbl.instantiate m t = .ok u)
    (hu : tbl.isObject u.orUpper = true) : t.Visited (Ty.Stays (m.lookup ·)) := by
  rcases remakes_of_instantiate h with ⟨haffected, rfl⟩ | ⟨_, _, _, rfl, -⟩ | hremakes
  · exact Ty.visited_of_not_isAffected haffected
  · exact Ty.visited_var _ _ _
  have hwildcard := (Ty.isWildcard_of_kind_eq hremakes.kind_eq).trans ht
  rw [Ty.orUpper_eq_self hwildcard, hremakes.isObject_eq] at hu
  have hleaf := hplain hu
  refine .intro (fun o ho => ?_) fun x hx => ?_
  · cases hleaf ▸ t.visitedParts_subset o (t.visited_of_openParts o ho).1
  · cases hleaf ▸ t.visitedParts_subset x hx

/-- If the rule is kept, then substitution puts no wildcard at an open place. -/
theorem visited_of_seated (ht : t.Seated)
    (hplain : t.Every fun x => tbl.isObject x = true → x.children = [])
    (h : tbl.instantiate m t = .ok t') (ht' : t'.Seated) : t.Visited (Ty.Stays (m.lookup ·)) := by
  induction t using Ty.children_induction generalizing t' with
  | step t ih =>
    have hstays := stays_of_openParts ht h fun y => ht'.isWildcard_of_openParts
    rcases remakes_of_instantiate h with ⟨haffected, rfl⟩ | ⟨_, _, _, rfl, -⟩ |
      ⟨-, -, hparts, rfl, -⟩
    · exact Ty.visited_of_not_isAffected haffected
    · exact Ty.visited_var _ _ _
    have hpart {x : Ty} (hx : x ∈ t.visitedParts) (hx' : (tbl.outcome m x).Seated) :
        x.Visited (Ty.Stays (m.lookup ·)) :=
      have hchild := t.visitedParts_subset x hx
      ih x hchild (ht.part hchild) (hplain.part hchild) (hparts x hx) hx'
    -- What gives way to a bound has been put for a variable.
    have hsettled {x y : Ty} (hx : x ∈ t.visitedParts) (hguarded : x ∈ t.guardedParts)
        (hy : (tbl.outcome m x).isWildcard = false → y = tbl.outcome m x) (hy' : y.Seated) :
        x.Visited (Ty.Stays (m.lookup ·)) := by
      have hwildcard := isWildcard_instantiate (ht.isWildcard_of_guardedParts hguarded)
        (hparts x hx)
      cases hx' : (tbl.outcome m x).isWildcard with
      | false => exact hpart hx (hy hx' ▸ hy')
      | true =>
        cases x with
        | var n v marks => exact Ty.visited_var n v marks
        | _ => cases hx' ▸ hwildcard
    refine .intro hstays ?_
    cases t with
    | array component marks =>
      refine forall_mem_singleton.mpr ?_
      exact hsettled mem_cons_self mem_cons_self Ty.orUpper_eq_self ht'.component
    | declared c args owner marks =>
      refine fun x hx => hpart hx ?_
      rcases mem_append.mp hx with hx | hx
      · exact ht'.arg (mem_map_of_mem hx)
      · exact ht'.owner (Option.mem_map_of_mem _ (Option.mem_toList.mp hx))
    | wildcard n upper lower marks =>
      have hupper := ht'.upper
      refine forall_mem_cons.mpr ⟨?_, forall_mem_singleton.mpr ?_⟩
      · split_ifs at hupper with hobject
        · exact visited_of_isObject (ht.isWildcard_of_guardedParts mem_cons_self)
            hplain.upper.top (hparts upper mem_cons_self) hobject
        · exact hsettled mem_cons_self mem_cons_self Ty.orUpper_eq_self hupper
      · exact hsettled (by simp [Ty.visitedParts, Ty.children]) (by simp [Ty.guardedParts])
          Ty.orLower_eq_self ht'.lower
    | intersection n bounds =>
      exact fun x hx => hsettled hx hx Ty.orUpper_eq_self (ht'.part (mem_map_of_mem hx))
    | union n alternatives => exact fun x hx => hpart hx (ht'.part (mem_map_of_mem hx))
    | executable e vars result parameters receiver thrown =>
      refine fun x hx => hpart hx (ht'.part (mem_append_right vars ?_))
      simp only [Ty.visitedParts, mem_cons, mem_append] at hx ⊢
      exact hx.imp (congrArg _) (.imp (congrArg _) (.imp mem_map_of_mem mem_map_of_mem))
    | _ => exact forall_mem_nil _

/-! ### Members -/

/-- Wildcards occur in the supertypes and in the bounds that the table declares as type arguments
alone. -/
structure SeatsWildcards (tbl : Table) : Prop where
  supertypes : ∀ c ts, tbl.descriptors (tbl.supertypeExprs c) = .ok ts → ∀ t ∈ ts, t.Seated
  bounds : ∀ v ts, tbl.boundsOf v = .ok ts → ∀ t ∈ ts, t.Seated ∧ t.isWildcard = false

theorem seatsWildcards_of_tests (hpatterns : tbl.testPatterns (fun _ p => decide p.Seated) = true)
    (hbounds : tbl.testBounds (fun _ ts => decide (∀ t ∈ ts, t.Seated ∧ t.isWildcard = false)) =
      true) : tbl.SeatsWildcards where
  supertypes c ts hts t ht := of_decide_eq_true (forall_of_testPatterns hpatterns hts t ht)
  bounds v ts hts := by
    obtain ⟨us, hus, hall⟩ := exists_of_testBounds hbounds (fun _ => decide_eq_true
      (forall_mem_singleton.mpr ⟨seated_objectType, rfl⟩)) v
    cases hts.symm.trans hus
    exact of_decide_eq_true hall

/-- In what an expression denotes no variable stands at an open place. -/
theorem visited_of_denoted (ht : t.Every tbl.Denoted) :
    t.Visited (Ty.Stays σ) := by
  refine ht.visited.mono fun x hx y hy => ?_
  cases x with
  | declared c args owner marks =>
    have hkind := hx.2.2 y (Option.mem_toList.mp hy)
    cases y with
    | declared => rfl
    | _ => cases hkind
  | union | executable => cases hx
  | _ => cases hy

namespace SeatsWildcards

variable (h : tbl.SeatsWildcards)
include h

theorem seated_of_upperBound {v} (ht : tbl.upperBound v = .ok t) : t.Seated := by
  obtain ⟨ts, hts, ht⟩ := bind_eq_ok.mp ht
  have hbounds := h.bounds v ts hts
  split at ht
  · cases ht
    exact (hbounds t mem_cons_self).1
  · obtain ⟨rfl, -⟩ := makeIntersection_eq_ok ht
    refine .intro (fun y hy => ?_) fun x hx => (hbounds x hx).1
    exact (hbounds y (by simpa [Ty.guardedParts, Ty.openParts] using hy)).2

theorem persists :
    tbl.Persists fun x => ∀ y ∈ x.guardedParts ++ x.openParts, y.isWildcard = false where
  unmarked h := h
  normal h := h.seated
  supertypes := h.supertypes
  upperBound := h.seated_of_upperBound
  instantiate hm hdenoted ht := seated_of_instantiate hm ht (visited_of_denoted hdenoted)

/-- What is found on the way up keeps wildcards to type arguments. -/
theorem seated_of_climb {n k target r} (ht : t.Seated)
    (hr : climb (tbl.ascend n target) k t = .ok (some r)) : r.Seated :=
  h.persists.climb ht hr

end SeatsWildcards

/-- In the type of an executable a variable stands at an open place only if it is a part. -/
theorem visited_of_executableType (ht : tbl.executableType e = .ok t) (hstays : t.Stays σ) :
    t.Visited (Ty.Stays σ) := by
  obtain ⟨result, hresult, ht⟩ := bind_eq_ok.mp ht
  obtain ⟨parameters, hparameters, ht⟩ := bind_eq_ok.mp ht
  obtain ⟨thrown, hthrown, ht⟩ := bind_eq_ok.mp ht
  cases ht
  have hresult : result.Visited (Ty.Stays σ) := by
    rw [resultType] at hresult
    split_ifs at hresult
    · cases hresult
      exact .leaf (forall_mem_nil _) rfl
    · exact visited_of_denoted (descriptor_denoted _ hresult)
  have hreceiver : (tbl.receiverType e).Visited (Ty.Stays σ) := by
    rw [receiverType]
    split_ifs
    · cases ho : tbl.implicitOwner e.cls with
      | none => exact .leaf (forall_mem_nil _) rfl
      | some o => exact visited_of_denoted (implicitOwner_denoted e.cls o ho).1
    · exact .leaf (forall_mem_nil _) rfl
    · exact visited_of_denoted (selfTypeIn_denoted _ _).1
  refine .intro hstays (forall_mem_cons.mpr ⟨hresult, forall_mem_cons.mpr
    ⟨hreceiver, forall_mem_append.mpr ⟨?_, ?_⟩⟩⟩)
  · exact fun x hx => visited_of_denoted (descriptors_denoted _ hparameters x hx)
  · exact fun x hx => visited_of_denoted (descriptors_denoted _ hthrown x hx)

theorem visited_nil : t.Visited (Ty.Stays (([] : Mapping).lookup ·)) := by
  refine (Ty.Every.of_forall (fun x y _ => ?_) t).visited
  cases y <;> rfl

theorem eq_of_memberDeclarer {c} (h : tbl.memberDeclarer t (.executable e) = .ok c) :
    c = e.cls := by
  cases t with
  | declared d args owner marks =>
    obtain ⟨declarer, hdeclarer, h⟩ := bind_eq_ok.mp h
    cases hdeclarer
    obtain ⟨below, -, h⟩ := bind_eq_ok.mp h
    split_ifs at h
    · cases h
      rfl
    · obtain ⟨name, -, h⟩ := bind_eq_ok.mp h
      cases h
  | _ => cases h

/-- What a containing type puts for type parameters, if it has the class that declares the member
above it. -/
def givenBy (tbl : Table) (r : Option Ty) (v : TypeVarId) : Option Ty :=
  r.bind fun s => tbl.assignment s v

theorem exists_mapping_of_memberTypeThrough {r p y} (hp : tbl.typeOf (.executable e) = .ok p)
    (hr : ∀ s ∈ r, s.Seated) (hy : tbl.memberTypeThrough r (.executable e) = .ok y) :
    ∃ m, tbl.substitute m p = .ok y ∧ tbl.givenBy r = (m.lookup ·) ∧
      ∀ v x, m.lookup v = some x → x.Seated := by
  have hunder {m : Mapping} (hy : tbl.memberTypeUnder m (.executable e) = .ok y) :
      tbl.substitute m p = .ok y := by
    obtain ⟨p', hp', hy⟩ := bind_eq_ok.mp hy
    cases hp.symm.trans hp'
    exact hy
  cases r with
  | none => exact ⟨[], hunder hy, rfl, fun _ _ hx => by cases hx⟩
  | some s =>
    obtain ⟨m, hm, hy⟩ := bind_eq_ok.mp hy
    refine ⟨m, hunder hy, funext fun v => (lookup_typeMapping hm v).symm, fun v x hx => ?_⟩
    exact every_assignment (hr s rfl) v x ((lookup_typeMapping hm v).symm.trans hx)

/-- Substitution puts a wildcard outside type arguments exactly if a variable for which the mapping
has a wildcard is an alternative of a union, an owner, or a part of an executable; at components and
at bounds it never does. So the type of an executable as a member has a wildcard as a part exactly
if the part is a variable for which the containing type has a wildcard. -/
theorem seated_substitute_memberType (tbl : Table) :
    (∀ m t t', (∀ e ∈ m, e.2.Seated) → t.Seated →
      (t.Every fun x => tbl.isObject x = true → x.children = []) → tbl.substitute m t = .ok t' →
      t'.Guarded ∧ (t'.Seated ↔ t.Visited (Ty.Stays (m.lookup ·)))) ∧
    (tbl.SeatsWildcards → ∀ k t e p y, t.Seated → tbl.typeOf (.executable e) = .ok p → p.Seated →
      tbl.memberType k t (.executable e) = .ok y →
      ∃ r, (tbl.resolveSupertype k t e.cls : Result (Option Ty)) = .ok r ∧ y.Guarded ∧
        (y.Seated ↔ p.Stays (tbl.givenBy r))) := by
  refine ⟨fun m t t' hm ht hplain h => ?_, fun htable k t e p y ht hp hseated hy => ?_⟩
  · have hlookup (v : TypeVarId) (x : Ty) (hx : m.lookup v = some x) : x.Seated :=
      hm _ (mem_of_lookup hx)
    rcases substitute_eq_ok h with ⟨rfl, rfl⟩ | h
    · exact ⟨ht.guarded, fun _ => visited_nil, fun _ => ht⟩
    · exact ⟨guarded_of_instantiate hlookup ht h, visited_of_seated ht hplain h,
        fun hstays => seated_of_instantiate hlookup ht hstays h⟩
  · obtain ⟨declarer, hdeclarer, hy⟩ := bind_eq_ok.mp hy
    obtain ⟨r, hr, hy⟩ := bind_eq_ok.mp hy
    rw [eq_of_memberDeclarer hdeclarer] at hr
    have hr' : ∀ s ∈ r, s.Seated := by
      rintro s rfl
      rw [resolveSupertype_eq_climb] at hr
      exact htable.seated_of_climb ht hr
    obtain ⟨m, hy, hgiven, hlookup⟩ := exists_mapping_of_memberTypeThrough hp hr' hy
    refine ⟨r, hr, ?_⟩
    rw [hgiven]
    rcases substitute_eq_ok hy with ⟨rfl, rfl⟩ | hy
    · exact ⟨hseated.guarded, fun _ => visited_nil.top, fun _ => hseated⟩
    · refine ⟨guarded_of_instantiate hlookup hseated hy, fun hy' => ?_, fun hstays => ?_⟩
      · exact stays_of_openParts hseated hy fun y => hy'.isWildcard_of_openParts
      · exact seated_of_instantiate hlookup hseated (visited_of_executableType hp hstays) hy

/-- An interface of boxes, whose methods give the content and take an array of contents, and a class
of sacks that are boxes. -/
def boxes : Table :=
  let T : Expr := .var ⟨.cls ⟨1⟩, 0⟩ []
  { classes := #[
      { name := "java.lang.Object", simpleName := "Object", kind := .cls },
      { name := "p.Box", simpleName := "Box", kind := .interface,
        typeParameters := [{ name := "T" }], methods := [
          { name := "get", returnType := T },
          { name := "fill", returnType := .applied ⟨1⟩ [T] none [],
            parameters := [{ name := "contents", type := .array T [] }] }] },
      { name := "p.Sack", simpleName := "Sack", kind := .cls, typeParameters := [{ name := "U" }],
        superclass := some (.named ⟨0⟩ []),
        interfaces := [.applied ⟨1⟩ [.var ⟨.cls ⟨2⟩, 0⟩ []] none []] }] }

namespace Boxes

/-- The content of boxes. -/
def content : Ty :=
  .var 0 ⟨.cls ⟨1⟩, 0⟩ []

/-- A wildcard that is bounded by arrays. -/
def arrays : Ty :=
  .wildcard 0 (.array boxes.objectType []) .null []

/-- Boxes with the given content. -/
def box (t : Ty) : Ty :=
  .declared ⟨1⟩ [t] none []

/-- The method that gives the content. -/
def get (t : Ty) : Ty :=
  .executable ⟨⟨1⟩, false, 0⟩ [] t [] (box t) []

/-- The method that takes an array of contents. -/
def fill (t component : Ty) : Ty :=
  .executable ⟨⟨1⟩, false, 1⟩ [] (box t) [.array component []] (box t) []

/-- The content, an array of it or a box with it. -/
def sorts (t component : Ty) : Ty :=
  .union 0 [t, .array component [], box t]

end Boxes

open Boxes in
theorem seated_substitute_memberType_boxes :
    let m : Mapping := [(⟨.cls ⟨1⟩, 0⟩, arrays)]
    let upper := Ty.array boxes.objectType []
    let sack := Ty.declared ⟨2⟩ [arrays] none []
    boxes.substitute m (sorts content content) = .ok (sorts arrays upper) ∧
      ((sorts arrays upper).Guarded ∧ ((sorts arrays upper).Seated ↔
        (sorts content content).Visited (Ty.Stays (m.lookup ·)))) ∧
      boxes.memberType 5 sack (.executable ⟨⟨1⟩, false, 1⟩) = .ok (fill arrays upper) ∧
      ∃ r, (boxes.resolveSupertype 5 sack ⟨1⟩ : Result (Option Ty)) = .ok r ∧
        (fill arrays upper).Guarded ∧
        ((fill arrays upper).Seated ↔ (fill content content).Stays (boxes.givenBy r)) := by
  intro m upper sack
  have hseats : boxes.SeatsWildcards := seatsWildcards_of_tests (by rfl) (by rfl)
  have hsubstitute : boxes.substitute m (sorts content content) = .ok (sorts arrays upper) := by rfl
  have hmember : boxes.memberType 5 sack (.executable ⟨⟨1⟩, false, 1⟩) =
      .ok (fill arrays upper) := by
    cbv
  obtain ⟨hfirst, hsecond⟩ := seated_substitute_memberType boxes
  refine ⟨hsubstitute, ?_, hmember, ?_⟩
  · exact hfirst m _ _ (by decide) (by decide) (by decide) hsubstitute
  · exact hsecond hseats 5 sack ⟨⟨1⟩, false, 1⟩ (fill content content) _ (by decide)
      (by rfl) (by decide) hmember

open Boxes in
/-- A wildcard gets to be an alternative of a union, and the type of the content of a sack. -/
theorem substitute_memberType_not_seated :
    let sack := Ty.declared ⟨2⟩ [arrays] none []
    ((sorts content content).Seated ∧ arrays.Seated ∧ arrays.isArgument = true ∧
      ∃ t, boxes.substitute [(⟨.cls ⟨1⟩, 0⟩, arrays)] (sorts content content) = .ok t ∧ ¬t.Seated) ∧
    (get content).Seated ∧ sack.Seated ∧
      boxes.typeOf (.executable ⟨⟨1⟩, false, 0⟩) = .ok (get content) ∧
      boxes.memberType 5 sack (.executable ⟨⟨1⟩, false, 0⟩) = .ok (get arrays) ∧
      arrays.isWildcard = true ∧ ¬(get arrays).Seated := by
  refine ⟨⟨by decide, by decide, rfl, sorts arrays (.array boxes.objectType []), by rfl, by decide⟩,
    by decide, by decide, by rfl, by cbv, rfl, by decide⟩

end Table

end NominalTypes
