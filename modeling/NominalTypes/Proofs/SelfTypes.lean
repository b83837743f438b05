import NominalTypes.Element.Type
import NominalTypes.Ty.Apply
import NominalTypes.Proofs.StructuralErrors
import NominalTypes.Proofs.VariableBounds

/-!
# A class applied to its own type parameters

Applied to its own type parameters, a class gives its self type, which is also what the expression
for the class inside its own declaration denotes. The arguments are checked against the bounds of
the parameters. Each of them is put for itself in the bounds, which leaves the bounds as they are,
so no check answers that a parameter is out of its bounds: the parameter is below its upper bound,
which is the bound or has it as a member. The other members that are tried first may fail, though
not for the structure of a type. The owner that the application implies is that of the self type,
because a class is entered in the table after the classes around it.
-/

namespace NominalTypes

open List

namespace Table

variable {tbl : Table} {c e : ClassId} {t t' : Ty}

/-! ### Self types -/

theorem Nested.enclosersWithin_succ (h : tbl.Nested) {n} (hc : c.index < n) :
    tbl.enclosersWithin (n + 1) c = tbl.enclosersWithin n c := by
  induction n generalizing c with
  | zero => exact absurd hc (Nat.not_lt_zero _)
  | succ n ih =>
    rw [enclosersWithin, enclosersWithin]
    cases he : (tbl.cls c).enclosing with
    | none => rfl
    | some e =>
      have hlt := (h c e he).1
      exact congrArg (e :: ·) (ih (by omega))

theorem Nested.enclosers_eq (h : tbl.Nested) (he : (tbl.cls c).enclosing = some e) :
    tbl.enclosers c = e :: tbl.enclosers e := by
  have hc := lt_size_of_enclosing he
  obtain ⟨n, hn⟩ := Nat.exists_eq_succ_of_ne_zero (Nat.ne_zero_of_lt hc)
  have hlt := (h c e he).1
  rw [enclosers, enclosers, hn, enclosersWithin, he, Nat.succ_eq_add_one,
    h.enclosersWithin_succ (by omega)]

theorem enclosers_eq_nil (he : (tbl.cls c).enclosing = none) : tbl.enclosers c = [] := by
  rw [enclosers]
  cases tbl.classes.size with
  | zero => rfl
  | succ n => rw [enclosersWithin, he]

/-- The owner of a self type is the one that is implied where the class is used without an owner. -/
theorem Nested.selfType_eq_declared (h : tbl.Nested) (c : ClassId) :
    tbl.selfType c = .declared c (tbl.ownVariables (.cls c)) (tbl.implicitOwner c) [] := by
  cases he : (tbl.cls c).enclosing with
  | none =>
    rw [selfType, enclosers_eq_nil he, implicitOwner, he]
    rfl
  | some e =>
    rw [selfType, h.enclosers_eq he, implicitOwner, he]
    rfl

theorem length_ownVariables (c : ClassId) : (tbl.ownVariables (.cls c)).length = tbl.arity c := by
  simp [ownVariables, typeVars, typeParametersOf, arity]

theorem isArgument_of_mem_ownVariables {g : GenericId} :
    ∀ a ∈ tbl.ownVariables g, a.isArgument = true := by
  intro a ha
  obtain ⟨v, -, rfl⟩ := mem_map.mp ha
  rfl

theorem descriptor_selfExprWith (hc : (tbl.cls c).isPrimitive = false) {owner : Option Expr} {o}
    (howner : tbl.OwnerOf c owner o) : tbl.descriptor (tbl.selfExprWith c owner) =
      .ok (.declared c (tbl.ownVariables (.cls c)) o []) := by
  have hvars : tbl.descriptors ((tbl.typeVars (.cls c)).map fun v => .var v []) =
      .ok (tbl.ownVariables (.cls c)) := by
    rw [descriptors_eq_mapM, mapM_eq_ok, ownVariables, forall₂_map_left_iff, forall₂_map_right_iff]
    exact forall₂_same.mpr fun _ _ => rfl
  unfold selfExprWith
  split
  · rename_i hnil
    cases howner
    rw [descriptor, hc, ownVariables, hnil]
    rfl
  · exact descriptor_applied hc hvars (.inr (length_ownVariables c)) isArgument_of_mem_ownVariables
      howner

/-- The expression for a class inside its own declaration denotes the self type. By induction on the
class: an owner is written only if it has arguments, and otherwise it is the implied one. -/
theorem Nested.descriptor_selfExpr (h : tbl.Nested) (hc : (tbl.cls c).isPrimitive = false) :
    tbl.descriptor (tbl.selfExpr c) = .ok (tbl.selfType c) := by
  induction hn : c.index using Nat.strong_induction_on generalizing c with
  | _ n ih =>
    rw [h.selfType_eq_declared]
    cases he : (tbl.cls c).enclosing with
    | none =>
      rw [selfExpr, enclosers_eq_nil he]
      exact descriptor_selfExprWith hc .implied
    | some e =>
      obtain ⟨hlt, hprimitive⟩ := h c e he
      have hself := ih e.index (hn ▸ hlt) hprimitive rfl
      rw [selfExpr, h.enclosers_eq he, selfExprIn]
      split
      · exact descriptor_selfExprWith hc .implied
      · rename_i hstatic
        split
        · rename_i heq
          rw [selfExpr, heq] at hself
          have howner : tbl.implicitOwner c = some (tbl.selfType e) := by
            rw [implicitOwner, he]
            exact if_neg hstatic
          rw [howner]
          exact descriptor_selfExprWith hc (.written hself (selfTypeIn_denoted _ _).2)
        · exact descriptor_selfExprWith hc .implied

/-! ### Type parameters within their bounds -/

/-- The layer is none of an intersection, and the root class bounds a wildcard as that of the core
library. -/
def Settled (tbl : Table) : Ty → Prop
  | .wildcard _ upper _ _ => tbl.isObject upper = true → upper = tbl.objectType
  | .intersection _ _ => False
  | _ => True

theorem settled_selfTypeIn (c : ClassId) (es : List ClassId) :
    (tbl.selfTypeIn c es).Every tbl.Settled := by
  have hargs (c : ClassId) : ∀ a ∈ (tbl.typeVars (.cls c)).map fun v => Ty.var 0 v [],
      a.Every tbl.Settled := by
    intro a ha
    obtain ⟨v, -, rfl⟩ := mem_map.mp ha
    exact .leaf trivial rfl
  induction es generalizing c with
  | nil => exact .declared trivial (hargs c) nofun
  | cons e es ih =>
    refine .declared trivial (hargs c) fun o ho => ?_
    split at ho
    · cases ho
    · cases ho
      exact ih e

theorem settled_implicitOwner (c : ClassId) : ∀ o ∈ tbl.implicitOwner c, o.Every tbl.Settled := by
  intro o ho
  rw [implicitOwner] at ho
  split at ho
  · split at ho
    · cases ho
    · cases ho
      exact settled_selfTypeIn _ _
  · cases ho

/-- What is read denotes a settled type. -/
theorem settled_descriptor {e : Expr} {member} (h : e.Written tbl.arity member)
    (ht : tbl.descriptor e = .ok t) : t.Every tbl.Settled := by
  have hargs {args : List Expr} {as} (has : tbl.descriptors args = .ok as)
      (ih : ∀ a ∈ args, ∀ {t}, tbl.descriptor a = .ok t → t.Every tbl.Settled) :
      ∀ s ∈ as, s.Every tbl.Settled := by
    intro s hs
    obtain ⟨a, ha, hs⟩ := exists_of_forall₂_right (mapM_eq_ok.mp (descriptors_eq_mapM args ▸ has))
      hs
    exact ih a ha hs
  have hobject : tbl.objectType.Every tbl.Settled := .leaf trivial rfl
  induction h generalizing t with
  | named =>
    cases describes_of_descriptor ht with
    | primitive | void => exact .leaf trivial rfl
    | named => exact .declared trivial (forall_mem_nil _) (settled_implicitOwner _)
  | var =>
    cases ht
    exact .leaf trivial rfl
  | array _ _ ih =>
    cases describes_of_descriptor ht with
    | array hs _ => exact .array trivial (ih hs)
  | applied _ _ _ ih =>
    cases describes_of_descriptor ht with
    | applied _ has _ _ howner =>
      cases howner
      exact .declared trivial (hargs has ih) (settled_implicitOwner _)
  | member _ _ _ _ ih ihowner =>
    cases describes_of_descriptor ht with
    | applied _ has _ _ howner =>
      cases howner with
      | written hd _ =>
        refine .declared trivial (hargs has ih) ?_
        rintro o ⟨⟩
        exact ihowner hd
  | unbounded =>
    cases ht
    exact .wildcard (fun _ => rfl) hobject (.leaf trivial rfl)
  | upper _ _ ih =>
    rw [descriptor_upper] at ht
    obtain ⟨s, hs, ht⟩ := bind_eq_ok.mp ht
    rw [makeWildcard_upper] at ht
    split_ifs at ht with hroot
    · cases ht
      exact .wildcard (fun _ => rfl) hobject (.leaf trivial rfl)
    · cases ht
      exact .wildcard (absurd · hroot) (ih hs) (.leaf trivial rfl)
  | lower _ _ ih =>
    rw [descriptor_lower] at ht
    obtain ⟨s, hs, ht⟩ := bind_eq_ok.mp ht
    rw [makeWildcard_lower] at ht
    split_ifs at ht
    · cases ht
      exact .wildcard (fun _ => rfl) hobject (.leaf trivial rfl)
    · cases ht
      exact .wildcard (fun _ => rfl) hobject (ih hs)

theorem normalized_rebuild_id (ht : tbl.Denoted t) (hsettled : tbl.Settled t) :
    tbl.normalized (t.rebuild id) = t := by
  cases t with
  | array component marks => simp [Ty.rebuild, normalized, Ty.orUpper_eq_self ht.2]
  | declared c args owner marks => simp [Ty.rebuild, normalized]
  | wildcard n upper lower marks =>
    obtain ⟨rfl, hupper, hlower, -⟩ := ht
    simp only [isBadBound, Bool.or_eq_false_iff] at hupper hlower
    simp only [Ty.rebuild, normalized, id, Ty.orUpper_eq_self hupper.1.1,
      Ty.orLower_eq_self hlower.1.1]
    split_ifs with hroot
    · rw [hsettled hroot]
    · rfl
  | var | primitive | void | null => rfl
  | intersection => cases hsettled
  | none | captured | union | executable | package => cases ht

/-- No check answers that a type parameter is not below one of its bounds: the upper bound is this
bound or has it as a member. -/
theorem isSubtype_bound_ne_false {v : TypeVarId} {ts} (hts : tbl.boundsOf v = .ok ts) (ht : t ∈ ts)
    (hsame : t.same t' = true) (hkind : t.kind = .declared ∨ t.kind = .typevar) {fuel : Nat} :
    tbl.isSubtype fuel (.var 0 v []) t' ≠ .ok false := by
  intro hbelow
  have hcheck := isSubtype_eq_ok hbelow
  have hatomic : t.Atomic := by
    rcases hkind with hkind | hkind <;> simp [Ty.Atomic, hkind]
  have hplain : t'.isPrimitive = false ∧ t'.isNoType = false := by
    rw [Ty.kind_eq_of_same hsame] at hkind
    cases t' <;> first | exact ⟨rfl, rfl⟩ | simp [Ty.kind] at hkind
  obtain ⟨u, hu, hamong⟩ : ∃ u, tbl.upperBound v = .ok u ∧ AmongBounds t' u := by
    have halike : AmongBounds t' t := .alike (.atomic hatomic hsame)
    rw [upperBound, hts]
    rcases ts with _ | ⟨x, _ | ⟨y, zs⟩⟩
    · cases ht
    · exact ⟨x, rfl, mem_singleton.mp ht ▸ halike⟩
    · exact ⟨.intersection 0 (x :: y :: zs), rfl, .bound ht halike⟩
  cases fuel with
  | zero => cases hcheck
  | succ k =>
    have hatomic' := hatomic.of_same hsame
    refine check_ne_false_of_tidy (.flat (.atomic hatomic')) hamong
      (check_upperBound_of_check (.var hu) ⟨hatomic'.1, hatomic'.2.1⟩ hplain.1 hplain.2 hcheck)

section Bounds

variable {m : Mapping} (hm : ∀ v x, m.lookup v = some x → x = .var 0 v [])
include hm

/-- Type parameters that are put for themselves change nothing. -/
theorem same_of_instantiate_self (hdenoted : t.Every tbl.Denoted) (hsettled : t.Every tbl.Settled)
    (h : tbl.instantiate m t = .ok t') : t.same t' = true := by
  induction hdenoted generalizing t' with
  | @intro t top _ ih =>
    rcases remakes_of_instantiate h with ⟨-, rfl⟩ | ⟨n, v, marks, rfl, hx⟩ | hremakes
    · exact Ty.same_refl _
    · cases hm v t' hx
      exact beq_self_eq_true v
    · have hsame := same_normalized_rebuild (f := id) top fun x hx =>
        ih x hx (hsettled.part hx) (hremakes.parts x (top.parts_eq.1.symm ▸ hx))
      rwa [normalized_rebuild_id top hsettled.top, ← hremakes.eq] at hsame

/-- A check of a type parameter against its own bounds meets no structural error, and does not find
it out of its bounds. -/
theorem Readable.sound_checkBounds (h : tbl.Readable) (hroot : tbl.isObject tbl.objectType = true)
    {v : TypeVarId} (hkinds : ∀ ts, tbl.boundsOf v = .ok ts → ∀ t ∈ ts,
      t.kind = .declared ∨ t.kind = .typevar) (fuel : Nat) :
    Sound (tbl.checkBounds fuel m v (.var 0 v [])) := by
  have hvar : (Ty.var 0 v []).Every tbl.Made := .leaf (.inl trivial) rfl
  refine (h.sound_boundsOf v).bind fun ts hts => .forM fun t ht => ?_
  have hdenoted : t.Every tbl.Denoted ∧ t.Every tbl.Settled := by
    rw [boundsOf] at hts
    split at hts
    · cases hts
      cases mem_singleton.mp ht
      exact ⟨every_denoted_objectType, .leaf trivial rfl⟩
    · rw [descriptors_eq_mapM] at hts
      obtain ⟨e, he, hdenotes⟩ := exists_of_forall₂_right (mapM_eq_ok.mp hts) ht
      obtain ⟨c, hc⟩ := exists_mem_exprs_of_bounds he
      exact ⟨descriptor_denoted e hdenotes, settled_descriptor (h c e hc) hdenotes⟩
  obtain ⟨t', ht', hsame, hmade⟩ : ∃ t', tbl.substitute m t = .ok t' ∧ t.same t' = true ∧
      t'.Every tbl.Made := by
    have hmade := every_made_of_denoted hroot hdenoted.1
    rw [substitute]
    split
    · exact ⟨t, rfl, Ty.same_refl t, hmade⟩
    · have hsuits : ∀ v x, m.lookup v = some x → x.Suits := by
        intro v x hx
        cases hm v x hx
        exact ⟨rfl, rfl, rfl⟩
      obtain ⟨t', ht'⟩ := exists_instantiate hsuits
        (hdenoted.1.mono fun _ hx => hx.passed.checked hroot)
      refine ⟨t', ht', same_of_instantiate_self hm hdenoted.1 hdenoted.2 ht',
        every_made_of_instantiate hroot (fun v x hx => ?_) hmade ht'⟩
      cases hm v x hx
      exact .leaf (.inl trivial) rfl
  rw [ht']
  refine Sound.bind (.ok t') fun _ h' => ?_
  cases h'
  refine Sound.bind ((sound_requireType _).bind fun _ _ => (sound_requireType _).bind fun _ _ =>
    h.sound_check hroot fuel .subtype _ t' hvar hmade) fun below hbelow => ?_
  cases below with
  | true => exact .ok _
  | false => exact absurd hbelow (isSubtype_bound_ne_false hts ht hsame (hkinds ts hts t ht))

end Bounds

/-- A class that is no stand-in, applied to its own type parameters, gives its self type or fails
for another reason than the structure of types, if its type parameters are bounded by classes and
type variables. The self type is what the expression for the class in its own declaration
denotes. -/
theorem Loaded.apply_ownVariables (h : tbl.Loaded) (hroot : tbl.isObject tbl.objectType = true)
    (henums : tbl.UnaryEnums) (hc : (tbl.cls c).isPrimitive = false)
    (hkinds : ∀ v ∈ tbl.typeVars (.cls c), ∀ ts, tbl.boundsOf v = .ok ts →
      ∀ t ∈ ts, t.kind = .declared ∨ t.kind = .typevar) (fuel : Nat) :
    ∃ self, tbl.typeOf (.type c) = .ok self ∧ tbl.descriptor (tbl.selfExpr c) = .ok self ∧
      (∀ fault, tbl.apply fuel c (tbl.ownVariables (.cls c)) none ≠ .error (.structural fault)) ∧
      ∀ t, tbl.apply fuel c (tbl.ownVariables (.cls c)) none = .ok t → t = self := by
  have hlegible := h.legible
  have hreadable := hlegible.readable henums
  have hself := hlegible.nested.selfType_eq_declared c
  have hmade : tbl.makeDeclared c (tbl.ownVariables (.cls c)) (tbl.implicitOwner c) [] =
      .ok (tbl.selfType c) := by
    rw [hself]
    exact makeDeclared_ok _ _ (.inr (length_ownVariables c)) isArgument_of_mem_ownVariables
  have hmapping : (tbl.typeVars (.cls c)).zip (tbl.ownVariables (.cls c)) =
      (tbl.typeVars (.cls c)).map fun v => (v, Ty.var 0 v []) :=
    map_prod_left_eq_zip.symm
  have hlookup : ∀ v x,
      ((tbl.typeVars (.cls c)).zip (tbl.ownVariables (.cls c))).lookup v = some x →
      x = .var 0 v [] := by
    intro v x hx
    obtain ⟨_, _, heq, -⟩ := lookup_eq_some_iff.mp hx
    have hmem : (v, x) ∈ (tbl.typeVars (.cls c)).zip (tbl.ownVariables (.cls c)) := by
      simp [heq]
    rw [hmapping] at hmem
    obtain ⟨w, -, hw⟩ := mem_map.mp hmem
    cases hw
    rfl
  refine ⟨tbl.selfType c, rfl, hlegible.nested.descriptor_selfExpr hc, ?_, fun t ht => ?_⟩
  · rw [apply, applicationOwner]
    refine Sound.bind (.ok _) fun owner howner => ?_
    cases howner
    rw [hmade]
    refine Sound.bind (.ok _) fun _ hresult => (Sound.forM fun entry hentry => ?_).bind
      fun _ _ => .ok _
    rw [hmapping] at hentry
    obtain ⟨v, hv, rfl⟩ := mem_map.mp hentry
    exact hreadable.sound_checkBounds hlookup hroot (hkinds v hv) fuel
  · rw [apply, applicationOwner] at ht
    obtain ⟨owner, howner, ht⟩ := bind_eq_ok.mp ht
    cases howner
    rw [hmade] at ht
    obtain ⟨_, hresult, ht⟩ := bind_eq_ok.mp ht
    obtain ⟨_, -, ht⟩ := bind_eq_ok.mp ht
    cases hresult
    cases ht
    rfl

/-- A root class. -/
def rootDocument : Datum :=
  .object [("package", .text "java.lang"), ("types", .list [
    .object [("name", .text "Object"), ("kind", .text "interface")]])]

/-- A generic class with an inner class, whose type parameter is mentioned in its own bound. -/
def innerDocument : Datum :=
  .object [("package", .text "p"), ("types", .list [
    .object [("name", .text "I"), ("kind", .text "interface"), ("type_params", .list [.text "E"])],
    .object [("name", .text "C"), ("type_params", .list [.text "A"]), ("constructors", .list []),
      ("superclass", .text "I<A>"), ("types", .list [
        .object [("name", .text "D"), ("type_params", .list [.text "T extends I<T>"]),
          ("superclass", .text "I<A>"), ("constructors", .list [])]])]])]

set_option maxRecDepth 20000 in
theorem load_innerDocument : ∃ base tbl,
    ({ paths := #[{}, {}] } : Table).load ⟨0⟩ [rootDocument] = (.ok [⟨0⟩], base) ∧
    base.load ⟨1⟩ [innerDocument] = (.ok [⟨1⟩, ⟨2⟩, ⟨3⟩], tbl) ∧
    tbl.isObject tbl.objectType = true ∧
    tbl.classes.toList.map (·.exprs) = [[], [], [.applied ⟨1⟩ [.var ⟨.cls ⟨2⟩, 0⟩ []] none []],
      [.applied ⟨1⟩ [.var ⟨.cls ⟨2⟩, 0⟩ []] none [],
        .applied ⟨1⟩ [.var ⟨.cls ⟨3⟩, 0⟩ []] none []]] ∧
    (tbl.cls ⟨3⟩).isPrimitive = false ∧ tbl.typeVars (.cls ⟨3⟩) = [⟨.cls ⟨3⟩, 0⟩] ∧
    tbl.boundsOf ⟨.cls ⟨3⟩, 0⟩ = .ok [.declared ⟨1⟩ [.var 0 ⟨.cls ⟨3⟩, 0⟩ []] none []] ∧
    tbl.apply 8 ⟨3⟩ (tbl.ownVariables (.cls ⟨3⟩)) none =
      .ok (.declared ⟨3⟩ [.var 0 ⟨.cls ⟨3⟩, 0⟩ []]
        (some (.declared ⟨2⟩ [.var 0 ⟨.cls ⟨2⟩, 0⟩ []] none [])) []) := by
  refine ⟨(({ paths := #[{}, {}] } : Table).load ⟨0⟩ [rootDocument]).2,
    ((({ paths := #[{}, {}] } : Table).load ⟨0⟩ [rootDocument]).2.load ⟨1⟩ [innerDocument]).2, ?_⟩
  cbv

theorem Loaded.apply_ownVariables_inner : ∃ tbl : Table, tbl.Loaded ∧ tbl.UnaryEnums ∧
    tbl.typeOf (.type ⟨3⟩) = .ok (.declared ⟨3⟩ [.var 0 ⟨.cls ⟨3⟩, 0⟩ []]
      (some (.declared ⟨2⟩ [.var 0 ⟨.cls ⟨2⟩, 0⟩ []] none [])) []) := by
  obtain ⟨base, tbl, hbase, hload, hroot, hexprs, hc, hvars, hbounds, happly⟩ := load_innerDocument
  have hloaded : tbl.Loaded := by
    have hstart : ({ paths := #[{}, {}] } : Table).Loaded := .start rfl
    have h := (hstart.load ⟨0⟩ [rootDocument]).load ⟨1⟩ [innerDocument]
    rw [hbase, hload] at h
    exact h
  have henums : tbl.UnaryEnums := by
    intro c k hk
    obtain hc | hc := Nat.lt_or_ge c.index tbl.classes.size
    · have hmem : (tbl.cls c).exprs ∈ tbl.classes.toList.map (·.exprs) :=
        mem_map_of_mem (by simp [cls, hc])
      rw [hexprs] at hmem
      grind
    · rw [cls_eq_default hc] at hk
      cases hk
  have hkinds : ∀ v ∈ tbl.typeVars (.cls ⟨3⟩), ∀ ts, tbl.boundsOf v = .ok ts →
      ∀ t ∈ ts, t.kind = .declared ∨ t.kind = .typevar := by
    intro v hv ts hts t ht
    rw [hvars, mem_singleton] at hv
    subst hv
    cases hbounds.symm.trans hts
    rw [mem_singleton] at ht
    subst ht
    exact .inl rfl
  obtain ⟨self, hself, -, -, hresult⟩ := hloaded.apply_ownVariables hroot henums hc hkinds 8
  refine ⟨tbl, hloaded, henums, ?_⟩
  rw [hself, hresult _ happly]

/-- An enum on a class path whose class of all enums takes no type arguments, and an interface whose
type parameter it bounds. -/
def bareEnumDocuments : List Datum :=
  [.object [("package", .text "p"), ("types", .list [
    .object [("name", .text "I"), ("kind", .text "interface"),
      ("type_params", .list [.text "T extends E & I<T>"])],
    .object [("name", .text "E"), ("kind", .text "enum"), ("interfaces", .list [.text "I<E>"]),
      ("constructors", .list [])]])],
  .object [("package", .text "java.lang"), ("types", .list [
    .object [("name", .text "Enum"), ("kind", .text "interface")]])]]

set_option maxRecDepth 20000 in
theorem apply_ownVariables_bareEnum : ∃ tbl,
    ({ paths := #[{}] } : Table).load ⟨0⟩ bareEnumDocuments = (.ok [⟨0⟩, ⟨1⟩, ⟨2⟩], tbl) ∧
    tbl.apply 6 ⟨0⟩ (tbl.ownVariables (.cls ⟨0⟩)) none =
      .error (.structural (.argumentCount "java.lang.Enum" 0 1)) := by
  refine ⟨(({ paths := #[{}] } : Table).load ⟨0⟩ bareEnumDocuments).2, ?_⟩
  cbv

end Table

end NominalTypes
