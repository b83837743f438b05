import NominalTypes.Proofs.Positions
import NominalTypes.Proofs.UpperBounds
import NominalTypes.Ty.Apply

/-!
# Captured variables come from captures

Only capture conversion makes captured variables. All other operations on types, from building over
substitution and erasure to least upper bounds, put together parts of the types they are given, the
types that expressions denote, and the root class. So if the numbers of the captured variables that
go into them have some property, then so have the numbers of those that come out.

Nothing in this is particular to captured variables: all that counts is that they are the layers
which may lack the property, and that these operations make none. So having such numbers is a
`Ty.Lenient` property of layers.
-/

namespace NominalTypes

open List

variable {t' t : Ty} {c : ClassId} {x : Element} {e : ExecutableId} {marks : List ClassId}
  {args ts : List Ty} {owner : Option Ty} {m : Mapping}

namespace Ty

/-- The type is no captured variable, or one whose numbers have the property. -/
def NumberedBy (P : Nat → Nat → Prop) : Ty → Prop
  | captured token site _ _ _ => P token site
  | _ => True

/-- The numbers of every captured variable in the type have the property. -/
def Minted (P : Nat → Nat → Prop) (t : Ty) : Prop :=
  t.Every (NumberedBy P)

variable {P : Nat → Nat → Prop}

theorem Minted.mono {Q} (h : t.Minted P) (hPQ : ∀ token site, P token site → Q token site) :
    t.Minted Q := by
  refine Every.mono h fun x hx => ?_
  cases x with
  | captured token site upper lower marks => exact hPQ token site hx
  | _ => trivial

theorem minted_captured {token site upper lower} (h : P token site) (hupper : upper.Minted P)
    (hlower : lower.Minted P) :
    (captured token site upper lower marks).Minted P := by
  refine .intro h fun x hx => ?_
  rcases mem_pair.mp hx with rfl | rfl
  · exact hupper
  · exact hlower

theorem minted_declared (hargs : ∀ a ∈ args, a.Minted P) (howner : ∀ o ∈ owner, o.Minted P) :
    (declared c args owner marks).Minted P :=
  Every.declared trivial hargs howner

/-! ### Numbering occurrences -/

theorem minted_numberAll (h : ∀ t ∈ ts, ∀ n, (t.number.run n).1.Minted P) (n : Nat) :
    ∀ t ∈ ((numberAll ts).run n).1, t.Minted P := by
  induction ts generalizing n with
  | nil => exact forall_mem_nil _
  | cons t ts ih =>
    rw [forall_mem_cons] at h
    exact forall_mem_cons.mpr ⟨h.1 n, ih h.2 _⟩

theorem minted_number (h : t.Minted P) (n : Nat) : (t.number.run n).1.Minted P := by
  induction t using children_induction generalizing n with
  | step t ih =>
    have hpart (x : Ty) (hx : x ∈ t.children) (n : Nat) : (x.number.run n).1.Minted P :=
      ih x hx (h.part hx) n
    cases t with
    | primitive | none | void | null | package => exact h
    | var => exact .leaf trivial rfl
    | array component marks => exact Every.array trivial (hpart component (by simp [children]) n)
    | declared c args owner marks =>
      refine minted_declared (minted_numberAll (fun a ha => hpart a (by simp [children, ha])) n) ?_
      cases owner with
      | none => exact fun _ h => by cases h
      | some o =>
        rintro o' ⟨⟩
        exact hpart o (by simp [children]) _
    | wildcard m upper lower marks =>
      exact Every.wildcard trivial (hpart upper (by simp [children]) _)
        (hpart lower (by simp [children]) _)
    | captured token site upper lower marks =>
      exact minted_captured h.top (hpart upper (by simp [children]) _)
        (hpart lower (by simp [children]) _)
    | intersection m bounds =>
      exact .intro trivial (minted_numberAll (fun b hb => hpart b (by simp [children, hb])) n)
    | union m alternatives =>
      exact .intro trivial (minted_numberAll (fun a ha => hpart a (by simp [children, ha])) n)
    | executable e vars result parameters receiver thrown =>
      exact every_executable trivial (fun v hv => h.part (by simp [children, hv]))
        (hpart result (by simp [children]) _)
        (minted_numberAll (fun p hp => hpart p (by simp [children, hp])) _)
        (hpart receiver (by simp [children]) _)
        (minted_numberAll (fun x hx => hpart x (by simp [children, hx])) _)

theorem lenient_numberedBy : Lenient (NumberedBy P) where
  plain {t} h := by
    cases t with
    | captured => cases h
    | _ => trivial
  executable _ := trivial

end Ty

namespace Table

variable {tbl : Table} {P : Nat → Nat → Prop}

theorem minted_of_denoted (h : t.Every tbl.Denoted) : t.Minted P :=
  Ty.lenient_numberedBy.denoted h

/-! ### Substitution -/

/-- The types of a mapping. -/
def MintedMapping (P : Nat → Nat → Prop) (m : Mapping) : Prop :=
  ∀ e ∈ m, e.2.Minted P

theorem MintedMapping.lookup (h : MintedMapping P m) {v x} (hx : m.lookup v = some x) :
    x.Minted P := by
  induction m with
  | nil => cases hx
  | cons e m ih =>
    rw [MintedMapping, forall_mem_cons] at h
    rw [lookup_cons] at hx
    split at hx
    · cases hx
      exact h.1
    · exact ih h.2 hx

theorem MintedMapping.insert (h : MintedMapping P m) (v : TypeVarId) (ht : t.Minted P) :
    MintedMapping P (m.insert v t) := by
  rw [Mapping.insert]
  split
  · intro e he
    obtain ⟨e', he', rfl⟩ := mem_map.mp he
    split
    · exact ht
    · exact h e' he'
  · exact forall_mem_append.mpr ⟨h, by simpa using ht⟩

theorem MintedMapping.insertAll {entries} (h : MintedMapping P m)
    (hentries : MintedMapping P entries) : MintedMapping P (m.insertAll entries) := by
  induction entries generalizing m with
  | nil => exact h
  | cons e entries ih =>
    rw [MintedMapping, forall_mem_cons] at hentries
    exact ih (h.insert e.1 hentries.1) hentries.2

theorem minted_typeMapping (ht : t.Minted P) (h : tbl.typeMapping t = .ok m) :
    MintedMapping P m := by
  induction t using Ty.children_induction generalizing m with
  | step t ih =>
    cases t with
    | declared c args owner marks =>
      have hown : MintedMapping P ((tbl.typeVars (.cls c)).zip args) :=
        fun e he => ht.arg (of_mem_zip he).2
      cases owner with
      | none =>
        cases h
        exact MintedMapping.insertAll (forall_mem_nil _) hown
      | some o =>
        obtain ⟨m', hm', h⟩ := bind_eq_ok.mp h
        cases h
        exact (ih o (by simp [Ty.children]) (ht.owner rfl) hm').insertAll hown
    | _ => cases h

theorem minted_of_substitute (hm : MintedMapping P m) (ht : t.Minted P)
    (h : tbl.substitute m t = .ok t') : t'.Minted P := by
  rcases substitute_eq_ok h with ⟨-, rfl⟩ | h
  · exact ht
  · exact Ty.lenient_numberedBy.instantiate (fun _ _ => hm.lookup) ht h

theorem minted_of_substituteEntries {entries} (hentries : ∀ e ∈ entries, e.2.Minted P)
    (ht : t.Minted P) (h : tbl.substituteEntries entries t = .ok t') :
    t'.Minted P := by
  have hm : MintedMapping P (.ofEntries entries) := by
    refine foldlRecOn entries _ (forall_mem_nil _) fun m hm e he => ?_
    split
    · exact hm.insert _ (hentries e he)
    · exact hm
  rw [substituteEntries] at h
  split_ifs at h
  · cases h
    exact ht
  · exact Ty.lenient_numberedBy.instantiate (fun _ _ => hm.lookup) ht h

/-! ### The types of elements and members -/

theorem minted_selfType (c : ClassId) : (tbl.selfType c).Minted P :=
  minted_of_denoted (selfTypeIn_denoted c _).1

theorem minted_implicitOwner (c : ClassId) : ∀ o ∈ tbl.implicitOwner c, o.Minted P := by
  intro o ho
  rw [implicitOwner] at ho
  split at ho
  · split_ifs at ho
    · cases ho
    · cases ho
      exact minted_selfType _
  · cases ho

/-- An owner that is given is kept or dropped. -/
theorem eq_of_applicationOwner {o} (h : tbl.applicationOwner c (some t) = .ok o) :
    ∀ x ∈ o, x = t := by
  intro x hx
  have hkeep (fits : Bool) (h : (if !fits then do
      throw (.structural (.notAnOwner (← tbl.typeName t) (tbl.qualifiedName c)))
      else return if tbl.isStatic c then none else some t : Result (Option Ty)) = .ok o) :
    x = t := by
    cases fits with
    | false =>
      obtain ⟨_, -, h⟩ := bind_eq_ok.mp h
      cases h
    | true =>
      cases h
      split at hx
      · cases hx
      · exact (Option.some.inj hx).symm
  simp only [applicationOwner] at h
  split at h
  · obtain ⟨fits, -, h⟩ := bind_eq_ok.mp h
    exact hkeep fits h
  · cases h
  · exact hkeep false h

theorem minted_of_apply {n} (h : tbl.apply n c args owner = .ok t) (hargs : ∀ a ∈ args, a.Minted P)
    (howner : ∀ o ∈ owner, o.Minted P) : t.Minted P := by
  obtain ⟨o, ho, h⟩ := bind_eq_ok.mp h
  obtain ⟨t', ht', h⟩ := bind_eq_ok.mp h
  obtain ⟨-, -, h⟩ := bind_eq_ok.mp h
  cases h
  refine Ty.lenient_numberedBy.makeDeclared ht' hargs fun x hx => ?_
  cases owner with
  | none =>
    cases ho
    exact minted_implicitOwner c x hx
  | some y =>
    rw [eq_of_applicationOwner ho x hx]
    exact howner y rfl

theorem minted_of_unboxedType (h : tbl.unboxedType t = .ok t') : t'.Minted P := by
  rw [unboxedType] at h
  cases hp : tbl.unboxed? t with
  | some p =>
    rw [hp] at h
    cases h
    exact .leaf trivial rfl
  | none =>
    rw [hp] at h
    obtain ⟨_, -, h⟩ := bind_eq_ok.mp h
    cases h

theorem minted_of_resultType (h : tbl.resultType e = .ok t) : t.Minted P := by
  rw [resultType] at h
  split_ifs at h
  · cases h
    exact .leaf trivial rfl
  · exact minted_of_denoted (descriptor_denoted _ h)

theorem minted_receiverType (e : ExecutableId) : (tbl.receiverType e).Minted P := by
  rw [receiverType]
  split_ifs
  · cases h : tbl.implicitOwner e.cls with
    | none => exact .leaf trivial rfl
    | some o => exact minted_implicitOwner e.cls o h
  · exact .leaf trivial rfl
  · exact minted_selfType _

theorem minted_of_executableType (h : tbl.executableType e = .ok t) : t.Minted P := by
  obtain ⟨result, hresult, h⟩ := bind_eq_ok.mp h
  obtain ⟨parameters, hparameters, h⟩ := bind_eq_ok.mp h
  obtain ⟨thrown, hthrown, h⟩ := bind_eq_ok.mp h
  cases h
  refine Ty.every_executable trivial (fun v hv => ?_) (minted_of_resultType hresult)
    (fun p hp => minted_of_denoted (descriptors_denoted _ hparameters p hp)) (minted_receiverType e)
    fun x hx => minted_of_denoted (descriptors_denoted _ hthrown x hx)
  obtain ⟨v, -, rfl⟩ := mem_map.mp hv
  exact .leaf trivial rfl

end Table

/-- The numbers of the captured variables behind an element have the property. -/
def Element.Minted (P : Nat → Nat → Prop) : Element → Prop
  | capturedParameter token site upper lower _ => P token site ∧ upper.Minted P ∧ lower.Minted P
  | _ => True

theorem Ty.Minted.element {P} (h : t.Minted P) :
    ∀ x ∈ t.element?, x.Minted P := by
  intro x hx
  cases t with
  | captured token site upper lower marks =>
    cases hx
    exact ⟨h.top, h.part mem_cons_self, h.part (mem_cons_of_mem _ mem_cons_self)⟩
  | declared | var | executable | package =>
    cases hx
    trivial
  | _ => cases hx

namespace Table

variable {P : Nat → Nat → Prop} {tbl : Table}

theorem minted_of_typeOf (h : tbl.typeOf x = .ok t) (hx : x.Minted P) : t.Minted P := by
  cases x with
  | package | typeParameter =>
    cases h
    exact .leaf trivial rfl
  | type c =>
    cases h
    exact minted_selfType c
  | executable e => exact minted_of_executableType h
  | field | parameter => exact minted_of_denoted (descriptor_denoted _ h)
  | captureSite => cases h
  | capturedParameter =>
    cases h
    exact Ty.minted_captured hx.1 hx.2.1 hx.2.2

theorem minted_of_superclassType (h : tbl.superclassType c = .ok t) : t.Minted P := by
  rw [superclassType] at h
  split at h
  · exact minted_of_denoted (descriptor_denoted _ h)
  · cases h
    exact .leaf trivial rfl

theorem minted_of_refinedType (h : tbl.refinedType c = .ok t) : t.Minted P := by
  obtain ⟨ts, hts, h⟩ := bind_eq_ok.mp h
  split at h
  · cases h
    exact minted_of_denoted (descriptors_denoted _ hts t mem_cons_self)
  · exact minted_of_superclassType h

theorem minted_of_memberTypeUnder (hm : MintedMapping P m) (hx : x.Minted P)
    (h : tbl.memberTypeUnder m x = .ok t) : t.Minted P := by
  rw [memberTypeUnder.eq_def] at h
  split at h
  · split_ifs at h
    · obtain ⟨s, hs, h⟩ := bind_eq_ok.mp h
      exact minted_of_substitute hm (minted_of_refinedType hs) h
    · cases h
      exact minted_selfType _
  · obtain ⟨s, hs, h⟩ := bind_eq_ok.mp h
    exact minted_of_substitute hm (minted_of_typeOf hs hx) h

theorem minted_of_memberTypeThrough {s} (hs : ∀ u ∈ s, u.Minted P) (hx : x.Minted P)
    (h : tbl.memberTypeThrough s x = .ok t) : t.Minted P := by
  cases s with
  | some s =>
    obtain ⟨m, hm, h⟩ := bind_eq_ok.mp h
    exact minted_of_memberTypeUnder (minted_typeMapping (hs s rfl) hm) hx h
  | none => exact minted_of_memberTypeUnder (forall_mem_nil _) hx h

end Table

end NominalTypes
