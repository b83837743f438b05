import NominalTypes.Proofs.Signatures

/-!
# Erasing executable types

An executable type is erased part by part if it has type variables or a part that mentions something
generic. Any other executable type is returned as it is. Its parts are their own erasures but for
one thing: a use of an inner class has an owner, which erasure drops, and which alone does not make
it generic. So the parameters of two executable types may have equal erasures and yet differ after
erasing both, if one of the two is generic and the other is not (`Table.erase_executable_of_owned`).
-/

namespace NominalTypes

open List

namespace Ty

/-- Whether the type is a use of a class that has an owner, or an array of such types. -/
def isOwned : Ty → Bool
  | declared _ _ owner _ => owner.isSome
  | array component _ => isOwned component
  | _ => false

/-- Whether the executable type is erased part by part. -/
def isGenericExecutable : Ty → Bool
  | executable _ vars result parameters receiver thrown =>
    !vars.isEmpty || (result :: receiver :: parameters ++ thrown).any isGeneric
  | _ => false

end Ty

namespace Table

variable {tbl : Table} {n : Nat} {t p : Ty}

/-- A type that is not generic is its own erasure, unless it has an owner to drop. -/
theorem exists_settles_of_not_isGeneric (h : t.isGeneric = false)
    (lub : Nat → List Ty → Result (List Ty)) :
    ∃ e, Settles (fun k => tbl.eraseWith (lub k) k t) e ∧ (t.isOwned = false → e = t) := by
  induction t using Ty.children_induction generalizing lub with
  | step t ih =>
    cases t with
    | primitive | none | void | null =>
      exact ⟨_, (Settles.ok _).step rfl fun _ => rfl, fun _ => rfl⟩
    | declared c args owner marks =>
      cases owner with
      | none =>
        cases args with
        | nil => exact ⟨_, (Settles.ok _).step rfl fun _ => rfl, fun _ => rfl⟩
        | cons => cases h
      | some o =>
        refine ⟨_, (Settles.ok (.declared c [] none marks)).step rfl fun k => ?_, nofun⟩
        rw [eraseWith, Option.isNone_some, Bool.and_false]
        rfl
    | array component marks =>
      obtain ⟨e, he, heq⟩ := ih component mem_cons_self h fun k => lub (k + 1)
      exact ⟨_, (he.bind (.ok _)).step rfl fun _ => rfl,
        fun h => congrArg (Ty.array · marks) (heq h)⟩
    | _ => cases h

/-- What becomes of a part of an executable type: its erasure, unless the executable type is not
generic and the part has an owner. -/
def ErasesPart (tbl : Table) (generic : Bool) (p p' : Ty) : Prop :=
  ∃ e, Settles (fun k => tbl.erase k p) e ∧ (generic = true ∨ p.isOwned = false → p' = e)

theorem erasesPart_self (h : p.isGeneric = false) : tbl.ErasesPart false p p := by
  obtain ⟨e, he, heq⟩ := exists_settles_of_not_isGeneric h fun k => tbl.leastUpperBounds k
  exact ⟨e, he, fun howned => (heq (howned.resolve_left Bool.false_ne_true)).symm⟩

variable {x : ExecutableId} {vars parameters thrown : List Ty} {result receiver : Ty}

/-- Each part is erased, or the executable type is kept. -/
theorem exists_of_erase_executable
    (h : tbl.erase n (.executable x vars result parameters receiver thrown) = .ok t) :
    ∃ result' parameters' receiver' thrown',
      t = .executable x [] result' parameters' receiver' thrown' ∧
      let generic := (Ty.executable x vars result parameters receiver thrown).isGenericExecutable
      tbl.ErasesPart generic result result' ∧
        Forall₂ (tbl.ErasesPart generic) parameters parameters' ∧
        tbl.ErasesPart generic receiver receiver' ∧
        Forall₂ (tbl.ErasesPart generic) thrown thrown' := by
  cases n with
  | zero => cases h
  | succ n =>
    rw [erase, eraseWith] at h
    split_ifs at h with hgeneric
    · have hpart {p e : Ty}
          (h : (tbl.eraseWith (tbl.leastUpperBounds (n + 1)) n p : Result Ty) = .ok e) :
          tbl.ErasesPart true p e :=
        ⟨e, Cut.settles (cut_erase · p)
          ((cut_eraseWith (fun _ => Cut.refl _) (Nat.le_succ n) p).eq_ok h), fun _ => rfl⟩
      obtain ⟨result', hresult, h⟩ := bind_eq_ok.mp h
      obtain ⟨parameters', hparameters, h⟩ := bind_eq_ok.mp h
      obtain ⟨receiver', hreceiver, h⟩ := bind_eq_ok.mp h
      obtain ⟨thrown', hthrown, h⟩ := bind_eq_ok.mp h
      cases h
      rw [Ty.isGenericExecutable, hgeneric]
      exact ⟨_, _, _, _, rfl, hpart hresult, (mapM_eq_ok.mp hparameters).imp fun _ _ => hpart,
        hpart hreceiver, (mapM_eq_ok.mp hthrown).imp fun _ _ => hpart⟩
    · rw [Bool.not_eq_true] at hgeneric
      obtain ⟨hvars, hparts⟩ := Bool.or_eq_false_iff.mp hgeneric
      have hself (p : Ty) (hp : p ∈ result :: receiver :: parameters ++ thrown) :
          tbl.ErasesPart false p p :=
        erasesPart_self (Bool.eq_false_iff.mpr (any_eq_false.mp hparts p hp))
      cases h
      obtain rfl : vars = [] := by simpa using hvars
      rw [Ty.isGenericExecutable, hgeneric]
      exact ⟨_, _, _, _, rfl, hself _ (by simp),
        forall₂_same.mpr fun p hp => hself p (by simp [hp]), hself _ (by simp),
        forall₂_same.mpr fun p hp => hself p (by simp [hp])⟩

/-- The two types have equal erasures. -/
def SameErasure (tbl : Table) (p q : Ty) : Prop :=
  ∃ e f, Settles (fun k => tbl.erase k p) e ∧ Settles (fun k => tbl.erase k q) f ∧ e.same f = true

/-- Erasing an executable type gives one without type variables. Its parts are the erasures of the
parts; if the executable type is not generic, this holds for those without an owner. So two
executable types whose parameters have equal erasures have equal parameters after erasing them,
where each is generic or takes no parameter with an owner. -/
theorem erase_executable (tbl : Table) {x : ExecutableId} {vars parameters thrown : List Ty}
    {result receiver t : Ty} {n : Nat}
    (h : tbl.erase n (.executable x vars result parameters receiver thrown) = .ok t) :
    ∃ result' parameters' receiver' thrown',
      t = .executable x [] result' parameters' receiver' thrown' ∧
      let generic := (Ty.executable x vars result parameters receiver thrown).isGenericExecutable
      (tbl.ErasesPart generic result result' ∧
        Forall₂ (tbl.ErasesPart generic) parameters parameters' ∧
        tbl.ErasesPart generic receiver receiver' ∧
        Forall₂ (tbl.ErasesPart generic) thrown thrown') ∧
      ∀ m s vars' qs k, m.signature = .ok (vars', qs) → tbl.erase k m = .ok s →
        Forall₂ tbl.SameErasure parameters qs →
        (generic = true ∨ ∀ p ∈ parameters, p.isOwned = false) →
        (m.isGenericExecutable = true ∨ ∀ q ∈ qs, q.isOwned = false) →
        ∃ qs', s.signature = .ok ([], qs') ∧ Ty.sameAll parameters' qs' = true := by
  obtain ⟨result', parameters', receiver', thrown', rfl, hparts⟩ := exists_of_erase_executable h
  refine ⟨result', parameters', receiver', thrown', rfl, hparts, ?_⟩
  intro m s vars' qs k hm hs hpairs hcond hcond'
  have hsettles {generic : Bool} {ps ps' : List Ty} (hps : Forall₂ (tbl.ErasesPart generic) ps ps')
      (hcond : generic = true ∨ ∀ p ∈ ps, p.isOwned = false) :
      Forall₂ (fun p e => Settles (fun k => tbl.erase k p) e) ps ps' := by
    refine forall₂_imp_mem hps fun p hp p' _ ⟨e, he, heq⟩ => ?_
    rw [heq (hcond.imp_right fun h => h p hp)]
    exact he
  cases m with
  | executable =>
    cases hm
    obtain ⟨_, qs', _, _, rfl, -, hqs, -⟩ := exists_of_erase_executable hs
    refine ⟨qs', rfl, Ty.sameAll_of_forall₂ (forall₂_transport hpairs (hsettles hparts.2.1 hcond)
      (hsettles hqs hcond') ?_)⟩
    rintro p - q p' q' ⟨e, f, he, hf, hsame⟩ hp hq
    cases he.eq hp
    cases hf.eq hq
    exact hsame
  | _ => cases hm

/-- A class with an inner class, and two methods that take the inner class. The second one has a
type parameter. -/
def innerParameter : Table := {
  classes := #[
    { name := "java.lang.Object", simpleName := "Object", kind := .cls },
    { name := "p.Outer", simpleName := "Outer", kind := .cls,
      methods := [
        { name := "m", returnType := .named ⟨0⟩ [],
          parameters := [{ name := "p0", type := .named ⟨2⟩ [] }] },
        { name := "m", typeParameters := [{ name := "T" }], returnType := .named ⟨0⟩ [],
          parameters := [{ name := "p0", type := .array (.named ⟨2⟩ []) [] },
            { name := "p1", type := .var ⟨.executable ⟨⟨1⟩, false, 1⟩, 0⟩ [] }] }] },
    { name := "p.Outer.Inner", simpleName := "Inner", kind := .cls, nesting := .member,
      enclosing := some ⟨1⟩ }] }

/-- The method with a type parameter is erased part by part. -/
theorem erase_executable_generic :
    let x : ExecutableId := ⟨⟨1⟩, false, 1⟩
    let outer : Ty := .declared ⟨1⟩ [] none []
    let object : Ty := .declared ⟨0⟩ [] none []
    let inners (o : Option Ty) : Ty := .array (.declared ⟨2⟩ [] o []) []
    let v : Ty := .var 0 ⟨.executable x, 0⟩ []
    let m : Ty := .executable x [v] object [inners (some outer), v] outer []
    innerParameter.executableType x = .ok m ∧
      innerParameter.erase 4 m = .ok (.executable x [] object [inners none, object] outer []) ∧
      Forall₂ (innerParameter.ErasesPart true) [inners (some outer), v] [inners none, object] := by
  intro x outer object inners v m
  have hm : innerParameter.executableType ⟨⟨1⟩, false, 1⟩ = .ok m := by rfl
  have h : innerParameter.erase 4 m = .ok (.executable x [] object [inners none, object]
      outer []) := by
    rfl
  obtain ⟨_, _, _, _, heq, ⟨-, hparameters, -⟩, -⟩ := erase_executable innerParameter h
  cases heq
  exact ⟨hm, h, hparameters⟩

/-- The other method is returned as it is, with an owner that the erasure of its parameter has
not. -/
theorem erase_executable_of_owned :
    let x : ExecutableId := ⟨⟨1⟩, false, 0⟩
    let outer : Ty := .declared ⟨1⟩ [] none []
    let inner (o : Option Ty) : Ty := .declared ⟨2⟩ [] o []
    let m : Ty := .executable x [] (.declared ⟨0⟩ [] none []) [inner (some outer)] outer []
    innerParameter.executableType x = .ok m ∧ innerParameter.erase 4 m = .ok m ∧
      innerParameter.erase 4 (inner (some outer)) = .ok (inner none) ∧
      (inner (some outer)).same (inner none) = false := by
  intro x outer inner m
  have hm : innerParameter.executableType ⟨⟨1⟩, false, 0⟩ = .ok m := by rfl
  exact ⟨hm, by rfl, by rfl, by rfl⟩

end Table

end NominalTypes
