import NominalTypes.Proofs.Minting
import NominalTypes.Session.Evaluate
import NominalTypes.Session.Supertype

/-!
# What questions do to the supply of capture numbers

A session hands out the numbers of captured variables from a supply that only grows. Whatever is
asked, and whether or not there is an answer, the captured variables in the answer and in the saved
values have numbers that the supply has handed out. This is shown for every question from what is
asked on the way, and so for every term that is evaluated.
-/

namespace NominalTypes

open List

variable {t : Ty} {x : Element} {name register : Name} {f : Session → Session}
  {supply supply' : CaptureSupply} {v : Value} {within : Option Element}

/-! ### Numbers handed out -/

namespace CaptureSupply

/-- The numbers have been handed out before. -/
def Issued (supply : CaptureSupply) (token site : Nat) : Prop :=
  token < supply.token ∧ site < supply.site

/-- The second supply has handed out all that the first one has. -/
structure Precedes (supply supply' : CaptureSupply) : Prop where
  token : supply.token ≤ supply'.token
  site : supply.site ≤ supply'.site

variable {supply'' : CaptureSupply}

theorem Precedes.refl (supply : CaptureSupply) : supply.Precedes supply :=
  ⟨Nat.le_refl _, Nat.le_refl _⟩

theorem Precedes.trans (h : supply.Precedes supply') (h' : supply'.Precedes supply'') :
    supply.Precedes supply'' :=
  ⟨Nat.le_trans h.token h'.token, Nat.le_trans h.site h'.site⟩

theorem Precedes.issued (h : supply.Precedes supply') {token site}
    (hissued : supply.Issued token site) : supply'.Issued token site :=
  ⟨Nat.lt_of_lt_of_le hissued.1 h.token, Nat.lt_of_lt_of_le hissued.2 h.site⟩

end CaptureSupply

/-- The numbers of all captured variables in a value have the property. -/
def Value.Minted (P : Nat → Nat → Prop) : Value → Prop
  | type t => t.Minted P
  | types ts => ∀ t ∈ ts, t.Minted P
  | arguments ts => ∀ t ∈ ts, t.Minted P
  | element x => x.Minted P
  | nothing => True
  | other => True

namespace Session

variable {α β : Type} {σ : CaptureSupply} {mid post : CaptureSupply → α → Prop}

/-- The answer to a question and the session after it. -/
def outcome (x : SessionM α) (s : Session) : Except Error α × Session :=
  (ExceptT.run x).run s

theorem outcome_bind (x : SessionM α) (f : α → SessionM β) (s : Session) :
    outcome (x >>= f) s =
      match outcome x s with
      | (.ok a, s') => outcome (f a) s'
      | (.error e, s') => (.error e, s') := by
  have h : outcome (x >>= f) s =
      (fun r => (ExceptT.bindCont f r.1 : StateM Session (Except Error β)).run r.2)
      (outcome x s) := rfl
  rw [h]
  rcases outcome x s with ⟨r, s'⟩
  cases r <;> rfl

@[simp]
theorem outcome_get (s : Session) : outcome (get : SessionM Session) s = (.ok s, s) :=
  rfl

theorem outcome_ask (f : Table → Result α) (s : Session) : outcome (ask f) s = (f s.table, s) := by
  rw [ask, outcome_bind, outcome_get]
  dsimp only
  cases f s.table <;> rfl

/-! ### What questions do to a session -/

/-- All saved values hold only captured variables whose numbers have been handed out. -/
def Fresh (s : Session) : Prop :=
  ∀ e ∈ s.saved, e.2.Minted s.supply.Issued

/-- From every session whose supply is at least the given one, the question leads to a session whose
supply is not smaller, and its answer is as `post` says of that supply. -/
def Advances (σ : CaptureSupply) (x : SessionM α) (post : CaptureSupply → α → Prop) : Prop :=
  ∀ s : Session, s.Fresh → σ.Precedes s.supply →
    (outcome x s).2.Fresh ∧ s.supply.Precedes (outcome x s).2.supply ∧
      ∀ a, (outcome x s).1 = .ok a → post (outcome x s).2.supply a

/-- The question is for an element, and it can be asked at any time. -/
def Finds (x : SessionM (Option Element)) : Prop :=
  ∀ σ, Advances σ x fun σ' r => ∀ y ∈ r, y.Minted σ'.Issued

namespace Advances

theorem pure {a} (h : ∀ σ', σ.Precedes σ' → post σ' a) :
    Advances σ (Pure.pure a : SessionM α) post := by
  intro s hs hσ
  refine ⟨hs, .refl _, fun b hb => ?_⟩
  cases hb
  exact h _ hσ

theorem throw {e} : Advances σ (MonadExcept.throw e : SessionM α) post :=
  fun _ hs _ => ⟨hs, .refl _, fun _ h => by cases h⟩

theorem bind {x} {f : α → SessionM β} {post : CaptureSupply → β → Prop} (hx : Advances σ x mid)
    (hf : ∀ σ' a, σ.Precedes σ' → mid σ' a → Advances σ' (f a) post) :
    Advances σ (x >>= f) post := by
  intro s hs hσ
  obtain ⟨hfresh, hle, hmid⟩ := hx s hs hσ
  rw [outcome_bind]
  rcases hout : outcome x s with ⟨r, s'⟩
  rw [hout] at hfresh hle hmid
  cases r with
  | error e => exact ⟨hfresh, hle, fun _ h => by cases h⟩
  | ok a =>
    obtain ⟨hfresh', hle', hpost⟩ := hf s'.supply a (hσ.trans hle) (hmid a rfl) s' hfresh (.refl _)
    exact ⟨hfresh', hle.trans hle', hpost⟩

theorem mono {x} (h : Advances σ x mid) (hpost : ∀ σ' a, σ.Precedes σ' → mid σ' a → post σ' a) :
    Advances σ x post := by
  intro s hs hσ
  obtain ⟨hfresh, hle, hmid⟩ := h s hs hσ
  exact ⟨hfresh, hle, fun a ha => hpost _ a (hσ.trans hle) (hmid a ha)⟩

theorem ask {f} (h : ∀ tbl a, f tbl = .ok a → ∀ σ', σ.Precedes σ' → post σ' a) :
    Advances σ (Session.ask f) post := by
  intro s hs hσ
  rw [outcome_ask]
  exact ⟨hs, .refl _, fun a ha => h s.table a ha _ hσ⟩

theorem view {f} (h : ∀ tbl σ', σ.Precedes σ' → post σ' (f tbl)) :
    Advances σ (Session.view f) post := by
  intro s hs hσ
  refine ⟨hs, .refl _, fun a ha => ?_⟩
  cases ha
  exact h s.table _ hσ

theorem get : Advances σ (MonadState.get : SessionM Session)
    fun σ' s => s.Fresh ∧ s.supply = σ' := by
  intro s hs _
  refine ⟨hs, .refl _, fun a ha => ?_⟩
  cases ha
  exact ⟨hs, rfl⟩

theorem modify
    (h : ∀ s, s.Fresh → σ.Precedes s.supply → (f s).Fresh ∧ s.supply.Precedes (f s).supply) :
    Advances σ (MonadState.modifyGet fun s => (PUnit.unit, f s) : SessionM PUnit) fun _ _ => True :=
  fun s hs hσ => ⟨(h s hs hσ).1, (h s hs hσ).2, fun _ _ => trivial⟩

/-- A change of anything but saved values and supply. -/
theorem modify_of_eq (hsaved : ∀ s, (f s).saved = s.saved)
    (hsupply : ∀ s, (f s).supply = s.supply) :
    Advances σ (MonadState.modifyGet fun s => (PUnit.unit, f s) : SessionM PUnit)
      fun _ _ => True := by
  refine modify fun s hs _ => ?_
  rw [Fresh, hsaved, hsupply]
  exact ⟨hs, .refl _⟩

end Advances

/-! ### Operations that make no captured variables -/

/-- The answers of operations that number occurrences at most. -/
def promise (P : Nat → Nat → Prop) : Promise SessionM (Ty.NumberedBy P) where
  lenient := Ty.lenient_numberedBy
  Gives x _ p := ∀ s, (∃ n, (outcome x s).2 = { s with occurrence := n }) ∧
    ∀ a, (outcome x s).1 = .ok a → p a
  pure ha s := ⟨⟨s.occurrence, rfl⟩, fun b hb => by cases hb; exact ha⟩
  bind {_ _ _ _ x _ f _} hx hf s := by
    rw [outcome_bind]
    obtain ⟨⟨n, hn⟩, hp⟩ := hx s
    rcases hout : outcome x s with ⟨r, s'⟩
    rw [hout] at hn hp
    cases r with
    | error e => exact ⟨⟨n, hn⟩, fun _ h => by cases h⟩
    | ok a =>
      obtain ⟨⟨n', hn'⟩, hq⟩ := hf a (hp a rfl) s'
      cases hn
      exact ⟨⟨n', hn'⟩, hq⟩
  cut {_ _ r _} h _ s := by
    have hout : outcome (liftM r) s = (r, s) := outcome_ask (fun _ => r) s
    rw [hout]
    exact ⟨⟨s.occurrence, rfl⟩, h⟩
  exhausted s := ⟨⟨s.occurrence, rfl⟩, fun _ h => by cases h⟩
  number ht s := ⟨⟨_, rfl⟩, fun b hb => by cases hb; exact Ty.minted_number ht _⟩

theorem Advances.of_gives {x x' p} (h : (promise σ.Issued).Gives x x' p)
    (hpost : ∀ σ' a, σ.Precedes σ' → p a → post σ' a) :
    Advances σ x post := by
  intro s hs hσ
  obtain ⟨⟨n, hn⟩, hp⟩ := h s
  rw [hn]
  exact ⟨hs, .refl _, fun a ha => hpost _ a hσ (hp a ha)⟩

/-- Asks the table what it makes of types. -/
theorem Advances.askNumbered {f p} (h : ∀ tbl, (promise σ.Issued).Gives (f tbl) (f tbl) p)
    (hpost : ∀ σ' a, σ.Precedes σ' → p a → post σ' a) :
    Advances σ (Session.askNumbered f) post := by
  intro s hs hσ
  exact Advances.of_gives (h s.table) hpost s hs hσ

theorem Advances.number (ht : t.Minted σ.Issued) :
    Advances σ (Session.number t) fun σ' u => u.Minted σ'.Issued :=
  Advances.of_gives ((promise σ.Issued).number ht) fun _ _ hσ' hu =>
    Ty.Minted.mono hu fun _ _ => hσ'.issued

end Session

/-! ### Captures -/

namespace Ty

theorem snd_captureArguments (site token : Nat) (args : List Ty) :
    (captureArguments site token args).2 = token + args.countP isWildcard := by
  induction args generalizing token with
  | nil => rfl
  | cons a args ih =>
    cases a with
    | wildcard n upper lower marks =>
      rw [countP_cons_of_pos rfl, Nat.add_comm _ 1, ← Nat.add_assoc]
      exact ih (token + 1)
    | _ =>
      exact ih token

/-- All that can come of a capture. -/
theorem capture_cases (supply : CaptureSupply) (t : Ty) :
    (∃ c args owner marks, t = declared c args owner marks ∧ args.any isWildcard = true ∧
      t.capture supply =
        .ok (declared c (captureArguments supply.site supply.token args).1 owner marks,
          { token := supply.token + args.countP isWildcard, site := supply.site + 1 })) ∨
    ((∀ c args owner marks, t = declared c args owner marks → args.any isWildcard = false) ∧
      t.isPseudo = false ∧ t.capture supply = .ok (t, supply)) ∨
    (t.isPseudo = true ∧ ∃ e, t.capture supply = .error e) := by
  cases t with
  | declared c args owner marks =>
    cases hany : args.any isWildcard with
    | true =>
      refine .inl ⟨c, args, owner, marks, rfl, hany, ?_⟩
      rw [← snd_captureArguments supply.site]
      simp only [capture, hany, if_true]
    | false =>
      refine .inr (.inl ⟨fun c' args' owner' marks' h => ?_, rfl, ?_⟩)
      · cases h
        exact hany
      · simp only [capture, hany]
        rfl
  | executable => exact .inr (.inr ⟨rfl, _, rfl⟩)
  | package => exact .inr (.inr ⟨rfl, _, rfl⟩)
  | _ => exact .inr (.inl ⟨fun _ _ _ _ h => (by cases h), rfl, rfl⟩)

theorem Minted.later (h : t.Minted supply.Issued) (hle : supply.Precedes supply') :
    t.Minted supply'.Issued :=
  h.mono fun _ _ => hle.issued

theorem minted_captureArguments {P} (site token : Nat) {args} (hargs : ∀ a ∈ args, a.Minted P)
    (hnew : ∀ n, token ≤ n → n < (captureArguments site token args).2 → P n site) :
    ∀ a ∈ (captureArguments site token args).1, a.Minted P := by
  induction args generalizing token with
  | nil => exact forall_mem_nil _
  | cons a args ih =>
    rw [forall_mem_cons] at hargs
    cases a with
    | wildcard k upper lower marks =>
      have hnext : token + 1 ≤ (captureArguments site (token + 1) args).2 := by
        rw [snd_captureArguments]
        exact Nat.le_add_right _ _
      refine forall_mem_cons.mpr ⟨?_, ih (token + 1) hargs.2 fun n hle => ?_⟩
      · exact minted_captured (hnew token (Nat.le_refl _) hnext) hargs.1.upper hargs.1.lower
      · exact hnew n (Nat.le_of_succ_le hle)
    | _ => exact forall_mem_cons.mpr ⟨hargs.1, ih token hargs.2 hnew⟩

theorem minted_capture {u} (h : t.capture supply = .ok (u, supply')) (ht : t.Minted supply.Issued) :
    supply.Precedes supply' ∧ u.Minted supply'.Issued := by
  rcases capture_cases supply t with ⟨c, args, owner, marks, rfl, -, heq⟩ |
    ⟨-, -, heq⟩ | ⟨-, e, heq⟩
  · cases h.symm.trans heq
    have hle : supply.Precedes
        { token := supply.token + args.countP isWildcard, site := supply.site + 1 } :=
      ⟨Nat.le_add_right _ _, Nat.le_succ _⟩
    refine ⟨hle, minted_declared (minted_captureArguments _ _ (fun a ha => ?_) fun n _ hlt => ?_)
      fun o ho => Minted.later (ht.owner ho) hle⟩
    · exact Minted.later (ht.arg ha) hle
    · rw [snd_captureArguments] at hlt
      exact ⟨hlt, Nat.lt_succ_self _⟩
  · cases h.symm.trans heq
    exact ⟨.refl _, ht⟩
  · cases h.symm.trans heq

end Ty

theorem Element.Minted.later (h : x.Minted supply.Issued) (hle : supply.Precedes supply') :
    x.Minted supply'.Issued := by
  cases x with
  | capturedParameter token site upper lower marks =>
    exact ⟨hle.issued h.1, h.2.1.later hle, h.2.2.later hle⟩
  | _ => trivial

theorem Value.Minted.later (h : v.Minted supply.Issued) (hle : supply.Precedes supply') :
    v.Minted supply'.Issued := by
  cases v with
  | type t => exact Ty.Minted.later h hle
  | types ts => exact fun t ht => (h t ht).later hle
  | arguments ts => exact fun t ht => (h t ht).later hle
  | element x => exact Element.Minted.later h hle
  | nothing => trivial
  | other => trivial

namespace Session

variable {α β : Type} {σ : CaptureSupply} {mid : CaptureSupply → α → Prop}
  {post : CaptureSupply → β → Prop}

theorem Fresh.later {s s' : Session} (h : s.Fresh) (hsaved : s'.saved = s.saved)
    (hle : s.supply.Precedes s'.supply) : s'.Fresh := by
  rw [Fresh, hsaved]
  exact fun e he => (h e he).later hle

theorem Fresh.lookup {s : Session} (h : s.Fresh) (hv : s.saved.lookup register = some v) :
    v.Minted s.supply.Issued := by
  have hmem (l : List (Name × Value)) (hl : l.lookup register = some v) :
      ∃ name, (name, v) ∈ l := by
    induction l with
    | nil => cases hl
    | cons e l ih =>
      rw [lookup_cons] at hl
      split at hl
      · cases hl
        exact ⟨e.1, mem_cons_self⟩
      · obtain ⟨name, hname⟩ := ih hl
        exact ⟨name, mem_cons_of_mem _ hname⟩
  obtain ⟨name, hname⟩ := hmem s.saved hv
  exact h _ hname

theorem outcome_capture (t : Ty) (s : Session) : outcome (capture t) s =
    match t.capture s.supply with
    | .ok (u, supply) => (.ok u, { s with supply })
    | .error e => (.error e, s) := by
  rw [capture, outcome_bind, outcome_get]
  dsimp only
  cases t.capture s.supply <;> rfl

namespace Advances

theorem askAny {f : Table → Result α} : Advances σ (Session.ask f) fun _ _ => True :=
  ask fun _ _ _ _ _ => trivial

theorem viewAny {f : Table → α} : Advances σ (Session.view f) fun _ _ => True :=
  view fun _ _ _ => trivial

theorem bindAny {x f} (hx : Advances σ x mid) (hf : ∀ σ' a, Advances σ' (f a) post) :
    Advances σ (x >>= f) post :=
  bind hx fun σ' a _ _ => hf σ' a

theorem map {x : SessionM α} {f : α → β} (hx : Advances σ x mid)
    (hf : ∀ σ' a, σ.Precedes σ' → mid σ' a → ∀ σ'', σ'.Precedes σ'' → post σ'' (f a)) :
    Advances σ (do let a ← x; return f a) post :=
  bind hx fun σ' a hσ' ha => pure (hf σ' a hσ' ha)

/-- The answer is a type all of whose captured variables have numbers that were handed out. -/
theorem type {x} (hx : Advances σ x fun σ' t => t.Minted σ'.Issued) :
    Advances σ (do return Value.type (← x)) fun σ' v => v.Minted σ'.Issued :=
  map hx fun _ _ _ ht _ hle => Ty.Minted.later ht hle

theorem capture (ht : t.Minted σ.Issued) :
    Advances σ (Session.capture t) fun σ' u => u.Minted σ'.Issued := by
  intro s hs hσ
  rw [outcome_capture]
  cases h : t.capture s.supply with
  | error e => exact ⟨hs, .refl _, fun _ h => by cases h⟩
  | ok r =>
    obtain ⟨hle, hu⟩ := Ty.minted_capture h (ht.later hσ)
    refine ⟨hs.later rfl hle, hle, fun u hu' => ?_⟩
    cases hu'
    exact hu

theorem save (hv : v.Minted σ.Issued) :
    Advances σ (Session.save register v) fun _ _ => True := by
  refine bind askAny fun σ' _ hσ' _ => modify fun s hs hle => ?_
  exact ⟨forall_mem_cons.mpr ⟨(hv.later hσ').later hle, hs⟩, .refl _⟩

theorem savedIn : Advances σ (Session.savedIn register) fun σ' v => v.Minted σ'.Issued := by
  refine bind askAny fun σ₁ _ _ _ => bind get fun σ₂ s hσ₂ ⟨hs, hsupply⟩ => ?_
  cases hlookup : s.saved.lookup register with
  | none => exact throw
  | some v =>
    subst hsupply
    exact pure fun σ₃ hσ₃ => (hs.lookup hlookup).later hσ₃

theorem item {items index} {post : CaptureSupply → α → Prop}
    (h : ∀ a ∈ items, ∀ σ', σ.Precedes σ' → post σ' a) :
    Advances σ (Session.item items index) post := by
  rw [Session.item]
  generalize (if index < 0 then (items.length : Int) + index else index) = place
  split
  · rename_i a ha
    refine pure fun σ' hσ' => h a ?_ σ' hσ'
    split_ifs at ha
    exact mem_of_getElem? ha
  · exact throw

theorem itemOf {index} (hv : v.Minted σ.Issued) :
    Advances σ (Session.itemOf v index) fun σ' v => v.Minted σ'.Issued := by
  rw [Session.itemOf.eq_def]
  split
  · exact pure fun σ' hσ' => hv.later hσ'
  · exact type (item fun a ha σ' hσ' => Ty.Minted.later (hv a ha) hσ')
  · exact type (item fun a ha σ' hσ' => Ty.Minted.later (hv a ha) hσ')
  · exact throw

theorem asType (hv : v.Minted σ.Issued) :
    Advances σ (Session.asType v) fun σ' t => t.Minted σ'.Issued := by
  cases v with
  | type t => exact pure fun σ' hσ' => Ty.Minted.later hv hσ'
  | _ => exact throw

theorem asType? (hv : v.Minted σ.Issued) :
    Advances σ (Session.asType? v) fun σ' r => ∀ t ∈ r, t.Minted σ'.Issued := by
  cases v with
  | type t =>
    refine pure fun σ' hσ' u hu => ?_
    cases hu
    exact Ty.Minted.later hv hσ'
  | nothing => exact pure fun σ' hσ' u hu => by cases hu
  | _ => exact throw

theorem argumentsOf (hv : v.Minted σ.Issued) :
    Advances σ (Session.argumentsOf v) fun σ' ts => ∀ t ∈ ts, t.Minted σ'.Issued := by
  rw [Session.argumentsOf.eq_def]
  split
  · exact pure fun σ' hσ' t ht => Ty.Minted.later (Ty.Every.arg hv ht) hσ'
  · exact throw

theorem captureValue (hv : v.Minted σ.Issued) :
    Advances σ (Session.captureValue v) fun σ' v => v.Minted σ'.Issued := by
  cases v with
  | type t => exact type (capture hv)
  | _ => exact pure fun σ' hσ' => hv.later hσ'

theorem erase (hv : v.Minted σ.Issued) :
    Advances σ (Session.erase v) fun σ' t => t.Minted σ'.Issued := by
  rw [Session.erase.eq_def]
  split
  · refine ask fun tbl u hu σ' hσ' => ?_
    let A := Promise.result (Ty.lenient_numberedBy (P := σ.Issued))
    exact Ty.Minted.later ((A.gives_eraseWith (A.gives_leastUpperBounds le_rfl) le_rfl hv).1 u hu)
      hσ'
  · exact ask fun _ _ h => by cases h

/-- An element that is there. -/
theorem suitable {x} {post : CaptureSupply → α → Prop}
    (h : ∀ a ∈ x, ∀ σ', σ.Precedes σ' → post σ' a) : Advances σ (Session.suitable x) post := by
  cases x with
  | none => exact throw
  | some a => exact pure (h a rfl)

theorem suitableAny {x : Option α} : Advances σ (Session.suitable x) fun _ _ => True :=
  suitable fun _ _ _ _ => trivial

theorem asClass : Advances σ (Session.asClass x) fun _ _ => True := by
  cases x with
  | type c => exact pure fun _ _ => trivial
  | _ => exact throw

theorem asExecutable : Advances σ (Session.asExecutable x) fun _ _ => True := by
  cases x with
  | executable e => exact pure fun _ _ => trivial
  | _ => exact throw

theorem asGeneric : Advances σ (Session.asGeneric x) fun _ _ => True := by
  cases x with
  | type | executable => exact pure fun _ _ => trivial
  | _ => exact throw

theorem asTypeParameter : Advances σ (Session.asTypeParameter x) fun _ _ => True := by
  cases x with
  | typeParameter v => exact pure fun _ _ => trivial
  | _ => exact throw

theorem savedElement :
    Advances σ (Session.savedElement register) fun σ' r => ∀ x ∈ r, x.Minted σ'.Issued := by
  refine bind savedIn fun σ₁ v hσ₁ hv => ?_
  cases v with
  | element x =>
    refine pure fun σ₂ hσ₂ y hy => ?_
    cases hy
    exact Element.Minted.later hv hσ₂
  | nothing => exact pure fun _ _ _ h => by cases h
  | _ => exact throw

/-- An element that is a class or a package. -/
theorem extend {f : Table → Result (Element × Table)}
    (h : ∀ tbl r P, f tbl = .ok r → r.1.Minted P) :
    Advances σ (Session.extend f) fun σ' x => x.Minted σ'.Issued := by
  refine bind (ask fun tbl r hr σ' _ => h tbl r σ'.Issued hr) fun σ₁ r hσ₁ hr => ?_
  refine bind (modify_of_eq (fun _ => rfl) fun _ => rfl) fun σ₂ _ hσ₂ _ => ?_
  exact pure fun σ₃ hσ₃ => (hr.later hσ₂).later hσ₃

theorem orphan {kind} :
    Advances σ (Session.orphan name kind) fun σ' x => x.Minted σ'.Issued := by
  refine extend fun tbl r P h => ?_
  obtain ⟨_, -, h⟩ := bind_eq_ok.mp h
  cases h
  trivial

theorem loosePackage : Advances σ (Session.loosePackage name) fun σ' x => x.Minted σ'.Issued := by
  refine extend fun tbl r P h => ?_
  cases h
  trivial

theorem namedElement {name} :
    Advances σ (Session.namedElement name) fun σ' x => x.Minted σ'.Issued := by
  refine bind get fun σ₁ s hσ₁ _ => ask fun tbl x h σ₂ hσ₂ => ?_
  obtain ⟨c, -, h⟩ := bind_eq_ok.mp h
  obtain ⟨_, -, h⟩ := bind_eq_ok.mp h
  cases h
  trivial

theorem packageNamed {path} :
    Advances σ (Session.packageNamed path name) fun σ' r => ∀ x ∈ r, x.Minted σ'.Issued := by
  refine ask fun tbl r h σ' hσ' x hx => ?_
  obtain ⟨_, -, h⟩ := bind_eq_ok.mp h
  cases h
  obtain ⟨p, -, rfl⟩ := Option.map_eq_some_iff.mp hx
  trivial

theorem typeKind {name} : Advances σ (Session.typeKind name) fun _ _ => True := by
  rw [Session.typeKind]
  split
  · exact pure fun _ _ => trivial
  · exact throw

theorem classKind {name} : Advances σ (Session.classKind name) fun _ _ => True := by
  rw [Session.classKind]
  split
  · exact pure fun _ _ => trivial
  · exact throw

theorem scopeAt : Advances σ (Session.scopeAt within) fun _ _ => True := by
  refine bind get fun σ₁ s _ _ => ?_
  cases within with
  | none => exact pure fun _ _ => trivial
  | some x =>
    refine bind get fun σ₂ s' _ _ => ?_
    cases x with
    | type | executable => exact pure fun _ _ => trivial
    | _ => exact throw

theorem scopeWithin {context} (hcontext : Finds context) :
    Advances σ (Session.scopeWithin context within) fun _ _ => True := by
  cases within with
  | some x => exact scopeAt
  | none => exact bind (hcontext σ) fun _ _ _ _ => scopeAt

theorem enclosingElement : Advances σ (Session.ask fun tbl => tbl.enclosingElement x) fun σ' r =>
      ∀ y ∈ r, y.Minted σ'.Issued := by
  refine ask fun tbl r h σ' hσ' y hy => ?_
  cases x with
  | type c =>
    rw [Table.enclosingElement] at h
    split at h <;> cases h <;> cases hy <;> trivial
  | typeParameter v =>
    cases h
    cases hy
    rcases v with ⟨_ | _, _⟩ <;> trivial
  | package | captureSite =>
    cases h
    cases hy
  | _ =>
    cases h
    cases hy
    trivial

/-- An item of a list of declarations, as an element. -/
theorem declaredItem {items index} {f : α → Element} (hf : ∀ a P, (f a).Minted P) :
    Advances σ (do return some (f (← Session.item items index))) fun σ' r =>
      ∀ x ∈ r, x.Minted σ'.Issued := by
  refine map (item fun _ _ _ _ => trivial) fun _ a _ (_ : True) σ'' _ x hx => ?_
  cases hx
  exact hf a _

theorem someElement {x : SessionM Element} (h : Advances σ x fun σ' y => y.Minted σ'.Issued) :
    Advances σ (do return some (← x)) fun σ' r => ∀ y ∈ r, y.Minted σ'.Issued := by
  refine map h fun _ a _ ha σ'' hle y hy => ?_
  cases hy
  exact ha.later hle

section Terms

variable {context : SessionM (Option Element)} (hcontext : Finds context)

include hcontext

mutual

theorem valueOf (σ : CaptureSupply) : ∀ t : TypeTerm,
    Advances σ (Session.valueOf context t) fun σ' v => v.Minted σ'.Issued
  | .signature text within => by
    rw [Session.valueOf]
    refine bindAny (elementOfOption σ within) fun σ₁ x => ?_
    refine bindAny (scopeWithin hcontext) fun σ₂ scope => ?_
    refine bind (ask fun tbl t ht σ₃ _ => ?_) fun σ₃ t _ ht => type (number ht)
    obtain ⟨e, -, ht⟩ := bind_eq_ok.mp ht
    exact Table.minted_of_denoted (Table.descriptor_denoted e ht)
  | .primitive kind => by
    rw [Session.valueOf]
    refine bind typeKind fun σ₁ kind _ _ => type (ask fun tbl t ht σ₂ _ => ?_)
    cases kind with
    | primitive p =>
      cases ht
      exact .leaf trivial rfl
    | _ => cases ht
  | .none => by
    rw [Session.valueOf]
    exact pure fun _ _ => .leaf trivial rfl
  | .void => by
    rw [Session.valueOf]
    exact pure fun _ _ => .leaf trivial rfl
  | .null => by
    rw [Session.valueOf]
    exact pure fun _ _ => .leaf trivial rfl
  | .object => by
    rw [Session.valueOf]
    exact type (view fun _ _ _ => Ty.lenient_numberedBy.objectType)
  | .array component => by
    rw [Session.valueOf]
    refine bind (valueOf σ component) fun σ₁ v _ hv => bind (asType hv) fun σ₂ t _ ht => ?_
    exact type (ask fun tbl u hu σ₃ hσ₃ => Ty.lenient_numberedBy.makeArray hu (ht.later hσ₃))
  | .declared cls args owner => by
    rw [Session.valueOf]
    refine bindAny (elementOf? σ cls) fun σ₁ x => bindAny suitableAny fun σ₂ x => ?_
    refine bindAny asClass fun σ₃ c => bind (typesOf σ₃ args) fun σ₄ ts _ hts => ?_
    refine bind (typeOf? σ₄ owner) fun σ₅ o hσ₅ ho => type (ask fun tbl t ht σ₆ hσ₆ => ?_)
    exact Ty.lenient_numberedBy.makeDeclared ht (fun a ha => ((hts a ha).later hσ₅).later hσ₆)
      fun x hx => (ho x hx).later hσ₆
  | .applied cls args owner => by
    rw [Session.valueOf]
    refine bindAny (elementOf? σ cls) fun σ₁ x => bindAny suitableAny fun σ₂ x => ?_
    refine bindAny asClass fun σ₃ c => bind (typesOf σ₃ args) fun σ₄ ts _ hts => ?_
    refine bind (typeOf? σ₄ owner) fun σ₅ o hσ₅ ho => ?_
    refine bind (ask fun tbl t ht σ₆ hσ₆ => ?_) fun σ₆ t _ ht => type (number ht)
    exact Table.minted_of_apply ht (fun a ha => ((hts a ha).later hσ₅).later hσ₆)
      fun x hx => (ho x hx).later hσ₆
  | .wildcard upper lower => by
    rw [Session.valueOf]
    refine bind (typeOf? σ upper) fun σ₁ u _ hu => bind (typeOf? σ₁ lower) fun σ₂ l hσ₂ hl => ?_
    refine bind (ask fun tbl t ht σ₃ hσ₃ => ?_) fun σ₃ t _ ht => type (number ht)
    exact Ty.lenient_numberedBy.makeWildcard ht (fun x hx => ((hu x hx).later hσ₂).later hσ₃)
      fun x hx => (hl x hx).later hσ₃
  | .intersection bounds => by
    rw [Session.valueOf]
    refine bind (typesOf σ bounds) fun σ₁ bs _ hbs => ?_
    refine bind (ask fun tbl t ht σ₂ hσ₂ => ?_) fun σ₂ t _ ht => type (number ht)
    exact Ty.lenient_numberedBy.makeIntersection ht fun b hb => (hbs b hb).later hσ₂
  | .union alternatives => by
    rw [Session.valueOf]
    refine bind (typesOf σ alternatives) fun σ₁ as _ has => ?_
    refine bind (ask fun tbl t ht σ₂ hσ₂ => ?_) fun σ₂ t _ ht => type (number ht)
    exact Ty.lenient_numberedBy.makeUnion ht fun a ha => (has a ha).later hσ₂
  | .ofElement x => by
    rw [Session.valueOf]
    refine bind (elementOf? σ x) fun σ₁ x _ hx => ?_
    refine bind (suitable fun y hy σ₂ hσ₂ => (hx y hy).later hσ₂) fun σ₂ y _ hy => ?_
    refine bind (ask fun tbl t ht σ₃ hσ₃ => ?_) fun σ₃ t _ ht => type (number ht)
    exact Table.minted_of_typeOf ht (hy.later hσ₃)
  | .ofExpr e => by
    rw [Session.valueOf]
    refine bind (exprOf σ e) fun σ₁ e _ _ => ?_
    refine bind (ask fun tbl t ht σ₂ hσ₂ => ?_) fun σ₂ t _ ht => type (number ht)
    exact Table.minted_of_denoted (Table.descriptor_denoted e ht)
  | .capture t => by
    rw [Session.valueOf]
    exact bind (valueOf σ t) fun σ₁ v _ hv => captureValue hv
  | .erase t => by
    rw [Session.valueOf]
    exact bind (valueOf σ t) fun σ₁ v _ hv => bind (erase hv) fun σ₂ u _ hu => type (number hu)
  | .saved register index => by
    rw [Session.valueOf]
    exact bind savedIn fun σ₁ v _ hv => itemOf hv
  | .argument t index => by
    rw [Session.valueOf]
    exact bind (valueOf σ t) fun σ₁ v _ hv => bind (argumentsOf hv) fun σ₂ ts _ hts => itemOf hts

theorem typesOf (σ : CaptureSupply) : ∀ ts : List TypeTerm,
    Advances σ (Session.typesOf context ts) fun σ' us => ∀ u ∈ us, u.Minted σ'.Issued
  | [] => by
    rw [Session.typesOf]
    exact pure fun _ _ => forall_mem_nil _
  | t :: ts => by
    rw [Session.typesOf]
    refine bind (valueOf σ t) fun σ₁ v _ hv => bind (asType hv) fun σ₂ u _ hu => ?_
    refine map (typesOf σ₂ ts) fun σ₃ us hσ₃ hus σ₄ hσ₄ => forall_mem_cons.mpr ⟨?_, ?_⟩
    · exact (hu.later hσ₃).later hσ₄
    · exact fun x hx => (hus x hx).later hσ₄

theorem typeOf? (σ : CaptureSupply) : ∀ t : Option TypeTerm,
    Advances σ (Session.typeOf? context t) fun σ' r => ∀ u ∈ r, u.Minted σ'.Issued
  | .none => by
    rw [Session.typeOf?]
    exact pure fun _ _ _ h => by cases h
  | some t => by
    rw [Session.typeOf?]
    exact bind (valueOf σ t) fun σ₁ v _ hv => asType? hv

theorem elementOf? (σ : CaptureSupply) : ∀ x : ElementTerm,
    Advances σ (Session.elementOf? context x) fun σ' r => ∀ y ∈ r, y.Minted σ'.Issued
  | .named name => by
    rw [Session.elementOf?]
    exact someElement namedElement
  | .package name => by
    rw [Session.elementOf?]
    exact bind get fun _ _ _ _ => packageNamed
  | .loosePackage name => by
    rw [Session.elementOf?]
    exact someElement loosePackage
  | .field cls name index => by
    rw [Session.elementOf?]
    refine bindAny (elementOf? σ cls) fun σ₁ x => bindAny suitableAny fun σ₂ x => ?_
    exact bindAny asClass fun σ₃ c => bindAny viewAny fun σ₄ fields =>
      declaredItem fun _ _ => trivial
  | .method cls name index => by
    rw [Session.elementOf?]
    refine bindAny (elementOf? σ cls) fun σ₁ x => bindAny suitableAny fun σ₂ x => ?_
    exact bindAny asClass fun σ₃ c => bindAny viewAny fun σ₄ methods =>
      declaredItem fun _ _ => trivial
  | .constructor cls index => by
    rw [Session.elementOf?]
    refine bindAny (elementOf? σ cls) fun σ₁ x => bindAny suitableAny fun σ₂ x => ?_
    exact bindAny asClass fun σ₃ c => bindAny viewAny fun σ₄ constructors =>
      declaredItem fun _ _ => trivial
  | .parameter executable index => by
    rw [Session.elementOf?]
    refine bindAny (elementOf? σ executable) fun σ₁ x => bindAny suitableAny fun σ₂ x => ?_
    exact bindAny asExecutable fun σ₃ e => bindAny viewAny fun σ₄ parameters =>
      declaredItem fun _ _ => trivial
  | .typeParameter generic index => by
    rw [Session.elementOf?]
    refine bindAny (elementOf? σ generic) fun σ₁ x => bindAny suitableAny fun σ₂ x => ?_
    exact bindAny asGeneric fun σ₃ g => bindAny viewAny fun σ₄ vars =>
      declaredItem fun _ _ => trivial
  | .localClass cls index => by
    rw [Session.elementOf?]
    refine bindAny (elementOf? σ cls) fun σ₁ x => bindAny suitableAny fun σ₂ x => ?_
    refine bindAny asClass fun σ₃ c => bindAny get fun σ₄ s => ?_
    exact bindAny viewAny fun σ₅ classes => declaredItem fun _ _ => trivial
  | .ofType t => by
    rw [Session.elementOf?]
    refine map (valueOf σ t) fun σ₁ v _ hv σ₂ hσ₂ x hx => ?_
    cases v with
    | type t => exact (Ty.Minted.element hv x hx).later hσ₂
    | _ => cases hx
  | .enclosing x => by
    rw [Session.elementOf?]
    refine bindAny (elementOf? σ x) fun σ₁ x => ?_
    exact bindAny suitableAny fun σ₂ x => enclosingElement
  | .orphan name kind => by
    rw [Session.elementOf?]
    exact bind classKind fun σ₁ kind _ _ => someElement orphan
  | .saved register => by
    rw [Session.elementOf?]
    exact savedElement

theorem elementOfOption (σ : CaptureSupply) : ∀ x : Option ElementTerm,
    Advances σ (Session.elementOfOption context x) fun σ' r => ∀ y ∈ r, y.Minted σ'.Issued
  | .none => by
    rw [Session.elementOfOption]
    exact pure fun _ _ _ h => by cases h
  | some x => by
    rw [Session.elementOfOption]
    exact elementOf? σ x

theorem exprOf (σ : CaptureSupply) : ∀ e : ExprTerm,
    Advances σ (Session.exprOf context e) fun _ _ => True
  | .signature text => by
    rw [Session.exprOf]
    exact bind (scopeWithin hcontext) fun _ _ _ _ => askAny
  | .named name => by
    rw [Session.exprOf]
    exact bind get fun _ _ _ _ => map askAny fun _ _ _ _ _ _ => trivial
  | .array component => by
    rw [Session.exprOf]
    exact map (exprOf σ component) fun _ _ _ _ _ _ => trivial
  | .applied name args owner => by
    rw [Session.exprOf]
    refine bind (exprOfOption σ owner) fun σ₁ _ _ _ => bind (exprsOf σ₁ args) fun σ₂ _ _ _ => ?_
    exact bind get fun _ _ _ _ => map askAny fun _ _ _ _ _ _ => trivial
  | .wildcard upper lower => by
    rw [Session.exprOf]
    refine bind (exprsOf σ upper) fun σ₁ _ _ _ => ?_
    exact map (exprsOf σ₁ lower) fun _ _ _ _ _ _ => trivial
  | .var x => by
    rw [Session.exprOf]
    refine bindAny (elementOf? σ x) fun σ₁ x => bindAny suitableAny fun σ₂ x => ?_
    exact map asTypeParameter fun _ _ _ _ _ _ => trivial
  | .foreign value => by
    rw [Session.exprOf]
    exact pure fun _ _ => trivial

theorem exprsOf (σ : CaptureSupply) : ∀ es : List ExprTerm,
    Advances σ (Session.exprsOf context es) fun _ _ => True
  | [] => by
    rw [Session.exprsOf]
    exact pure fun _ _ => trivial
  | e :: es => by
    rw [Session.exprsOf]
    refine bind (exprOf σ e) fun σ₁ _ _ _ => ?_
    exact map (exprsOf σ₁ es) fun _ _ _ _ _ _ => trivial

theorem exprOfOption (σ : CaptureSupply) : ∀ e : Option ExprTerm,
    Advances σ (Session.exprOfOption context e) fun _ _ => True
  | .none => by
    rw [Session.exprOfOption]
    exact pure fun _ _ => trivial
  | some e => by
    rw [Session.exprOfOption]
    exact map (exprOf σ e) fun _ _ _ _ _ _ => trivial

end

end Terms

theorem finds_evalContext (n : Nat) : Finds (Session.evalContext n) := by
  induction n with
  | zero => exact fun σ => throw
  | succ n ih => exact fun σ => bindAny get fun σ₁ s => elementOfOption ih σ₁ s.context

end Advances

end Session

end NominalTypes
