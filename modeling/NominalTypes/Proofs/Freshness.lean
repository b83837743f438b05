import NominalTypes.Proofs.Issuance

/-!
# Captured variables in a session

A session answers requests one after the other. In every run, the captured variables in all answers
and saved values have tokens below the counter of the session, and the counters never go back. A
capture takes its tokens and its own number from the counters. So its variables are different from
all that came before, from each other, and from those of every later capture.
-/

namespace NominalTypes

open List

variable {v : Value} {t : Ty} {target : Option Element}

/-! ### The variables of a capture -/

namespace Ty

/-- What a capture puts in the place of an argument, if the next token is the given one. -/
def capturedAs (token site : Nat) : Ty → Ty
  | wildcard _ upper lower marks => captured token site upper lower marks
  | t => t

/-- The variables that a capture has put in the place of wildcards. -/
def newVariables : Ty → Ty → List Ty
  | declared _ args _ _, declared _ args' _ _ =>
    ((args.zip args').filter fun a => a.1.isWildcard).map (·.2)
  | _, _ => []

/-- A capture gives consecutive tokens to the wildcards, and leaves the other arguments in their
places. -/
theorem getElem?_captureArguments (site token : Nat) (args : List Ty) (i : Nat) :
    (captureArguments site token args).1[i]? =
      args[i]?.map (capturedAs (token + (args.take i).countP isWildcard) site) := by
  induction args generalizing token i with
  | nil => rfl
  | cons a args ih =>
    cases i with
    | zero => cases a <;> rfl
    | succ i =>
      cases a with
      | wildcard n upper lower marks =>
        have hcount (k : Nat) : token + (k + 1) = token + 1 + k := by omega
        rw [take_succ_cons, countP_cons_of_pos rfl, hcount]
        exact ih (token + 1) i
      | _ =>
        exact ih token i

/-- The variables have tokens from the given one on, in increasing order. -/
theorem pairwise_captureArguments (site token : Nat) (args : List Ty) :
    let vars := ((args.zip (captureArguments site token args).1).filter fun a => a.1.isWildcard).map
      (·.2)
    (∀ x ∈ vars, ∃ n upper lower marks, x = captured n site upper lower marks ∧ token ≤ n ∧
      n < (captureArguments site token args).2) ∧
    vars.Pairwise fun x y => x.same y = false := by
  induction args generalizing token with
  | nil => exact ⟨forall_mem_nil _, .nil⟩
  | cons a args ih =>
    cases a with
    | wildcard k upper lower marks =>
      obtain ⟨htokens, hpairwise⟩ := ih (token + 1)
      have hnext : token + 1 ≤ (captureArguments site (token + 1) args).2 := by
        rw [snd_captureArguments]
        exact Nat.le_add_right _ _
      refine ⟨forall_mem_cons.mpr ⟨⟨token, upper, lower, marks, rfl, Nat.le_refl _, hnext⟩, ?_⟩,
        pairwise_cons.mpr ⟨?_, hpairwise⟩⟩
      · intro x hx
        obtain ⟨n, upper, lower, marks, rfl, hle, hlt⟩ := htokens x hx
        exact ⟨n, upper, lower, marks, rfl, Nat.le_of_succ_le hle, hlt⟩
      · intro x hx
        obtain ⟨n, upper, lower, marks, rfl, hle, hlt⟩ := htokens x hx
        simp only [same, beq_eq_false_iff_ne]
        omega
    | _ => exact ih token

/-- The number of the capture that a captured variable comes from. -/
def captureNumber? : Ty → Option Nat
  | captured _ site _ _ _ => some site
  | _ => Option.none

theorem any_isWildcard_captureArguments (site token : Nat) (args : List Ty) :
    (captureArguments site token args).1.any isWildcard = false := by
  induction args generalizing token with
  | nil => rfl
  | cons a args ih =>
    cases a with
    | wildcard => exact ih (token + 1)
    | _ => exact ih token

theorem newVariables_eq_nil {c c' args args' owner owner' marks marks'}
    (h : args.any isWildcard = false) :
    newVariables (declared c args owner marks) (declared c' args' owner' marks') = [] := by
  rw [newVariables, map_eq_nil_iff, filter_eq_nil_iff]
  intro a ha
  exact any_eq_false.mp h a.1 (of_mem_zip ha).1

end Ty

/-! ### Requests -/

namespace Session

/-- What a session can be asked or told. -/
inductive Request where
  | load (documents : List Datum)
  | loadJson (text : String)
  | pushPath (withParent : Bool)
  | popPath
  | definePackage (name : Name)
  | setScope (package : Name) (imports : List String) (context : Option ElementTerm)
  | declareInside (x executable : ElementTerm)
  /-- Any question about what terms denote that at most a declaration answers. -/
  | inspect (values : List TypeTerm) (elements : List ElementTerm) (exprs : List ExprTerm)
      (question : Session → List Value → List (Option Element) → List Expr →
        Result (Option Element))
  | value (t : TypeTerm)
  | element (x : ElementTerm)
  /-- The type of a class of the core library without arguments. -/
  | coreType (name : String)
  | capture (t : TypeTerm)
  | erase (t : TypeTerm)
  | directSupertypes (t : TypeTerm)
  | allSupertypes (t : TypeTerm)
  | declaredSupertypes (t : TypeTerm)
  | resolveSupertype (t : TypeTerm) (target : ElementTerm)
  | memberType (t : TypeTerm) (x : ElementTerm)
  | typeMapping (t : TypeTerm)
  | substitute (entries : List (ElementTerm × TypeTerm)) (t : TypeTerm)
  | unboxedType (t : TypeTerm)
  | greatestLowerBound (s t : TypeTerm)
  | leastUpperBounds (ts : List TypeTerm)

/-- Numbers the occurrences in a value. -/
def numberValue : Value → SessionM Value
  | .type t => return .type (← number t)
  | .types ts => return .types (← ts.mapM number)
  | .arguments ts => return .arguments (← ts.mapM number)
  | v => return v

namespace Request

/-- Does what is requested. -/
def perform : Request → SessionM Value
  | load documents => do
    let _ ← Session.load documents
    return .other
  | loadJson text => do
    let _ ← Session.loadJson text
    return .other
  | pushPath withParent => do
    Session.pushPath withParent
    return .other
  | popPath => do
    Session.popPath
    return .other
  | definePackage name => do
    let _ ← Session.definePackage name
    return .other
  | setScope package imports context => do
    Session.setScope package imports context
    return .nothing
  | declareInside x executable => do
    let x ← evalElement x
    Session.declareInside x (← asExecutable (← evalElement executable))
    return .nothing
  | inspect values elements exprs question => do
    let values ← values.mapM evalValue
    let elements ← elements.mapM evalElement?
    let exprs ← exprs.mapM evalExpr
    let s ← get
    match ← ask fun _ => question s values elements exprs with
    | some x => return .element (← ask fun _ => Table.requireDeclared x)
    | none => return .other
  | value t => evalValue t
  | element x => return .ofElement? (← evalElement? x)
  | coreType name => do
    return .type (← ask fun tbl => do
      let c ← tbl.requireType Table.systemPath name
      tbl.requireDeclaration c
      tbl.makeDeclared c [] none [])
  | capture t => do captureValue (← evalValue t)
  | erase t => do return .type (← Session.erase (← evalValue t))
  | directSupertypes t => do return .types (← Session.directSupertypes (← evalValue t))
  | allSupertypes t => do return .types (← Session.allSupertypes (← evalValue t))
  | declaredSupertypes t => do
    match ← evalType t with
    | .declared c args owner _ =>
      return .types (← ask fun tbl => tbl.declaredSupertypes budget c args owner)
    | _ => throw .unsuitable
  | resolveSupertype t target => do
    let v ← evalValue t
    return .ofType? (← Session.resolveSupertype v (← evalElement? target))
  | memberType t x => do
    let t ← evalType t
    return .type (← Session.memberType t (← evalElement? x))
  | typeMapping t => do
    let t ← evalType t
    return .types ((← ask fun tbl => tbl.typeMapping t).map (·.2))
  | substitute entries t => do
    let entries ← entries.mapM fun (x, t) => do
      let x ← evalElement? x
      return (x, ← evalType t)
    Session.substitute entries (← evalValue t)
  | unboxedType t => do return .type (← Session.unboxedType (← evalValue t))
  | greatestLowerBound s t => do
    let v ← evalValue s
    Session.greatestLowerBound v (← evalValue t)
  | leastUpperBounds ts => do
    let ts ← evalTypes ts
    return .types (← askNumbered fun tbl => tbl.leastUpperBounds budget ts)

/-- Answers a request, and saves the answer if a register is given. -/
def answer (r : Request) (register : Option Name) : SessionM Value := do
  let v ← numberValue (← r.perform)
  match register with
  | some name =>
    save name v
    return v
  | none => return v

end Request

/-- The answers to requests, and the session after them. -/
def answerAll : List (Request × Option Name) → Session → List (Except Error Value) × Session
  | [], s => ([], s)
  | (r, register) :: rs, s =>
    let (a, s) := outcome (r.answer register) s
    let (as, s) := answerAll rs s
    (a :: as, s)

/-! ### One request -/

namespace Advances

variable {α β : Type} {σ : CaptureSupply}

theorem mapM (post : CaptureSupply → β → Prop) {f} (xs : List α) (hf : ∀ σ a, Advances σ (f a) post)
    (hlater : ∀ σ σ' b, σ.Precedes σ' → post σ b → post σ' b) :
    Advances σ (xs.mapM f) fun σ' ys => ∀ y ∈ ys, post σ' y := by
  induction xs generalizing σ with
  | nil =>
    exact pure fun _ _ => forall_mem_nil _
  | cons x xs ih =>
    rw [mapM_cons]
    refine bind (hf σ x) fun σ₁ y _ hy => map ih fun σ₂ ys hσ₂ hys σ₃ hσ₃ => ?_
    exact forall_mem_cons.mpr ⟨hlater _ _ y (hσ₂.trans hσ₃) hy,
      fun z hz => hlater _ _ z hσ₃ (hys z hz)⟩

theorem types {x} (hx : Advances σ x fun σ' ts => ∀ t ∈ ts, t.Minted σ'.Issued) :
    Advances σ (do return Value.types (← x)) fun σ' v => v.Minted σ'.Issued :=
  map hx fun _ _ _ hts _ hle t ht => (hts t ht).later hle

/-- The answer does not depend on what was asked. -/
theorem done {x : SessionM α} (hx : Advances σ x fun _ _ => True) (hv : ∀ P, v.Minted P) :
    Advances σ (do let _ ← x; return v) fun σ' v => v.Minted σ'.Issued :=
  map hx fun _ _ _ _ _ _ => hv _

theorem numberAll {ts : List Ty} (h : ∀ t ∈ ts, t.Minted σ.Issued) :
    Advances σ (ts.mapM Session.number) fun σ' us => ∀ u ∈ us, u.Minted σ'.Issued :=
  of_gives ((promise σ.Issued).mapM fun t ht => (promise σ.Issued).number (h t ht))
    fun _ _ hσ' hus u hu => Ty.Minted.later (hus u hu) hσ'

theorem numberValue (hv : v.Minted σ.Issued) :
    Advances σ (Session.numberValue v) fun σ' v => v.Minted σ'.Issued := by
  cases v with
  | type t => exact type (number hv)
  | types ts => exact types (numberAll hv)
  | arguments ts => exact map (numberAll hv) fun _ _ _ hus _ hle u hu => (hus u hu).later hle
  | _ => exact pure fun σ' hσ' => hv.later hσ'

theorem evalValue (t : TypeTerm) :
    Advances σ (Session.evalValue t) fun σ' v => v.Minted σ'.Issued :=
  valueOf (finds_evalContext budget) σ t

theorem evalTypes (ts : List TypeTerm) :
    Advances σ (Session.evalTypes ts) fun σ' us => ∀ u ∈ us, u.Minted σ'.Issued :=
  typesOf (finds_evalContext budget) σ ts

theorem evalElement? (x : ElementTerm) :
    Advances σ (Session.evalElement? x) fun σ' r => ∀ y ∈ r, y.Minted σ'.Issued :=
  elementOf? (finds_evalContext budget) σ x

theorem evalElement (x : ElementTerm) : Advances σ (Session.evalElement x) fun _ _ => True :=
  bindAny (evalElement? x) fun _ _ => suitableAny

theorem evalType (t : TypeTerm) : Advances σ (Session.evalType t) fun σ' u => u.Minted σ'.Issued :=
  bind (evalValue t) fun _ _ _ hv => asType hv

theorem evalExpr (e : ExprTerm) : Advances σ (Session.evalExpr e) fun _ _ => True :=
  exprOf (finds_evalContext budget) σ e

theorem directSupertypes (hv : v.Minted σ.Issued) :
    Advances σ (Session.directSupertypes v) fun σ' ts => ∀ t ∈ ts, t.Minted σ'.Issued := by
  rw [Session.directSupertypes.eq_def]
  split
  · let A := promise σ.Issued
    exact askNumbered
      (fun tbl => A.gives_directSupertypesWith (A.gives_leastUpperBounds le_rfl) le_rfl hv)
      fun _ _ hσ' hts t ht => Ty.Minted.later (hts t ht) hσ'
  · exact pure fun _ _ => forall_mem_nil _

theorem allSupertypes (hv : v.Minted σ.Issued) :
    Advances σ (Session.allSupertypes v) fun σ' ts => ∀ t ∈ ts, t.Minted σ'.Issued := by
  rw [Session.allSupertypes.eq_def]
  split
  · let A := promise σ.Issued
    refine askNumbered (p := fun ts => ∀ t ∈ ts, t.Minted σ.Issued) (fun tbl => ?_)
      fun _ _ hσ' hts t ht => (hts t ht).later hσ'
    refine A.bind (A.gives_ancestorsWith (A.gives_leastUpperBounds le_rfl) le_rfl hv)
      fun ts hts => ?_
    exact A.pure fun t ht => hts t (mem_of_mem_drop ht)
  · exact throw
  · exact pure fun _ _ => forall_mem_nil _

theorem gives_ascendNowhere {P} (ht : t.Minted P) :
    (promise P).Gives (ascendNowhere t) (ascendNowhere t) (Ascent.Every (Ty.NumberedBy P)) := by
  rw [ascendNowhere.eq_def]
  split
  · exact fun s => ⟨⟨s.occurrence, rfl⟩, fun _ h => by cases h⟩
  · intro s
    rw [outcome_ask]
    refine ⟨⟨s.occurrence, rfl⟩, fun a ha => ?_⟩
    obtain ⟨ts, hts, ha⟩ := bind_eq_ok.mp ha
    cases ha
    exact Ty.lenient_numberedBy.persists.upperBounds ht hts

theorem supertypeOf (ht : t.Minted σ.Issued) :
    Advances σ (Session.supertypeOf t target) fun σ' r => ∀ u ∈ r, u.Minted σ'.Issued := by
  let A := promise σ.Issued
  rw [Session.supertypeOf.eq_def]
  split
  · exact askNumbered (fun tbl => A.gives_resolveSupertype le_rfl ht _)
      fun _ _ hσ' hr u hu => Ty.Minted.later (hr u hu) hσ'
  · exact of_gives (A.gives_climb (fun t ht => gives_ascendNowhere ht) le_rfl ht)
      fun _ _ hσ' hr u hu => Ty.Minted.later (hr u hu) hσ'

theorem resolveSupertype (hv : v.Minted σ.Issued) :
    Advances σ (Session.resolveSupertype v target) fun σ' r => ∀ u ∈ r, u.Minted σ'.Issued := by
  cases v with
  | type t => exact supertypeOf hv
  | _ => exact pure fun _ _ _ h => by cases h

theorem memberType {x} (ht : t.Minted σ.Issued) (hx : ∀ y ∈ x, y.Minted σ.Issued) :
    Advances σ (Session.memberType t x) fun σ' u => u.Minted σ'.Issued := by
  rw [Session.memberType.eq_def]
  split
  · rename_i x
    refine bind askAny fun σ₁ declarer hσ₁ _ => bind (supertypeOf (ht.later hσ₁))
      fun σ₂ s hσ₂ hs => ?_
    refine ask fun tbl u hu σ₃ hσ₃ => ?_
    exact Table.minted_of_memberTypeThrough (fun y hy => (hs y hy).later hσ₃)
      ((hx x rfl).later (hσ₁.trans (hσ₂.trans hσ₃))) hu
  · exact throw
  · exact throw

theorem substitute {entries} (hentries : ∀ e ∈ entries, e.2.Minted σ.Issued)
    (hv : v.Minted σ.Issued) :
    Advances σ (Session.substitute entries v) fun σ' v => v.Minted σ'.Issued := by
  cases v with
  | type t =>
    refine type (ask fun tbl u hu σ' hσ' => ?_)
    exact Table.minted_of_substituteEntries (fun e he => (hentries e he).later hσ')
      (Ty.Minted.later hv hσ') hu
  | _ => exact pure fun σ' hσ' => hv.later hσ'

theorem unboxedType :
    Advances σ (Session.unboxedType v) fun σ' t => t.Minted σ'.Issued := by
  rw [Session.unboxedType.eq_def]
  split
  · exact ask fun tbl t ht σ' _ => Table.minted_of_unboxedType ht
  · exact ask fun _ _ h => by cases h

theorem operand : Advances σ (Session.operand v) fun _ _ => True := by
  cases v with
  | type t => exact map askAny fun _ _ _ _ _ _ => trivial
  | _ => exact viewAny

theorem related {rel w} :
    Advances σ (Session.related rel v w) fun _ _ => True := by
  refine bindAny operand fun σ₁ s => bindAny operand fun σ₂ t => ?_
  split
  · exact askAny
  · exact askAny
  · exact pure fun _ _ => trivial

theorem greatestLowerBound {w} (hv : v.Minted σ.Issued) (hw : w.Minted σ.Issued) :
    Advances σ (Session.greatestLowerBound v w) fun σ' v => v.Minted σ'.Issued := by
  rw [Session.greatestLowerBound.eq_def]
  split
  · let A := promise σ.Issued
    refine type (askNumbered (fun tbl => ?_) fun _ _ hσ' hu => Ty.Minted.later hu hσ')
    exact A.gives_greatestLowerBoundWith (A.gives_lub le_rfl) le_rfl hv hw
  · refine bind related fun σ₁ below hσ₁ _ => ?_
    split
    · exact pure fun σ₂ hσ₂ => hv.later (hσ₁.trans hσ₂)
    · refine bind related fun σ₂ above hσ₂ _ => ?_
      split
      · exact pure fun σ₃ hσ₃ => hw.later (hσ₁.trans (hσ₂.trans hσ₃))
      · exact throw

theorem change {f : Table → Result α × Table} : Advances σ (Session.change f) fun _ _ => True := by
  refine bindAny get fun σ₁ s => bindAny (modify_of_eq (fun _ => rfl) fun _ => rfl) fun σ₂ _ => ?_
  cases (f s.table).1 with
  | ok a => exact pure fun _ _ => trivial
  | error e => exact throw

end Advances

theorem advances_perform (r : Request) (σ : CaptureSupply) :
    Advances σ r.perform fun σ' v => v.Minted σ'.Issued := by
  cases r with
  | load | loadJson => exact .done (.bindAny .get fun _ s => .change) fun _ => trivial
  | pushPath => exact .done (.modify_of_eq (fun _ => rfl) fun _ => rfl) fun _ => trivial
  | popPath =>
    refine .done (.bindAny .get fun _ s => ?_) fun _ => trivial
    split
    · exact .modify_of_eq (fun _ => rfl) fun _ => rfl
    · exact .throw
  | definePackage =>
    refine .done (.bindAny .get fun _ s => .bindAny .askAny fun _ r => ?_) fun _ => trivial
    exact .bindAny (.modify_of_eq (fun _ => rfl) fun _ => rfl) fun _ _ => .pure fun _ _ => trivial
  | setScope => exact .done (.modify_of_eq (fun _ => rfl) fun _ => rfl) fun _ => trivial
  | declareInside x executable =>
    refine .bindAny (.evalElement x) fun _ x => .bindAny (.evalElement executable) fun _ e => ?_
    refine .bindAny .asExecutable fun _ e => .done ?_ fun _ => trivial
    cases x with
    | type => exact .modify_of_eq (fun _ => rfl) fun _ => rfl
    | captureSite | capturedParameter => exact .throw
    | _ => exact .pure fun _ _ => trivial
  | inspect values elements exprs question =>
    have hany {α β : Type} {f : α → SessionM β} {post : α → CaptureSupply → β → Prop} (xs : List α)
        (hf : ∀ σ a, Advances σ (f a) (post a)) (σ : CaptureSupply) :
        Advances σ (xs.mapM f) fun _ ys => ∀ y ∈ ys, True :=
      .mapM (fun _ _ => True) xs (fun σ a => (hf σ a).mono fun _ _ _ _ => trivial)
        fun _ _ _ _ h => h
    refine .bindAny (hany values (fun _ t => .evalValue t) σ) fun σ₁ vs => ?_
    refine .bindAny (hany elements (fun _ x => .evalElement? x) σ₁) fun σ₂ xs => ?_
    refine .bindAny (hany exprs (fun _ e => .evalExpr e) σ₂) fun σ₃ es => ?_
    refine .bindAny .get fun _ s => .bindAny .askAny fun _ r => ?_
    cases r with
    | none => exact .pure fun _ _ => trivial
    | some x =>
      refine .map (.ask fun _ y hy σ' _ => ?_) fun _ y _ hy _ h => Element.Minted.later hy h
      cases x with
      | captureSite | capturedParameter => cases hy
      | _ =>
        cases hy
        trivial
  | value t => exact .evalValue t
  | element x =>
    refine .map (.evalElement? x) fun σ₁ r _ hr σ₂ hσ₂ => ?_
    cases r with
    | none => trivial
    | some y => exact (hr y rfl).later hσ₂
  | coreType name =>
    refine .type (.ask fun tbl t ht σ' _ => ?_)
    obtain ⟨c, -, ht⟩ := bind_eq_ok.mp ht
    obtain ⟨_, -, ht⟩ := bind_eq_ok.mp ht
    exact Ty.lenient_numberedBy.makeDeclared ht (forall_mem_nil _) fun _ h => by cases h
  | capture t => exact .bind (.evalValue t) fun _ v _ hv => .captureValue hv
  | erase t => exact .bind (.evalValue t) fun _ v _ hv => .type (.erase hv)
  | directSupertypes t => exact .bind (.evalValue t) fun _ v _ hv => .types (.directSupertypes hv)
  | allSupertypes t => exact .bind (.evalValue t) fun _ v _ hv => .types (.allSupertypes hv)
  | declaredSupertypes t =>
    refine .bind (.evalType t) fun _ u _ hu => ?_
    split
    · refine .types (.ask fun tbl ts hts σ' hσ' => ?_)
      exact Ty.lenient_numberedBy.persists.declaredSupertypes (Ty.Minted.later hu hσ') hts
    · exact .throw
  | resolveSupertype t target =>
    refine .bind (.evalValue t) fun _ v _ hv => .bind (.evalElement? target) fun σ₂ x hσ₂ _ => ?_
    refine .map (.resolveSupertype (hv.later hσ₂)) fun σ₃ r _ hr σ₄ hσ₄ => ?_
    cases r with
    | none => trivial
    | some u => exact Ty.Minted.later (hr u rfl) hσ₄
  | memberType t x =>
    refine .bind (.evalType t) fun _ u _ hu => .bind (.evalElement? x) fun σ₂ x hσ₂ hx => ?_
    exact .type (.memberType (hu.later hσ₂) hx)
  | typeMapping t =>
    refine .bind (.evalType t) fun σ₁ u _ hu => ?_
    have hmapping : Advances σ₁ (ask fun tbl => tbl.typeMapping u) fun σ' m =>
        Table.MintedMapping σ'.Issued m :=
      .ask fun tbl m hm σ' hσ' => Table.minted_typeMapping (hu.later hσ') hm
    refine .map hmapping fun σ₂ m _ hm σ₃ hσ₃ x hx => ?_
    obtain ⟨e, he, rfl⟩ := mem_map.mp hx
    exact (hm e he).later hσ₃
  | substitute entries t =>
    refine .bind (.mapM (fun σ' e => e.2.Minted σ'.Issued) entries (fun _ e => ?_)
      fun _ _ _ h he => he.later h) fun σ₁ es _ hes => ?_
    · exact .bindAny (.evalElement? e.1) fun _ x => .map (.evalType e.2)
        fun _ u _ hu _ h => hu.later h
    · exact .bind (.evalValue t) fun σ₂ v hσ₂ hv =>
        .substitute (fun e he => (hes e he).later hσ₂) hv
  | unboxedType t => exact .bindAny (.evalValue t) fun _ v => .type .unboxedType
  | greatestLowerBound s t =>
    exact .bind (.evalValue s) fun _ v _ hv => .bind (.evalValue t) fun σ₂ w hσ₂ hw =>
      .greatestLowerBound (hv.later hσ₂) hw
  | leastUpperBounds ts =>
    refine .bind (.evalTypes ts) fun σ₁ us _ hus => .types ?_
    exact .askNumbered (fun tbl => (promise σ₁.Issued).gives_leastUpperBounds le_rfl us hus)
      fun _ _ hσ' hbs b hb => Ty.Minted.later (hbs b hb) hσ'

theorem advances_answer (r : Request) (register : Option Name) (σ : CaptureSupply) :
    Advances σ (r.answer register) fun σ' v => v.Minted σ'.Issued := by
  refine .bind (advances_perform r σ) fun _ v _ hv => .bind (.numberValue hv) fun _ u _ hu => ?_
  cases register with
  | none => exact .pure fun _ h => hu.later h
  | some name => exact .bind (.save hu) fun _ _ h _ => .pure fun _ h' => (hu.later h).later h'

/-! ### Runs -/

theorem fresh_start : start.Fresh :=
  forall_mem_nil _

/-- In every run the counters grow, and the captured variables in answers and saved values have
numbers below them. -/
theorem fresh_answerAll {s} (h : s.Fresh) (requests : List (Request × Option Name)) :
    (answerAll requests s).2.Fresh ∧ s.supply.Precedes (answerAll requests s).2.supply ∧
      ∀ v, .ok v ∈ (answerAll requests s).1 →
        v.Minted (answerAll requests s).2.supply.Issued := by
  induction requests generalizing s with
  | nil => exact ⟨h, .refl _, fun _ h => by cases h⟩
  | cons e requests ih =>
    obtain ⟨hfresh, hle, hanswer⟩ := advances_answer e.1 e.2 s.supply s h (.refl _)
    obtain ⟨hfresh', hle', hanswers⟩ := ih hfresh
    refine ⟨hfresh', hle.trans hle', fun v hv => ?_⟩
    rcases mem_cons.mp hv with hv | hv
    · exact (hanswer v hv.symm).later hle'
    · exact hanswers v hv

theorem answerAll_append (requests more : List (Request × Option Name)) (s : Session) :
    (answerAll (requests ++ more) s).2 = (answerAll more (answerAll requests s).2).2 := by
  induction requests generalizing s with
  | nil => rfl
  | cons e requests ih => exact ih _

/-- What a capture does in any session: to each wildcard it assigns the next token, all with the
number of the capture. -/
theorem outcome_capture_declared (c : ClassId) {args} (owner : Option Ty) (marks : List ClassId)
    (h : args.any Ty.isWildcard = true) (s : Session) :
    outcome (capture (.declared c args owner marks)) s =
      (.ok (.declared c (Ty.captureArguments s.supply.site s.supply.token args).1 owner marks),
        { s with
          supply := {
            token := s.supply.token + args.countP Ty.isWildcard
            site := s.supply.site + 1 } }) := by
  rw [outcome_capture]
  rcases Ty.capture_cases s.supply (.declared c args owner marks) with
    ⟨c, args, owner, marks, heq, -, hcapture⟩ | ⟨hnone, -, -⟩ | ⟨hpseudo, -⟩
  · cases heq
    rw [hcapture]
  · rw [hnone c args owner marks rfl] at h
    cases h
  · cases hpseudo

/-- Nothing but a declared type with wildcards changes by a capture. -/
theorem outcome_capture_other (hpseudo : t.isPseudo = false)
    (h : ∀ c args owner marks, t = .declared c args owner marks → args.any Ty.isWildcard = false)
    (s : Session) : outcome (capture t) s = (.ok t, s) := by
  rw [outcome_capture]
  rcases Ty.capture_cases s.supply t with
    ⟨c, args, owner, marks, heq, hany, -⟩ | ⟨-, -, hcapture⟩ | ⟨hpseudo', -⟩
  · rw [h c args owner marks heq] at hany
    cases hany
  · rw [hcapture]
  · rw [hpseudo] at hpseudo'
    cases hpseudo'

theorem outcome_capture_twice (t : Ty) (s : Session) :
    outcome (capture t >>= capture) s = outcome (capture t) s := by
  rw [outcome_bind]
  rcases Ty.capture_cases s.supply t with
    ⟨c, args, owner, marks, rfl, hany, -⟩ | ⟨hno, hpseudo, -⟩ | ⟨-, e, hcapture⟩
  · rw [outcome_capture_declared c owner marks hany]
    refine outcome_capture_other rfl (fun c args owner marks heq => ?_) _
    cases heq
    exact Ty.any_isWildcard_captureArguments _ _ _
  · rw [outcome_capture_other hpseudo hno]
    exact outcome_capture_other hpseudo hno s
  · rw [outcome_capture, hcapture]

/-- The variables of a capture have tokens between the counters before and after it. -/
theorem newVariables_capture {u s s'} (h : outcome (capture t) s = (.ok u, s')) :
    (t.newVariables u).Pairwise (fun x y => x.same y = false) ∧
    ∀ x ∈ t.newVariables u, ∃ token upper lower marks,
      x = .captured token s.supply.site upper lower marks ∧ s.supply.token ≤ token ∧
        s'.supply.Issued token s.supply.site := by
  rcases Ty.capture_cases s.supply t with
    ⟨c, args, owner, marks, rfl, hany, -⟩ | ⟨hno, hpseudo, -⟩ | ⟨-, e, hcapture⟩
  · cases h.symm.trans (outcome_capture_declared c owner marks hany s)
    obtain ⟨htokens, hpairwise⟩ := Ty.pairwise_captureArguments s.supply.site s.supply.token args
    refine ⟨hpairwise, fun x hx => ?_⟩
    obtain ⟨token, upper, lower, marks, rfl, hle, hlt⟩ := htokens x hx
    rw [Ty.snd_captureArguments] at hlt
    exact ⟨token, upper, lower, marks, rfl, hle, hlt, Nat.lt_succ_self _⟩
  · cases h.symm.trans (outcome_capture_other hpseudo hno s)
    have hnil : t.newVariables t = [] := by
      cases t with
      | declared c args owner marks => exact Ty.newVariables_eq_nil (hno c args owner marks rfl)
      | _ => rfl
    rw [hnil]
    exact ⟨.nil, forall_mem_nil _⟩
  · rw [outcome_capture, hcapture] at h
    cases h

/-- In every run, the captured variables in answers and saved values have numbers below the
counters, which never go back. A capture of a declared type with wildcards replaces exactly these,
in place, by variables that carry their bounds, with consecutive tokens from the counter on and one
number that is that of the capture; all other types stay as they are and so do the counters. So a
second capture changes nothing, and the variables of a capture are different from each other and
from those of every later capture. -/
theorem capture_fresh (requests more : List (Request × Option Name)) :
    let s := (answerAll requests start).2
    ((∀ v, .ok v ∈ (answerAll requests start).1 → v.Minted s.supply.Issued) ∧
      (∀ e ∈ s.saved, e.2.Minted s.supply.Issued) ∧
      s.supply.Precedes (answerAll (requests ++ more) start).2.supply) ∧
    (∀ (s : Session) c args owner marks, args.any Ty.isWildcard = true → ∃ args',
      outcome (capture (.declared c args owner marks)) s =
        (.ok (.declared c args' owner marks),
          { s with
            supply := {
              token := s.supply.token + args.countP Ty.isWildcard
              site := s.supply.site + 1 } }) ∧
      ∀ i, args'[i]? = args[i]?.map
        (Ty.capturedAs (s.supply.token + (args.take i).countP Ty.isWildcard) s.supply.site)) ∧
    (∀ (s : Session) t, t.isPseudo = false →
      (∀ c args owner marks, t = .declared c args owner marks → args.any Ty.isWildcard = false) →
      outcome (capture t) s = (.ok t, s)) ∧
    (∀ (s : Session) t, outcome (capture t >>= capture) s = outcome (capture t) s) ∧
    ∀ (s s₁ s₂ s₃ : Session) t u t' u', outcome (capture t) s = (.ok u, s₁) →
      s₁.supply.Precedes s₂.supply → outcome (capture t') s₂ = (.ok u', s₃) →
      (t.newVariables u ++ t'.newVariables u').Pairwise (fun x y => x.same y = false) ∧
      ∀ x ∈ t.newVariables u, ∀ y ∈ t'.newVariables u', x.captureNumber? ≠ y.captureNumber? := by
  obtain ⟨hfresh, -, hanswers⟩ := fresh_answerAll fresh_start requests
  refine ⟨⟨hanswers, hfresh, ?_⟩, fun s c args owner marks h => ?_, fun s t hpseudo h => ?_,
    fun s t => outcome_capture_twice t s, fun s s₁ s₂ s₃ t u t' u' h hle h' => ?_⟩
  · rw [answerAll_append]
    exact (fresh_answerAll hfresh more).2.1
  · exact ⟨_, outcome_capture_declared c owner marks h s,
      Ty.getElem?_captureArguments s.supply.site s.supply.token args⟩
  · exact outcome_capture_other hpseudo h s
  · obtain ⟨hpairwise, htokens⟩ := newVariables_capture h
    obtain ⟨hpairwise', htokens'⟩ := newVariables_capture h'
    have hapart : ∀ x ∈ t.newVariables u, ∀ y ∈ t'.newVariables u',
        x.same y = false ∧ x.captureNumber? ≠ y.captureNumber? := by
      intro x hx y hy
      obtain ⟨token, upper, lower, marks, rfl, -, hissued⟩ := htokens x hx
      obtain ⟨token', upper', lower', marks', rfl, hle', -⟩ := htokens' y hy
      have hearlier := hle.issued hissued
      simp only [Ty.same, Ty.captureNumber?, beq_eq_false_iff_ne, ne_eq, Option.some.injEq]
      exact ⟨Nat.ne_of_lt (Nat.lt_of_lt_of_le hearlier.1 hle'), Nat.ne_of_lt hearlier.2⟩
    exact ⟨pairwise_append.mpr ⟨hpairwise, hpairwise', fun x hx y hy => (hapart x hx y hy).1⟩,
      fun x hx y hy => (hapart x hx y hy).2⟩

end Session

end NominalTypes
