import NominalTypes.Proofs.Grammar

/-!
# What the reader reads

The reader follows the rules of the grammar from left to right. Its budget is the number of tokens:
nested types stand behind an opening bracket, so each level of nesting has fewer tokens left.
`Outcome` says what a reading can come to. Either it consumes tokens that fit a rule, or it fails at
a position of the text; there is no other failure, and in particular the budget never runs out.

The annotations in front of an argument are read twice, once to look for a question mark behind
them. The second reading begins where the first one did, so an outcome is stated relative to the
tokens in front of which the reading began (`Outcome.andThen`).
-/

namespace NominalTypes.Signature

open List

open Grammar

variable {α β : Type} {src : Source} {us rest ls : List Lexeme} {c : Char} {marks : List ClassId}
  {r : Result (α × List Lexeme)} {a : α} {P' : List Token → α → Prop} {f : α → Reading β}

/-- The tokens of lexemes. -/
abbrev tokens (ls : List Lexeme) : List Token :=
  ls.map (·.token)

/-- An error that points into the text. -/
def Located (src : Source) (err : Error) : Prop :=
  ∃ fault position, err = .signature fault src.text position ∧ position ≤ src.text.length

/-- Lexemes that stand inside the text. -/
def Placed (src : Source) (ls : List Lexeme) : Prop :=
  ∀ l ∈ ls, l.position ≤ src.text.length

/-- What a reading comes to: it consumes tokens and returns a value that fit together, or it fails
with an error that points into the text. -/
inductive Outcome (src : Source) (ls : List Lexeme) (P : List Token → α → Prop) :
    Result (α × List Lexeme) → Prop
  | read (us : List Lexeme) {rest a} (hls : ls = us ++ rest) (h : P (tokens us) a) :
      Outcome src ls P (.ok (a, rest))
  | failed {err} (h : Located src err) : Outcome src ls P (.error err)

theorem Placed.append_right (h : Placed src (us ++ rest)) : Placed src rest :=
  fun l hl => h l (mem_append_right _ hl)

theorem Placed.tail {l} (h : Placed src (l :: rest)) : Placed src rest :=
  fun l hl => h l (mem_cons_of_mem _ hl)

theorem head_eq_of_token_eq {token} (h : ls.head?.map (·.token) = some token) :
    ∃ p rest, ls = ⟨token, p⟩ :: rest := by
  cases ls with
  | nil => cases h
  | cons l rest =>
    obtain ⟨_, p⟩ := l
    cases Option.some.inj h
    exact ⟨p, rest, rfl⟩

theorem bind_of_ok {r} (h : r ls = .ok (a, rest)) (f : α → Reading β) :
    (r >>= f) ls = f a rest := by
  change (r ls >>= fun x => f x.1 x.2) = _
  rw [h]
  rfl

theorem get_bind (f : List Lexeme → Reading β) (ls : List Lexeme) :
    ((get : Reading (List Lexeme)) >>= f) ls = f ls ls :=
  rfl

theorem advance_bind (l : Lexeme) (ls : List Lexeme) (f : PUnit → Reading β) :
    (advance >>= f) (l :: ls) = f ⟨⟩ ls :=
  rfl

theorem nextIs_bind_true {p} (f : Bool → Reading β) :
    (nextIs c >>= f) (⟨.mark c, p⟩ :: rest) = f true (⟨.mark c, p⟩ :: rest) := by
  change f (some (Token.mark c) == some (.mark c)) (⟨.mark c, p⟩ :: rest) = _
  rw [beq_self_eq_true]

theorem nextIs_bind_false (h : ls.head?.map (·.token) ≠ some (.mark c)) (f : Bool → Reading β) :
    (nextIs c >>= f) ls = f false ls := by
  change f (ls.head?.map (·.token) == some (.mark c)) ls = _
  rw [beq_eq_false_iff_ne.mpr h]

/-! ### Composing outcomes -/

namespace Outcome

variable {P : List Token → α → Prop} {Q : List Token → β → Prop}

theorem imp (h : Outcome src ls P r)
    (hP : ∀ us rest a, ls = us ++ rest → P (tokens us) a → P' (tokens us) a) :
    Outcome src ls P' r := by
  cases h with
  | read us hls h => exact .read us hls (hP _ _ _ hls h)
  | failed h => exact .failed h

theorem mono (h : Outcome src ls P r) (hP : ∀ ts a, P ts a → P' ts a) : Outcome src ls P' r :=
  h.imp fun _ _ _ _ => hP _ _

theorem pure (h : P [] a) : Outcome src ls P ((Pure.pure a : Reading α) ls) :=
  .read [] (nil_append ls).symm h

theorem failAt (fault : SignatureFault) {position} (h : position ≤ src.text.length) :
    Outcome src ls P (Signature.failAt src fault position ls) :=
  .failed ⟨fault, position, rfl, h⟩

theorem fail (hls : Placed src ls) (fault : SignatureFault) :
    Outcome src ls P (Signature.fail src fault ls) := by
  cases ls with
  | nil => exact .failed ⟨fault, _, rfl, Nat.le_refl _⟩
  | cons l rest => exact .failed ⟨fault, _, rfl, hls l mem_cons_self⟩

/-- Going on after some tokens. -/
theorem shift (us : List Lexeme) (h : Outcome src rest (fun ts a => P (tokens us ++ ts) a) r) :
    Outcome src (us ++ rest) P r := by
  cases h with
  | read vs hrest h =>
    refine .read (us ++ vs) ?_ ?_
    · rw [hrest, append_assoc]
    · rw [tokens, map_append]
      exact h
  | failed h => exact .failed h

/-- One reading, and another one that may begin anywhere. -/
theorem andThen {r} (h : Outcome src ls P (r ls))
    (hf : ∀ us rest a, ls = us ++ rest → r ls = .ok (a, rest) → P (tokens us) a →
      Outcome src ls Q (f a rest)) :
    Outcome src ls Q ((r >>= f) ls) := by
  change Outcome src ls Q (r ls >>= fun x => f x.1 x.2)
  cases hr : r ls with
  | error err =>
    rw [hr] at h
    cases h with
    | failed h => exact .failed h
  | ok x =>
    obtain ⟨a, rest⟩ := x
    rw [hr] at h
    cases h with
    | read us hls h => exact hf us rest a hls hr h

/-- One reading after the other. -/
theorem bind {r} (h : Outcome src ls P (r ls))
    (hf : ∀ us rest a, ls = us ++ rest → r ls = .ok (a, rest) → P (tokens us) a →
      Outcome src rest (fun ts b => Q (tokens us ++ ts) b) (f a rest)) :
    Outcome src ls Q ((r >>= f) ls) := by
  refine h.andThen fun us rest a hls hr ha => ?_
  have hrest := hf us rest a hls hr ha
  rw [hls]
  exact .shift us hrest

/-- Passing over a mark, if it is the next token. -/
theorem ifNext {k r} (hnext : ∀ p rest, ls = ⟨.mark c, p⟩ :: rest →
      Outcome src rest (fun ts b => Q (.mark c :: ts) b) (k rest))
    (helse : ls.head?.map (·.token) ≠ some (.mark c) → Outcome src ls Q (r ls)) :
    Outcome src ls Q ((nextIs c >>= fun b => if b then advance >>= fun _ => k else r) ls) := by
  by_cases h : ls.head?.map (·.token) = some (.mark c)
  · obtain ⟨p, rest, rfl⟩ := head_eq_of_token_eq h
    rw [nextIs_bind_true, if_pos rfl]
    exact .shift [⟨.mark c, p⟩] (hnext p rest rfl)
  · rw [nextIs_bind_false h, if_neg Bool.false_ne_true]
    exact helse h

/-- Passing over the next token. -/
theorem advance {l f} (h : Outcome src ls (fun ts b => Q (l.token :: ts) b) (f ⟨⟩ ls)) :
    Outcome src (l :: ls) Q ((Signature.advance >>= f) (l :: ls)) :=
  .shift [l] h

/-- Looking at all tokens that are left. -/
theorem get {f : List Lexeme → Reading β} (h : Outcome src ls Q (f ls ls)) :
    Outcome src ls Q ((MonadState.get >>= f) ls) :=
  h

/-- A question about the declarations. -/
theorem lift {r : Result α} (hr : r = .ok a) (h : Outcome src ls Q (f a ls)) :
    Outcome src ls Q (((liftM r : Reading α) >>= f) ls) := by
  subst hr
  exact h

end Outcome

/-! ### Names -/

/-- The tokens go on with a dot and an identifier. -/
def DotAhead (ts : List Token) : Prop :=
  ∃ name us, ts = .mark '.' :: .identifier name :: us

theorem moreSegments_spec (ls : List Lexeme) :
    ∃ us, ls = us ++ (moreSegments ls).2 ∧ tokens us = dots (moreSegments ls).1 ∧
      ¬ DotAhead (tokens (moreSegments ls).2) := by
  fun_induction moreSegments ls with
  | case1 p name q rest names rest' heq ih =>
    rw [heq] at ih
    obtain ⟨us, hls, hus, hahead⟩ := ih
    exact ⟨⟨.mark '.', p⟩ :: ⟨.identifier name, q⟩ :: us, by rw [hls]; rfl,
      by simpa [dots] using hus, hahead⟩
  | case2 rest hno =>
    refine ⟨[], rfl, rfl, ?_⟩
    rintro ⟨name, us, h⟩
    obtain _ | ⟨⟨_, p⟩, _ | ⟨⟨_, q⟩, rest⟩⟩ := rest
    · cases h
    · cases h
    · cases h
      exact hno p name q rest rfl

theorem outcome_identifier (hls : Placed src ls) :
    Outcome src ls (fun ts name => ts = [.identifier name]) (identifier src ls) := by
  match ls with
  | [] => exact .fail hls _
  | ⟨.identifier name, p⟩ :: rest => exact .read [⟨.identifier name, p⟩] rfl rfl
  | ⟨.ellipsis, p⟩ :: rest => exact .fail hls _
  | ⟨.mark c, p⟩ :: rest => exact .fail hls _

theorem outcome_expect (c : Char) (hls : Placed src ls) :
    Outcome src ls (fun ts _ => ts = [.mark c]) (expect src c ls) := by
  rw [expect]
  by_cases h : ls.head?.map (·.token) = some (.mark c)
  · obtain ⟨p, rest, rfl⟩ := head_eq_of_token_eq h
    rw [nextIs_bind_true, if_pos rfl]
    exact .read [⟨.mark c, p⟩] rfl rfl
  · rw [nextIs_bind_false h, if_neg Bool.false_ne_true]
    exact .fail hls _

theorem dottedName_cons (first : String) (p : Nat) (rest : List Lexeme) :
    dottedName src (⟨.identifier first, p⟩ :: rest) =
      .ok (first :: (moreSegments rest).1, (moreSegments rest).2) :=
  rfl

theorem outcome_dottedName (hls : Placed src ls) :
    Outcome src ls (fun ts names => ∃ first more, names = first :: more ∧ ts = dotted first more)
      (dottedName src ls) := by
  match ls with
  | [] => exact .failed ⟨_, _, rfl, Nat.le_refl _⟩
  | ⟨.ellipsis, p⟩ :: rest => exact .failed ⟨_, _, rfl, hls _ mem_cons_self⟩
  | ⟨.mark c, p⟩ :: rest => exact .failed ⟨_, _, rfl, hls _ mem_cons_self⟩
  | ⟨.identifier first, p⟩ :: rest =>
    obtain ⟨us, hrest, hus, -⟩ := moreSegments_spec rest
    exact .read (⟨.identifier first, p⟩ :: us) (congrArg (_ :: ·) hrest)
      ⟨first, _, rfl, congrArg (_ :: ·) hus⟩

/-- A dotted name is read as far as it goes. -/
theorem not_dotAhead_of_dottedName {names} (h : dottedName src ls = .ok (names, rest)) :
    ¬ DotAhead (tokens rest) := by
  match ls with
  | [] => cases h
  | ⟨.ellipsis, p⟩ :: ls => cases h
  | ⟨.mark c, p⟩ :: ls => cases h
  | ⟨.identifier first, p⟩ :: ls =>
    obtain ⟨us, -, -, hahead⟩ := moreSegments_spec ls
    cases (dottedName_cons first p ls).symm.trans h
    exact hahead

/-! ### What is read fits the grammar -/

section

variable (hscope : Scope.NamesClasses src.tbl src.scope)
include hscope

theorem outcome_annotationsWithin (fuel : Nat) (hls : Placed src ls) :
    Outcome src ls (Annotations src.tbl src.scope) (annotationsWithin src fuel ls) := by
  induction fuel generalizing ls with
  | zero => exact .pure .none
  | succ fuel ih =>
    refine .ifNext (fun p rest hrest => ?_) fun _ => .pure .none
    subst hrest
    refine (outcome_dottedName hls.tail).bind fun us rest names hls' _ hnames => ?_
    obtain ⟨first, more, rfl, hus⟩ := hnames
    have hrest : Placed src rest := (hls' ▸ hls.tail).append_right
    obtain ⟨found, hfound, -⟩ := hscope.answers_resolveClass (".".intercalate (first :: more))
    refine .lift hfound ?_
    cases found with
    | none => exact .fail hrest _
    | some c =>
      dsimp only
      split_ifs with hkind
      · refine (ih hrest).bind fun vs rest marks _ _ hmarks => .pure ?_
        rw [hus, append_nil]
        exact .more hfound (beq_iff_eq.mp hkind) hmarks
      · exact .fail hrest _

theorem outcome_readAnnotations (hls : Placed src ls) :
    Outcome src ls (Annotations src.tbl src.scope) (readAnnotations src ls) :=
  outcome_annotationsWithin hscope ls.length hls

omit hscope in
theorem outcome_readArrayMarks (e : Expr) (hls : Placed src ls) :
    Outcome src ls (ArrayMarks e) (readArrayMarks src e ls) := by
  fun_induction readArrayMarks src e ls with
  | case1 e p rest ih => exact .shift [⟨.ellipsis, p⟩] ((ih hls.tail).mono fun _ _ => .ellipsis)
  | case2 e p q rest ih =>
    exact .shift [⟨.mark '[', p⟩, ⟨.mark ']', q⟩] ((ih hls.tail.tail).mono fun _ _ => .brackets)
  | case3 e p rest => exact .shift [⟨.mark '[', p⟩] (.fail hls.tail _)
  | case4 e rest => exact .pure .none

end

/-- A reading that fits a rule on at most `n` lexemes. -/
def Reads (src : Source) (n : Nat) (r : Reading α) (P : List Token → α → Prop) : Prop :=
  ∀ ls, Placed src ls → ls.length ≤ n → Outcome src ls P (r ls)

theorem length_le_of_eq_append {n} (h : ls = us ++ rest) (hn : ls.length ≤ n) :
    rest.length ≤ n := by
  rw [h, length_append] at hn
  omega

section

variable {T : List Token → Expr → Prop} {type : Reading Expr} {n : Nat}

/-- The bound of a wildcard after the question mark. -/
inductive WildcardBound (T : List Token → Expr → Prop) (marks : List ClassId) :
    List Token → Expr → Prop
  | none : WildcardBound T marks [] (.wildcard [] [] marks)
  | upper {ts e} (h : T ts e) :
      WildcardBound T marks (.identifier "extends" :: ts) (.wildcard [e] [] marks)
  | lower {ts e} (h : T ts e) :
      WildcardBound T marks (.identifier "super" :: ts) (.wildcard [] [e] marks)

theorem readWildcard_eq (type : Reading Expr) (marks : List ClassId) (ls : List Lexeme) :
    readWildcard type marks ls = (match ls.head?.map fun l : Lexeme => l.token with
      | some (.identifier "extends") => do
        advance
        return .wildcard [← type] [] marks
      | some (.identifier "super") => do
        advance
        return .wildcard [] [← type] marks
      | _ => return .wildcard [] [] marks : Reading Expr) ls :=
  rfl

theorem outcome_readWildcard (htype : Reads src n type T) (marks : List ClassId)
    (hls : Placed src ls) (hn : ls.length ≤ n) :
    Outcome src ls (WildcardBound T marks) (readWildcard type marks ls) := by
  have hnext {l : Lexeme} {rest : List Lexeme} (h : ls = l :: rest) :
      Outcome src rest T (type rest) := by
    subst h
    exact htype rest hls.tail (Nat.le_of_succ_le hn)
  rw [readWildcard_eq]
  generalize hhead : ls.head?.map (·.token) = token?
  split
  · obtain ⟨p, rest, h⟩ := head_eq_of_token_eq hhead
    have hrest := hnext h
    subst h
    refine .advance (hrest.bind fun us rest e _ _ he => .pure ?_)
    rw [append_nil]
    exact .upper he
  · obtain ⟨p, rest, h⟩ := head_eq_of_token_eq hhead
    have hrest := hnext h
    subst h
    refine .advance (hrest.bind fun us rest e _ _ he => .pure ?_)
    rw [append_nil]
    exact .lower he
  · exact .pure .none

theorem readArgument_of_type (h : readAnnotations src ls = .ok (marks, rest))
    (hnext : rest.head?.map (·.token) ≠ some (.mark '?')) : readArgument src type ls = type ls := by
  change (readAnnotations src >>= fun marks => nextIs '?' >>= fun b =>
    if b then advance >>= fun _ => readWildcard type marks else set ls >>= fun _ => type) ls = _
  rw [bind_of_ok h, nextIs_bind_false hnext, if_neg Bool.false_ne_true]
  rfl

variable (hscope : Scope.NamesClasses src.tbl src.scope) (htype : Reads src n type T)

include hscope htype

theorem outcome_readArgument (hls : Placed src ls) (hn : ls.length ≤ n) :
    Outcome src ls (Grammar.Argument src.tbl src.scope T) (readArgument src type ls) := by
  refine .get ((outcome_readAnnotations hscope hls).andThen fun us rest marks hus _ hmarks => ?_)
  have hrest : Placed src rest := (hus ▸ hls).append_right
  have hn' : rest.length ≤ n := length_le_of_eq_append hus hn
  by_cases hnext : rest.head?.map (·.token) = some (.mark '?')
  · obtain ⟨p, after, rfl⟩ := head_eq_of_token_eq hnext
    have hbound := outcome_readWildcard htype marks hrest.tail (Nat.le_of_succ_le hn')
    rw [nextIs_bind_true, if_pos rfl, advance_bind, hus]
    refine .shift us (.shift [⟨.mark '?', p⟩] (hbound.mono fun ts e he => ?_))
    cases he with
    | none => exact .unbounded hmarks
    | upper he => exact .upper hmarks he
    | lower he => exact .lower hmarks he
  · rw [nextIs_bind_false hnext, if_neg Bool.false_ne_true]
    exact (htype ls hls hn).mono fun _ _ => .type

theorem outcome_moreArguments (fuel : Nat) (hls : Placed src ls)
    (hn : ls.length ≤ n) :
    Outcome src ls (Further src.tbl src.scope T) (moreArguments src type fuel ls) := by
  induction fuel generalizing ls with
  | zero => exact .pure .none
  | succ fuel ih =>
    refine .ifNext (fun p rest hrest => ?_) fun _ => .pure .none
    subst hrest
    refine (outcome_readArgument hscope htype hls.tail (Nat.le_of_succ_le hn)).bind
      fun us rest arg hus _ harg => ?_
    refine (ih (hus ▸ hls.tail).append_right
      (length_le_of_eq_append hus (Nat.le_of_succ_le hn))).bind
      fun vs rest args _ _ hargs => .pure ?_
    rw [append_nil]
    exact .more harg hargs

/-- The arguments of a class, from the opening bracket on. -/
theorem outcome_readArguments (hls : Placed src ls)
    (hn : ls.length ≤ n) :
    Outcome src ls (fun ts args => ∃ us vs e es, ts = us ++ vs ++ [.mark '>'] ∧ args = e :: es ∧
      Grammar.Argument src.tbl src.scope T us e ∧ Further src.tbl src.scope T vs es)
      (readArguments src type ls) := by
  refine (outcome_readArgument hscope htype hls hn).bind fun us rest first hus _ hfirst => ?_
  have hrest : Placed src rest := (hus ▸ hls).append_right
  have hn' : rest.length ≤ n := length_le_of_eq_append hus hn
  refine .get ((outcome_moreArguments hscope htype rest.length hrest hn').bind
    fun vs rest more hvs _ hmore => ?_)
  refine (outcome_expect '>' (hvs ▸ hrest).append_right).bind fun ws rest _ _ _ hws => .pure ?_
  rw [hws, append_nil, ← append_assoc]
  exact ⟨_, _, first, more, rfl, rfl, hfirst, hmore⟩

theorem outcome_readApplied (c : ClassId) (owner : Option Expr)
    (hls : Placed src ls) (hn : ls.length ≤ n + 1) :
    Outcome src ls (fun ts e => Use src.tbl src.scope T ts c owner e)
      (readApplied src type c owner ls) := by
  refine .get ?_
  split
  · rename_i p rest
    have hn' : rest.length ≤ n := Nat.le_of_succ_le_succ hn
    refine .advance ((outcome_readArguments hscope htype hls.tail hn').bind
      fun us rest args _ _ hargs => ?_)
    obtain ⟨ts, vs, e, es, hus, rfl, hfirst, hmore⟩ := hargs
    have hp : p ≤ src.text.length := hls _ mem_cons_self
    split_ifs with hprimitive hcount
    · exact .failAt _ hp
    · exact .failAt _ hp
    · refine .pure ?_
      rw [hus, append_nil]
      exact .applied (Bool.eq_false_iff.mpr hprimitive) (Decidable.not_not.mp hcount) hfirst hmore
  · exact .pure .plain

theorem outcome_readMembers (fuel : Nat) {c}
    (hc : Scope.Reachable src.tbl src.scope c) (e : Expr) (hls : Placed src ls)
    (hn : ls.length ≤ n + 1) :
    Outcome src ls (Members src.tbl src.scope T c e) (readMembers src type fuel c e ls) := by
  induction fuel generalizing c e ls with
  | zero => exact .pure .none
  | succ fuel ih =>
    refine .ifNext (fun p rest hrest => ?_) fun _ => .pure .none
    subst hrest
    refine (outcome_identifier hls.tail).bind fun us rest name hus _ hname => ?_
    have hrest : Placed src rest := (hus ▸ hls.tail).append_right
    have hn' : rest.length ≤ n + 1 := length_le_of_eq_append hus (Nat.le_of_succ_le hn)
    obtain ⟨found, hfound, hreach⟩ := hscope.answers_inheritedMemberClass hc name
    refine .lift hfound ?_
    cases found with
    | none => exact .fail hrest _
    | some m =>
      refine (outcome_readApplied hscope htype m (asOwner e) hrest hn').bind
        fun vs rest' e' hvs _ huse => ?_
      refine (ih (hreach m rfl) e' (hvs ▸ hrest).append_right
        (length_le_of_eq_append hvs hn')).mono fun ts e'' hmore => ?_
      rw [hname]
      change Members _ _ T c e (.mark '.' :: .identifier name :: (tokens vs ++ ts)) e''
      exact .more hfound huse hmore

theorem outcome_readClass {first more}
    (hvariable : more = [] → src.scope.typeVariables.lookup first = none) {start}
    (hstart : start ≤ src.text.length) (hls : Placed src ls) (hn : ls.length ≤ n + 1)
    (hahead : ¬ DotAhead (tokens ls)) :
    Outcome src ls (fun ts e => Reference src.tbl src.scope T (dotted first more ++ ts) e)
      (readClass src type (first :: more) start ls) := by
  obtain ⟨found, hfound, hreach⟩ := hscope.answers_resolveClass (".".intercalate (first :: more))
  refine .lift hfound ?_
  cases found with
  | none => exact .failAt _ hstart
  | some c =>
    refine (outcome_readApplied hscope htype c none hls hn).bind fun us rest e hus _ huse => ?_
    have hrest : Placed src rest := (hus ▸ hls).append_right
    refine .get ((outcome_readMembers hscope htype rest.length (hreach c rfl) e hrest
      (length_le_of_eq_append hus hn)).imp fun vs rest' e' hvs hmembers => ?_)
    -- The name has been read as far as it goes, so that what follows does not continue it.
    refine .cls hvariable hfound (fun longer tail d hlonger heq _ => hahead ?_) huse hmembers
    obtain ⟨name, names, rfl⟩ := exists_cons_of_ne_nil hlonger
    refine ⟨name, dots names ++ tail ++ tokens rest', ?_⟩
    rw [hus, hvs, tokens, map_append, map_append, ← append_assoc, heq]
    rfl

theorem outcome_readReference (hls : Placed src ls)
    (hn : ls.length ≤ n + 1) :
    Outcome src ls (Reference src.tbl src.scope T) (readReference src type ls) := by
  have hstart : (ls.head?.map (·.position)).getD src.text.length ≤ src.text.length := by
    cases ls with
    | nil => exact Nat.le_refl _
    | cons l rest => exact hls l mem_cons_self
  refine .get ?_
  refine (outcome_dottedName hls).bind fun us rest names hus hread hnames => ?_
  obtain ⟨first, more, rfl, htokens⟩ := hnames
  have hrest : Placed src rest := (hus ▸ hls).append_right
  have hahead := not_dotAhead_of_dottedName hread
  simp only [htokens]
  cases hvariable : scopedVariable? src (first :: more) with
  | none =>
    refine outcome_readClass hscope htype (fun hmore => ?_) hstart hrest
      (length_le_of_eq_append hus hn) hahead
    subst hmore
    exact hvariable
  | some v =>
    cases more with
    | cons name names => cases hvariable
    | nil =>
      change Outcome src rest _ ((if ((rest.head?.map (·.token) == some (.mark '<')) ||
        (rest.head?.map (·.token) == some (.mark '.'))) = true then _ else _ : Reading Expr) rest)
      split_ifs
      · exact .fail hrest _
      · exact .pure (.var hvariable)

omit htype in
/-- What is read fits the grammar, and all errors point into the text. -/
theorem outcome_readType (n : Nat) :
    Reads src n (readType src (n + 1)) (IsType src.tbl src.scope) := by
  induction n with
  | zero =>
    intro ls hls hn
    cases length_eq_zero_iff.mp (Nat.le_zero.mp hn)
    exact .failed ⟨.unexpectedEnd, src.text.length, rfl, Nat.le_refl _⟩
  | succ n ih =>
    intro ls hls hn
    refine (outcome_readAnnotations hscope hls).bind fun us rest marks hus _ hmarks => ?_
    have hrest : Placed src rest := (hus ▸ hls).append_right
    refine (outcome_readReference hscope ih hrest (length_le_of_eq_append hus hn)).bind
      fun vs rest' e hvs _ href => ?_
    refine (outcome_readArrayMarks _ (hvs ▸ hrest).append_right).mono fun ts e' harrays => ?_
    exact .intro hmarks href harrays

end

end NominalTypes.Signature
