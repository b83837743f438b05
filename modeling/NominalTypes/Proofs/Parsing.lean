import NominalTypes.Proofs.Reading

/-!
# The reader accepts exactly its grammar

The reader finds the expression of every sequence of tokens that fits the rules of the grammar
(`Accepts`). One token of lookahead is enough: a rule that could go on stops in front of a token
that only another rule can continue with. Together with what is known of its outcomes, this says
that reading decides the grammar.
-/

namespace NominalTypes.Signature

open List

variable {c : ClassId} {e : Expr} {marks : List ClassId} {ts us ms : List Token} {fuel p : Nat}
  {rest ls lexemes : List Lexeme} {owner : Option Expr}

open Grammar

variable {α β : Type} {src : Source}

/-! ### What fits the grammar is read -/

/-- The reading takes off the given tokens, if what follows them is as stated, and returns the given
value. -/
def Accepts (r : Reading α) (ts : List Token) (a : α) (F : Option Token → Prop) : Prop :=
  ∀ us rest, tokens us = ts → F (tokens rest).head? → r (us ++ rest) = .ok (a, rest)

/-- The identifiers among the tokens are identifiers. -/
def Proper (words : Text.WordClass) (ts : List Token) : Prop :=
  ∀ name, .identifier name ∈ ts → IsIdentifier words name

section

variable {words : Text.WordClass}

theorem Proper.left (h : Proper words (ts ++ us)) : Proper words ts :=
  fun name hname => h name (mem_append_left _ hname)

theorem Proper.right (h : Proper words (ts ++ us)) : Proper words us :=
  fun name hname => h name (mem_append_right _ hname)

theorem Proper.tail {t} (h : Proper words (t :: ts)) : Proper words ts :=
  fun name hname => h name (mem_cons_of_mem _ hname)

end

theorem tokens_eq_append {us ts₁ ts₂} (h : tokens us = ts₁ ++ ts₂) :
    ∃ us₁ us₂, us = us₁ ++ us₂ ∧ tokens us₁ = ts₁ ∧ tokens us₂ = ts₂ :=
  map_eq_append_iff.mp h

theorem tokens_eq_cons {us t} (h : tokens us = t :: ts) :
    ∃ p us', us = ⟨t, p⟩ :: us' ∧ tokens us' = ts := by
  obtain ⟨l, us', rfl, ht, hts⟩ := map_eq_cons_iff.mp h
  subst ht
  exact ⟨l.position, us', rfl, hts⟩

/-- The next token after lexemes that are to be read. -/
theorem head?_append_of_tokens_eq {us rest : List Lexeme} (h : tokens us = ts) :
    (us ++ rest).head?.map (·.token) = ts.head?.or (tokens rest).head? := by
  rw [← head?_map, map_append, ← tokens, h, head?_append]

namespace Accepts

variable {F G : Option Token → Prop} {a : α} {b : β} {r k : Reading α} {f : α → Reading β}
  {ch : Char}

theorem pure : Accepts (Pure.pure a) [] a F := by
  intro us rest hus _
  cases map_eq_nil_iff.mp hus
  rfl

theorem mono (h : Accepts r ts a F) (hF : ∀ next, G next → F next) : Accepts r ts a G :=
  fun us rest hus hnext => h us rest hus (hF _ hnext)

/-- One reading after the other. After the tokens of the first come those of the second, if there
are any. -/
theorem bind (h : Accepts r ts a F) (hf : Accepts (f a) us b G)
    (hF : ∀ next, G next → F (us.head?.or next)) : Accepts (r >>= f) (ts ++ us) b G := by
  intro ls rest hls hnext
  obtain ⟨ls₁, ls₂, rfl, hls₁, hls₂⟩ := tokens_eq_append hls
  have hafter := hF _ hnext
  rw [← head?_append_of_tokens_eq hls₂, ← head?_map] at hafter
  rw [append_assoc, bind_of_ok (h ls₁ _ hls₁ hafter)]
  exact hf ls₂ rest hls₂ hnext

theorem map {g : α → β} (h : Accepts r ts a F) :
    Accepts (r >>= fun a => Pure.pure (g a)) ts (g a) F := by
  intro us rest hus hnext
  rw [bind_of_ok (h us rest hus hnext)]
  rfl

/-- A question about the declarations. -/
theorem lift {r : Result α} (hr : r = .ok a) (h : Accepts (f a) ts b F) :
    Accepts ((liftM r : Reading α) >>= f) ts b F := by
  subst hr
  exact h

/-- Looking at all tokens that are left. -/
theorem get {f : List Lexeme → Reading β}
    (h : ∀ ls, ts.length ≤ ls.length → Accepts (f ls) ts b F) :
    Accepts (MonadState.get >>= f) ts b F := by
  intro us rest hus hnext
  refine h (us ++ rest) ?_ us rest hus hnext
  rw [← hus, tokens, length_map, length_append]
  exact Nat.le_add_right _ _

/-- Passing over a mark that is the next token. -/
theorem ifNext (h : Accepts r ts a F) :
    Accepts (nextIs ch >>= fun b => if b then advance >>= fun _ => r else k)
      (.mark ch :: ts) a F := by
  intro us rest hus hnext
  obtain ⟨p, us', rfl, hus'⟩ := tokens_eq_cons hus
  rw [cons_append, nextIs_bind_true, if_pos rfl, advance_bind]
  exact h us' rest hus' hnext

/-- Going on in front of another token. -/
theorem nextIs {f : Bool → Reading β} (hne : ∀ next, F next → ts.head?.or next ≠ some (.mark ch))
    (h : Accepts (f false) ts b F) : Accepts (Signature.nextIs ch >>= f) ts b F := by
  intro us rest hus hnext
  rw [nextIs_bind_false (head?_append_of_tokens_eq hus ▸ hne _ hnext)]
  exact h us rest hus hnext

end Accepts

theorem accepts_identifier (name : String) :
    Accepts (identifier src) [.identifier name] name fun _ => True := by
  intro us rest hus _
  obtain ⟨p, us', rfl, hus'⟩ := tokens_eq_cons hus
  cases map_eq_nil_iff.mp hus'
  rfl

theorem accepts_expect (ch : Char) : Accepts (expect src ch) [.mark ch] () fun _ => True := by
  intro us rest hus _
  obtain ⟨p, us', rfl, hus'⟩ := tokens_eq_cons hus
  cases map_eq_nil_iff.mp hus'
  rw [expect, singleton_append, nextIs_bind_true, if_pos rfl]
  rfl

theorem moreSegments_append {us names} (hus : tokens us = dots names)
    (hrest : (tokens rest).head? ≠ some (.mark '.')) :
    moreSegments (us ++ rest) = (names, rest) := by
  induction names generalizing us with
  | nil =>
    cases map_eq_nil_iff.mp hus
    rw [nil_append, moreSegments]
    rintro p name q after rfl
    exact hrest rfl
  | cons name names ih =>
    obtain ⟨p, us', rfl, hus'⟩ := tokens_eq_cons hus
    obtain ⟨q, vs, rfl, hvs⟩ := tokens_eq_cons hus'
    simp only [cons_append, moreSegments, ih hvs]

theorem accepts_dottedName (first : String) (more : List String) :
    Accepts (dottedName src) (dotted first more) (first :: more) fun next =>
      next ≠ some (.mark '.') := by
  intro us rest hus hnext
  obtain ⟨p, us', rfl, hus'⟩ := tokens_eq_cons hus
  rw [cons_append, dottedName_cons, moreSegments_append hus' hnext]

theorem accepts_annotationsWithin (h : Annotations src.tbl src.scope ms marks)
    (hfuel : ms.length ≤ fuel) :
    Accepts (annotationsWithin src fuel) ms marks fun next =>
      next ≠ some (.mark '@') ∧ next ≠ some (.mark '.') := by
  induction h generalizing fuel with
  | none =>
    cases fuel with
    | zero => exact .pure
    | succ fuel => exact .nextIs (fun _ hnext => hnext.1) .pure
  | @more first more c ts marks hname hkind hmarks ih =>
    simp only [length_cons, length_append] at hfuel
    obtain ⟨fuel, rfl⟩ : ∃ k, fuel = k + 1 := ⟨fuel - 1, by omega⟩
    refine .ifNext ((accepts_dottedName first more).bind (.lift hname ?_) fun next hnext => ?_)
    · simp only [hkind, beq_self_eq_true, if_true]
      exact (ih (by omega)).map
    · cases hmarks with
      | none => exact hnext.2
      | more => nofun

theorem accepts_readAnnotations (h : Annotations src.tbl src.scope ms marks) :
    Accepts (readAnnotations src) ms marks fun next =>
      next ≠ some (.mark '@') ∧ next ≠ some (.mark '.') :=
  .get fun _ hfuel => accepts_annotationsWithin h hfuel

theorem accepts_readArrayMarks {e'} (h : ArrayMarks e ts e') :
    Accepts (readArrayMarks src e) ts e' fun next =>
      next ≠ some (.mark '[') ∧ next ≠ some .ellipsis := by
  induction h with
  | none =>
    intro us rest hus hnext
    cases map_eq_nil_iff.mp hus
    rw [nil_append, readArrayMarks]
    · rintro p after rfl
      exact hnext.2 rfl
    · rintro p q after rfl
      exact hnext.1 rfl
    · rintro p after rfl
      exact hnext.1 rfl
  | brackets _ ih =>
    intro us rest hus hnext
    obtain ⟨p, us', rfl, hus'⟩ := tokens_eq_cons hus
    obtain ⟨q, vs, rfl, hvs⟩ := tokens_eq_cons hus'
    simpa only [cons_append, readArrayMarks] using ih vs rest hvs hnext
  | ellipsis _ ih =>
    intro us rest hus hnext
    obtain ⟨p, vs, rfl, hvs⟩ := tokens_eq_cons hus
    simpa only [cons_append, readArrayMarks] using ih vs rest hvs hnext

section

variable {type : Reading Expr} {n : Nat} {F : Option Token → Prop}

/-- The reading of nested types of at most `n` tokens. -/
def AcceptsTypes (src : Source) (n : Nat) (type : Reading Expr) : Prop :=
  ∀ ts e, ts.length ≤ n → Proper src.tbl.words ts → IsType src.tbl src.scope ts e →
    Accepts type ts e fun next => next ≠ some (.mark '.') ∧ next ≠ some (.mark '<') ∧
      next ≠ some (.mark '[') ∧ next ≠ some .ellipsis

/-- A type begins with annotations and an identifier. -/
theorem IsType.exists_front (h : IsType src.tbl src.scope ts e) :
    ∃ ms marks name us, ts = ms ++ .identifier name :: us ∧
      Annotations src.tbl src.scope ms marks := by
  cases h with
  | intro hmarks href =>
    obtain ⟨name, us, rfl⟩ := href.exists_head
    exact ⟨_, _, name, _, rfl, hmarks⟩

theorem accepts_readWildcard_none (hF : ∀ next, F next → ∀ name, next ≠ some (.identifier name)) :
    Accepts (readWildcard type marks) [] (.wildcard [] [] marks) F := by
  intro us rest hus hnext
  have hname := hF _ hnext
  cases map_eq_nil_iff.mp hus
  rw [nil_append, readWildcard_eq, ← head?_map]
  generalize (tokens rest).head? = token? at hname
  split
  · exact absurd rfl (hname _)
  · exact absurd rfl (hname _)
  · rfl

theorem accepts_readWildcard_upper (h : Accepts type ts e F) :
    Accepts (readWildcard type marks) (.identifier "extends" :: ts) (.wildcard [e] [] marks) F := by
  intro us rest hus hnext
  obtain ⟨p, us', rfl, hus'⟩ := tokens_eq_cons hus
  exact h.map (g := fun e => Expr.wildcard [e] [] marks) us' rest hus' hnext

theorem accepts_readWildcard_lower (h : Accepts type ts e F) :
    Accepts (readWildcard type marks) (.identifier "super" :: ts) (.wildcard [] [e] marks) F := by
  intro us rest hus hnext
  obtain ⟨p, us', rfl, hus'⟩ := tokens_eq_cons hus
  exact h.map (g := fun e => Expr.wildcard [] [e] marks) us' rest hus' hnext

theorem accepts_readArgument (htype : AcceptsTypes src n type)
    (h : Grammar.Argument src.tbl src.scope (IsType src.tbl src.scope) ts e) (hn : ts.length ≤ n)
    (hts : Proper src.tbl.words ts) :
    Accepts (readArgument src type) ts e fun next =>
      next = some (.mark ',') ∨ next = some (.mark '>') := by
  have hread {ts e} (hn : ts.length ≤ n) (hts : Proper src.tbl.words ts)
      (h : IsType src.tbl src.scope ts e) :
      Accepts type ts e fun next => next = some (.mark ',') ∨ next = some (.mark '>') :=
    (htype ts e hn hts h).mono fun next hnext => by rcases hnext with rfl | rfl <;> decide
  have hwildcard {ms marks ts e} (hmarks : Annotations src.tbl src.scope ms marks)
      (h : Accepts (readWildcard type marks) ts e fun next =>
        next = some (.mark ',') ∨ next = some (.mark '>')) :
      Accepts (readArgument src type) (ms ++ .mark '?' :: ts) e fun next =>
        next = some (.mark ',') ∨ next = some (.mark '>') :=
    .get fun _ _ => (accepts_readAnnotations hmarks).bind (.ifNext h) fun _ _ => ⟨nofun, nofun⟩
  cases h with
  | type h =>
    intro us rest hus hnext
    have hread := hread hn hts h us rest hus hnext
    obtain ⟨ms, marks, name, vs, rfl, hmarks⟩ := IsType.exists_front h
    obtain ⟨us₁, us₂, rfl, hus₁, hus₂⟩ := tokens_eq_append hus
    obtain ⟨p, us₃, rfl, -⟩ := tokens_eq_cons hus₂
    rw [append_assoc] at hread ⊢
    rw [readArgument_of_type (accepts_readAnnotations hmarks us₁ _ hus₁
      ⟨by rintro ⟨⟩, by rintro ⟨⟩⟩) (by rintro ⟨⟩), hread]
  | unbounded hmarks =>
    refine hwildcard hmarks (accepts_readWildcard_none fun next hnext name => ?_)
    rcases hnext with rfl | rfl <;> nofun
  | upper hmarks h =>
    simp only [length_append, length_cons] at hn
    exact hwildcard hmarks (accepts_readWildcard_upper (hread (by omega) hts.right.tail.tail h))
  | lower hmarks h =>
    simp only [length_append, length_cons] at hn
    exact hwildcard hmarks (accepts_readWildcard_lower (hread (by omega) hts.right.tail.tail h))

theorem accepts_moreArguments (htype : AcceptsTypes src n type) {es}
    (h : Further src.tbl src.scope (IsType src.tbl src.scope) ts es) (hn : ts.length ≤ n + 1)
    (hts : Proper src.tbl.words ts) (hfuel : ts.length ≤ fuel) :
    Accepts (moreArguments src type fuel) ts es fun next => next = some (.mark '>') := by
  induction h generalizing fuel with
  | none =>
    cases fuel with
    | zero => exact .pure
    | succ fuel => exact .nextIs (fun next hnext => by rw [hnext]; decide) .pure
  | more harg hmore ih =>
    simp only [length_cons, length_append] at hn hfuel
    obtain ⟨fuel, rfl⟩ : ∃ k, fuel = k + 1 := ⟨fuel - 1, by omega⟩
    refine .ifNext ((accepts_readArgument htype harg (by omega) hts.tail.left).bind
      (ih (by omega) hts.tail.right (by omega)).map fun next hnext => ?_)
    rw [hnext]
    exact hmore.head?_or

theorem accepts_readArguments (htype : AcceptsTypes src n type) {es}
    (hfirst : Grammar.Argument src.tbl src.scope (IsType src.tbl src.scope) ts e)
    (hmore : Further src.tbl src.scope (IsType src.tbl src.scope) us es)
    (hn : (ts ++ us).length ≤ n) (hts : Proper src.tbl.words (ts ++ us)) :
    Accepts (readArguments src type) (ts ++ us ++ [.mark '>']) (e :: es) fun _ => True := by
  rw [length_append] at hn
  rw [append_assoc]
  refine (accepts_readArgument htype hfirst (by omega) hts.left).bind (.get fun ls hls =>
    (accepts_moreArguments htype hmore (by omega) hts.right ?_).bind (accepts_expect '>').map
      fun _ _ => rfl) fun next _ => ?_
  · rw [length_append] at hls
    exact Nat.le_of_add_right_le hls
  · rw [head?_append, Option.or_assoc]
    exact hmore.head?_or

theorem readApplied_cons {args} (h : readArguments src type ls = .ok (args, rest))
    (hprimitive : (src.tbl.cls c).isPrimitive = false)
    (hcount : args.length = (src.tbl.cls c).typeParameters.length) :
    readApplied src type c owner (⟨.mark '<', p⟩ :: ls) = .ok (classUse c args owner, rest) := by
  change (readArguments src type >>= fun args =>
    if (src.tbl.cls c).isPrimitive = true then
      failAt src (.parameterizedPrimitive (src.tbl.cls c).name) p
    else if args.length ≠ (src.tbl.cls c).typeParameters.length then
      failAt src (.argumentCount (src.tbl.cls c).name (src.tbl.cls c).typeParameters.length
        args.length) p
    else pure (classUse c args owner)) ls = _
  rw [bind_of_ok h]
  simp only [hprimitive, hcount, Bool.false_eq_true, if_false, ne_eq, not_true_eq_false]
  rfl

theorem accepts_readApplied (htype : AcceptsTypes src n type)
    (h : Use src.tbl src.scope (IsType src.tbl src.scope) ts c owner e) (hn : ts.length ≤ n + 1)
    (hts : Proper src.tbl.words ts) :
    Accepts (readApplied src type c owner) ts e fun next => next ≠ some (.mark '<') := by
  intro us rest hus hnext
  cases h with
  | plain =>
    cases map_eq_nil_iff.mp hus
    rw [nil_append, readApplied, get_bind]
    split
    · exact absurd rfl hnext
    · rfl
  | @applied _ _ ts e vs es hprimitive hcount hfirst hmore =>
    obtain ⟨p, us', rfl, hus'⟩ := tokens_eq_cons hus
    have hn' : (ts ++ vs).length ≤ n := by
      simp only [length_cons, length_append] at hn ⊢
      omega
    have hread := accepts_readArguments htype hfirst hmore hn' hts.tail.left us' rest hus' trivial
    exact readApplied_cons hread hprimitive hcount

theorem accepts_readMembers (htype : AcceptsTypes src n type) {e'}
    (h : Members src.tbl src.scope (IsType src.tbl src.scope) c e ts e') (hn : ts.length ≤ n + 1)
    (hts : Proper src.tbl.words ts) (hfuel : ts.length ≤ fuel) :
    Accepts (readMembers src type fuel c e) ts e' fun next =>
      next ≠ some (.mark '.') ∧ next ≠ some (.mark '<') := by
  induction h generalizing fuel with
  | none =>
    cases fuel with
    | zero => exact .pure
    | succ fuel => exact .nextIs (fun _ hnext => hnext.1) .pure
  | @more c e name m ts e' vs e'' hmember huse hmore ih =>
    simp only [length_cons, length_append] at hn hfuel
    obtain ⟨fuel, rfl⟩ : ∃ k, fuel = k + 1 := ⟨fuel - 1, by omega⟩
    exact .ifNext ((accepts_identifier name).bind (.lift hmember
      ((accepts_readApplied htype huse (by omega) hts.tail.tail.left).bind
        (ih (by omega) hts.tail.tail.right (by omega)) hmore.head?_ne)) fun _ _ => trivial)

theorem accepts_readReference (htype : AcceptsTypes src n type)
    (h : Reference src.tbl src.scope (IsType src.tbl src.scope) ts e) (hn : ts.length ≤ n + 1)
    (hts : Proper src.tbl.words ts) :
    Accepts (readReference src type) ts e fun next =>
      next ≠ some (.mark '.') ∧ next ≠ some (.mark '<') := by
  cases h with
  | @var name v hvariable =>
    have hscoped : scopedVariable? src [name] = some v := hvariable
    refine .get fun _ _ => (accepts_dottedName name []).bind ?_ fun _ hnext => hnext.1
    simp only [hscoped]
    exact .nextIs (fun _ hnext => hnext.2) (.nextIs (fun _ hnext => hnext.1) .pure)
  | @cls first more c ts e vs e' hvariable hname hlongest huse hmembers =>
    simp only [length_append] at hn
    have hscoped : scopedVariable? src (first :: more) = none := by
      cases more with
      | nil => exact hvariable rfl
      | cons => rfl
    refine .get fun ls _ => (accepts_dottedName first more).bind ?_ fun next hnext => ?_
    · simp only [hscoped]
      exact .lift hname ((accepts_readApplied htype huse (by omega) hts.right.left).bind
        (.get fun _ hfuel => accepts_readMembers htype hmembers (by omega) hts.right.right hfuel)
        hmembers.head?_ne)
    · cases huse with
      | plain =>
        cases Reference.nil_of_use_nil hts hname hlongest hmembers
        exact hnext.1
      | applied => nofun

theorem acceptsTypes_readType (n : Nat) : AcceptsTypes src n (readType src (n + 1)) := by
  induction n with
  | zero =>
    intro ts e hn hts h
    obtain ⟨ms, marks, name, us, rfl, -⟩ := IsType.exists_front h
    simp at hn
  | succ n ih =>
    intro ts e hn hts h
    cases h with
    | intro hmarks href harrays =>
      simp only [length_append] at hn
      refine (accepts_readAnnotations hmarks).bind
        ((accepts_readReference ih href (by omega) hts.right.left).bind
          ((accepts_readArrayMarks harrays).mono fun _ hnext => hnext.2.2) fun next hnext => ?_)
        fun next _ => ?_
      · cases harrays with
        | none => exact ⟨hnext.1, hnext.2.1⟩
        | brackets => exact ⟨nofun, nofun⟩
        | ellipsis => exact ⟨nofun, nofun⟩
      · obtain ⟨name, us, rfl⟩ := href.exists_head
        exact ⟨nofun, nofun⟩

end

/-! ### Whole texts -/

section

variable {tbl : Table} {scope : Scope} {text : String}

theorem tokenize_eq_ok (h : tokenize tbl.words text = .ok lexemes) :
    Spells tbl.words text.toList (tokens lexemes) ∧ ∀ l ∈ lexemes, l.position ≤ text.length := by
  rw [tokenize] at h
  cases hscan : scan tbl.words text.length text.toList 0 with
  | error _ =>
    rw [hscan] at h
    cases h
  | ok found =>
    rw [hscan] at h
    cases h
    obtain ⟨hspells, hpositions⟩ := spells_of_scan (Nat.le_of_eq String.length_toList) hscan
    refine ⟨hspells, fun l hl => ?_⟩
    have := (hpositions l hl).2
    rwa [Nat.zero_add, String.length_toList] at this

theorem exists_tokenize (h : Spells tbl.words text.toList ts) :
    ∃ lexemes, tokenize tbl.words text = .ok lexemes ∧ tokens lexemes = ts := by
  obtain ⟨lexemes, hscan, hts⟩ := exists_scan_of_spells h (Nat.le_of_eq String.length_toList) 0
  refine ⟨lexemes, ?_, hts⟩
  rw [tokenize, hscan]

/-- A text that is read to its end. -/
theorem parseType_of_read (htokenize : tokenize tbl.words text = .ok lexemes)
    (hread : readType ⟨tbl, scope, text⟩ (lexemes.length + 1) lexemes = .ok (e, [])) :
    parseType tbl scope text = .ok e := by
  simp only [parseType, readWhole, htokenize]
  change (readType ⟨tbl, scope, text⟩ (lexemes.length + 1) lexemes >>= _) = _
  rw [hread]
  rfl

/-- What reading a whole text can come to. -/
theorem parseType_cases (hscope : Scope.NamesClasses tbl scope) (text : String) :
    (∃ ts e, parseType tbl scope text = .ok e ∧ Spells tbl.words text.toList ts ∧
      IsType tbl scope ts e) ∨
    ∃ fault position, parseType tbl scope text = .error (.signature fault text position) ∧
        position ≤ text.length := by
  let src : Source := ⟨tbl, scope, text⟩
  cases htokenize : tokenize tbl.words text with
  | error err =>
    right
    have hparse : parseType tbl scope text = .error err := by
      simp only [parseType, readWhole, htokenize]
      rfl
    rw [tokenize] at htokenize
    cases hscan : scan tbl.words text.length text.toList 0 with
    | ok _ =>
      rw [hscan] at htokenize
      cases htokenize
    | error position =>
      rw [hscan] at htokenize
      cases htokenize
      have hposition := position_le_of_scan_error hscan
      rw [Nat.zero_add, String.length_toList] at hposition
      exact ⟨_, position, hparse, hposition⟩
  | ok lexemes =>
    obtain ⟨hspells, hplaced⟩ := tokenize_eq_ok htokenize
    have houtcome : Outcome src lexemes (IsType tbl scope)
        (readType src (lexemes.length + 1) lexemes) :=
      outcome_readType hscope lexemes.length lexemes hplaced (Nat.le_refl _)
    cases hread : readType src (lexemes.length + 1) lexemes with
    | error err =>
      right
      rw [hread] at houtcome
      cases houtcome with
      | failed h =>
        obtain ⟨fault, position, rfl, hposition⟩ := h
        refine ⟨fault, position, ?_, hposition⟩
        simp only [parseType, readWhole, htokenize]
        change (readType src (lexemes.length + 1) lexemes >>= _) = _
        rw [hread]
        rfl
    | ok x =>
      obtain ⟨e, rest⟩ := x
      rw [hread] at houtcome
      cases houtcome with
      | read us hus h =>
        cases rest with
        | nil =>
          rw [append_nil] at hus
          subst hus
          exact .inl ⟨_, e, parseType_of_read htokenize hread, hspells, h⟩
        | cons next rest =>
          right
          have hnext : next ∈ lexemes := hus ▸ mem_append_right us mem_cons_self
          refine ⟨.trailingText, next.position, ?_, hplaced next hnext⟩
          simp only [parseType, readWhole, htokenize]
          change (readType src (lexemes.length + 1) lexemes >>= _) = _
          rw [hread]
          rfl

/-- A text whose tokens stand for an expression is read as this expression. -/
theorem parseType_of_isType (hspells : Spells tbl.words text.toList ts)
    (h : IsType tbl scope ts e) : parseType tbl scope text = .ok e := by
  obtain ⟨lexemes, htokenize, rfl⟩ := exists_tokenize hspells
  refine parseType_of_read htokenize ?_
  have hlength : (tokens lexemes).length ≤ lexemes.length := Nat.le_of_eq (length_map _)
  have hproper : Proper tbl.words (tokens lexemes) := fun name hname => hspells.isIdentifier hname
  have haccepts : AcceptsTypes ⟨tbl, scope, text⟩ lexemes.length
      (readType ⟨tbl, scope, text⟩ (lexemes.length + 1)) := acceptsTypes_readType lexemes.length
  have hread := haccepts _ e hlength hproper h lexemes [] rfl
    ⟨by rintro ⟨⟩, by rintro ⟨⟩, by rintro ⟨⟩, by rintro ⟨⟩⟩
  rwa [append_nil] at hread

end

end NominalTypes.Signature
