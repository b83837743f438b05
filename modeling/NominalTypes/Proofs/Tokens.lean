import NominalTypes.Signature.Token
import Mathlib

/-!
# The tokens of a text

`Spells` says which tokens a text consists of: white space may stand before, between and after the
tokens, an identifier is as long as possible, and three dots in a row are one token. The scanner
finds exactly these tokens, so a text has at most one sequence of them.
-/

namespace NominalTypes.Signature

open List

open Text

/-- The characters of a token. -/
def Token.chars : Token → List Char
  | .identifier name => name.toList
  | .ellipsis => ['.', '.', '.']
  | .mark c => [c]

variable (words : WordClass)

/-- Whether a text is an identifier. -/
def IsIdentifier (name : String) : Prop :=
  ∃ c cs, name.toList = c :: cs ∧ isIdentifierStart c = true ∧
    ∀ d ∈ cs, isIdentifierPart words d = true

/-- The token ends where the given text begins: it could not be longer. -/
inductive Stands : Token → List Char → Prop
  | identifier {name after} (hname : IsIdentifier words name)
      (hafter : ∀ d ∈ after.head?, isIdentifierPart words d = false) :
      Stands (.identifier name) after
  | ellipsis {after} : Stands .ellipsis after
  | mark {c after} (hc : c ∈ punctuation) (hdots : c = '.' → ¬ ['.', '.'] <+: after) :
      Stands (.mark c) after

/-- The text consists of the given tokens and of white space. -/
inductive Spells : List Char → List Token → Prop
  | blank {cs} (hblank : ∀ c ∈ cs, isBlank c = true) : Spells cs []
  | token {gap token after ts} (hgap : ∀ c ∈ gap, isBlank c = true)
    (htoken : Stands words token after)
      (hafter : Spells after ts) : Spells (gap ++ (token.chars ++ after)) (token :: ts)

variable {words}

/-! ### Characters -/

theorem toNat_of_isIdentifierStart {c} (h : isIdentifierStart c = true) :
    c.toNat = 36 ∨ 65 ≤ c.toNat ∧ c.toNat < 133 := by
  simp only [isIdentifierStart, Char.isAlpha, Char.isUpper, Char.isLower, Bool.or_eq_true,
    Bool.and_eq_true, decide_eq_true_eq, beq_iff_eq] at h
  rcases h with ((⟨h₁, h₂⟩ | ⟨h₁, h₂⟩) | rfl) | rfl
  · right
    have h₁ : 65 ≤ c.toNat := h₁
    have h₂ : c.toNat ≤ 90 := h₂
    omega
  · right
    have h₁ : 97 ≤ c.toNat := h₁
    have h₂ : c.toNat ≤ 122 := h₂
    omega
  · exact .inr (by decide)
  · exact .inl (by decide)

theorem isBlank_of_isIdentifierStart {c} (h : isIdentifierStart c = true) :
    isBlank c = false := by
  have hc := toNat_of_isIdentifierStart h
  -- Of the boundaries, exactly the first four lie at or before the character.
  have hle : ∀ n ∈ [9, 14, 28, 33], decide (n ≤ c.toNat) = true := by
    simp only [mem_cons, not_mem_nil, or_false, decide_eq_true_eq]
    omega
  have hgt : decide (0x85 ≤ c.toNat) = false := by
    simp only [decide_eq_false_iff_not]
    omega
  have hsplit : blanks.boundaries = [9, 14, 28, 33] ++ blanks.boundaries.drop 4 := rfl
  rw [isBlank, CodeSet.contains, hsplit, takeWhile_append_of_pos hle]
  simp [blanks, hgt]

theorem isBlank_of_mem_punctuation {c} (h : c ∈ punctuation) : isBlank c = false := by
  have hall : (punctuation.all fun d => !isBlank d) = true := by decide
  simpa using all_eq_true.mp hall c h

theorem isIdentifierStart_of_mem_punctuation {c} (h : c ∈ punctuation) :
    isIdentifierStart c = false := by
  have hall : (punctuation.all fun d => !isIdentifierStart d) = true := by decide
  simpa using all_eq_true.mp hall c h

theorem isIdentifierPart_dot : isIdentifierPart words '.' = false := by
  have hdot : words.contains '.' = false := words.ascii 46 (by decide)
  rw [isIdentifierPart, hdot]
  rfl

theorem IsIdentifier.dot_notMem {name} (h : IsIdentifier words name) : '.' ∉ name.toList := by
  obtain ⟨c, cs, hname, hc, hcs⟩ := h
  rw [hname]
  intro hdot
  rcases mem_cons.mp hdot with rfl | hdot
  · exact absurd hc (by decide)
  · exact absurd (hcs _ hdot) (by rw [isIdentifierPart_dot]; decide)

theorem IsIdentifier.ne_empty {name} (h : IsIdentifier words name) : name ≠ "" := by
  rintro rfl
  obtain ⟨c, cs, hname, -⟩ := h
  cases hname

/-- A token does not begin with white space. -/
theorem Stands.exists_head {token after} (h : Stands words token after) :
    ∃ c cs, token.chars = c :: cs ∧ isBlank c = false := by
  cases h with
  | identifier hname =>
    obtain ⟨c, cs, hname, hc, -⟩ := hname
    exact ⟨c, cs, hname, isBlank_of_isIdentifierStart hc⟩
  | ellipsis => exact ⟨'.', ['.', '.'], rfl, by decide⟩
  | mark hc => exact ⟨_, [], rfl, isBlank_of_mem_punctuation hc⟩

/-! ### One token -/

theorem nextToken?_chars {token after} (h : Stands words token after) :
    nextToken? words (token.chars ++ after) = some (token, after) := by
  cases h with
  | @identifier name _ hname hafter =>
    obtain ⟨c, cs, hname, hc, hcs⟩ := hname
    have hdot : c ≠ '.' := by
      rintro rfl
      exact absurd hc (by decide)
    have htake : (cs ++ after).takeWhile (isIdentifierPart words) = cs := by
      rw [takeWhile_append_of_pos hcs]
      cases after with
      | nil => simp
      | cons d after => simp [hafter d rfl]
    have hdrop : (cs ++ after).dropWhile (isIdentifierPart words) = after := by
      rw [dropWhile_append_of_pos hcs]
      cases after with
      | nil => simp
      | cons d after => simp [hafter d rfl]
    have hofList : String.ofList (c :: cs) = name := by rw [← hname, String.ofList_toList]
    rw [Token.chars, hname, cons_append, nextToken?]
    · rw [if_pos hc, htake, hdrop, hofList]
    · rintro rest rfl
      exact absurd rfl hdot
  | ellipsis => rfl
  | @mark c _ hc hdots =>
    have hstart := isIdentifierStart_of_mem_punctuation hc
    rw [Token.chars, singleton_append, nextToken?]
    · simp [hstart, hc]
    · rintro rest rfl rfl
      exact hdots rfl ⟨rest, rfl⟩

theorem stands_of_nextToken? {cs after token} (h : nextToken? words cs = some (token, after)) :
    cs = token.chars ++ after ∧ Stands words token after := by
  unfold nextToken? at h
  split at h
  · cases h
    exact ⟨rfl, .ellipsis⟩
  · rename_i c rest hdots
    split_ifs at h with hc hmark
    · cases h
      refine ⟨?_, .identifier ⟨c, _, String.toList_ofList, hc, fun d hd => ?_⟩ fun d hd => ?_⟩
      · simp [Token.chars, takeWhile_append_dropWhile]
      · exact mem_takeWhile_imp hd
      · have hne : rest.dropWhile (isIdentifierPart words) ≠ [] := by
          intro hnil
          rw [hnil] at hd
          cases hd
        have hhead := head_dropWhile_not (isIdentifierPart words) hne
        rw [head?_eq_some_head hne, Option.mem_def, Option.some.injEq] at hd
        rw [← hd, hhead]
    · cases h
      refine ⟨rfl, .mark hmark ?_⟩
      rintro rfl ⟨more, rfl⟩
      exact hdots more rfl rfl
  · cases h

theorem Stands.length_lt {token after} (h : Stands words token after) :
    after.length < (token.chars ++ after).length := by
  obtain ⟨c, cs, hchars, -⟩ := h.exists_head
  rw [hchars, length_append, length_cons]
  omega

/-! ### The scanner -/

theorem trimStart_append {gap cs} (hgap : ∀ c ∈ gap, isBlank c = true) :
    trimStart (gap ++ cs) = trimStart cs :=
  dropWhile_append_of_pos hgap

/-- The scanner finds the tokens of a text. -/
theorem exists_scan_of_spells {cs ts} (h : Spells words cs ts) {fuel} (hfuel : cs.length ≤ fuel)
    (position : Nat) :
    ∃ lexemes, scan words fuel cs position = .ok lexemes ∧ lexemes.map (·.token) = ts := by
  induction h generalizing fuel position with
  | @blank cs hblank =>
    refine ⟨[], ?_, rfl⟩
    have htrim : trimStart cs = [] := dropWhile_eq_nil_iff.mpr hblank
    cases fuel with
    | zero => rfl
    | succ fuel => simp only [scan, htrim]
  | @token gap token after ts hgap htoken _ ih =>
    obtain ⟨c, cs, hchars, hc⟩ := htoken.exists_head
    have htrim : trimStart (gap ++ (token.chars ++ after)) = c :: (cs ++ after) := by
      rw [trimStart_append hgap, hchars, cons_append, trimStart, dropWhile_cons, hc]
      rfl
    have hnext : nextToken? words (c :: (cs ++ after)) = some (token, after) := by
      rw [← cons_append, ← hchars]
      exact nextToken?_chars htoken
    have hlength := htoken.length_lt
    obtain ⟨fuel, rfl⟩ : ∃ k, fuel = k + 1 := by
      rw [length_append] at hfuel
      exact ⟨fuel - 1, by omega⟩
    have hfuel' : after.length ≤ fuel := by
      rw [length_append] at hfuel
      omega
    let start := position + ((gap ++ (token.chars ++ after)).length - (c :: (cs ++ after)).length)
    obtain ⟨lexemes, hscan, hts⟩ := ih hfuel' (start + ((c :: (cs ++ after)).length - after.length))
    refine ⟨⟨token, start⟩ :: lexemes, ?_, congrArg (token :: ·) hts⟩
    simp only [scan, htrim, hnext]
    rw [hscan]
    rfl

/-- The steps of the scanner: it ends with white space, stops at a character that begins no token,
or goes on after a token. -/
theorem scan_succ (fuel : Nat) (cs : List Char) (position : Nat) :
    ((∀ c ∈ cs, isBlank c = true) ∧ scan words (fuel + 1) cs position = .ok []) ∨
    (∃ start, position ≤ start ∧ start ≤ position + cs.length ∧
      scan words (fuel + 1) cs position = .error start) ∨
    ∃ gap token after start, cs = gap ++ (token.chars ++ after) ∧ (∀ c ∈ gap, isBlank c = true) ∧
      Stands words token after ∧ start = position + gap.length ∧
      scan words (fuel + 1) cs position =
        (scan words fuel after (start + token.chars.length)).map (⟨token, start⟩ :: ·) := by
  cases htrim : trimStart cs with
  | nil => exact .inl ⟨dropWhile_eq_nil_iff.mp htrim, by simp only [scan, htrim]⟩
  | cons c rest =>
    have hsplit : cs.takeWhile isBlank ++ c :: rest = cs := by
      rw [← htrim]
      exact takeWhile_append_dropWhile
    have hlength := congrArg List.length hsplit
    rw [length_append, length_cons] at hlength
    cases hnext : nextToken? words (c :: rest) with
    | none =>
      refine .inr (.inl ⟨position + (cs.length - (c :: rest).length), ?_, ?_, ?_⟩)
      · omega
      · omega
      · simp only [scan, htrim, hnext]
    | some found =>
      obtain ⟨token, after⟩ := found
      obtain ⟨hfront, hstands⟩ := stands_of_nextToken? hnext
      have hfront' := congrArg List.length hfront
      rw [length_append, length_cons] at hfront'
      have hstart : position + (cs.length - (c :: rest).length) =
          position + (cs.takeWhile isBlank).length := by
        rw [length_cons]
        omega
      have hmore : (c :: rest).length - after.length = token.chars.length := by
        rw [length_cons]
        omega
      refine .inr (.inr ⟨cs.takeWhile isBlank, token, after, _, ?_,
        fun c hc => mem_takeWhile_imp hc, hstands, rfl, ?_⟩)
      · rw [← hfront, hsplit]
      · simp only [scan, htrim, hnext, hstart, hmore]
        cases scan words fuel after (position + (cs.takeWhile isBlank).length +
          token.chars.length) <;> rfl

/-- What the scanner returns are the tokens of the text. -/
theorem spells_of_scan {fuel cs position lexemes} (hfuel : cs.length ≤ fuel)
    (h : scan words fuel cs position = .ok lexemes) :
    Spells words cs (lexemes.map (·.token)) ∧
      ∀ l ∈ lexemes, position ≤ l.position ∧ l.position ≤ position + cs.length := by
  induction fuel generalizing cs position lexemes with
  | zero =>
    cases length_eq_zero_iff.mp (Nat.le_zero.mp hfuel)
    cases h
    exact ⟨.blank (by simp), by simp⟩
  | succ fuel ih =>
    rcases scan_succ fuel cs position with ⟨hblank, heq⟩ | ⟨start, -, -, heq⟩ |
      ⟨gap, token, after, start, rfl, hgap, hstands, hstart, heq⟩
    · cases heq.symm.trans h
      exact ⟨.blank hblank, by simp⟩
    · cases heq.symm.trans h
    · rw [heq] at h
      cases hscan : scan words fuel after (start + token.chars.length) with
      | error _ =>
        rw [hscan] at h
        cases h
      | ok more =>
        rw [hscan] at h
        cases h
        have hlt := hstands.length_lt
        simp only [length_append] at hlt hfuel ⊢
        obtain ⟨hmore, hpositions⟩ := ih (by omega) hscan
        refine ⟨.token hgap hstands hmore, fun l hl => ?_⟩
        rcases mem_cons.mp hl with rfl | hl
        · dsimp only
          omega
        · have := hpositions l hl
          omega

/-- The scanner stops at a position of the text. -/
theorem position_le_of_scan_error {fuel cs position stop}
    (h : scan words fuel cs position = .error stop) : stop ≤ position + cs.length := by
  induction fuel generalizing cs position with
  | zero => cases h
  | succ fuel ih =>
    rcases scan_succ fuel cs position with ⟨-, heq⟩ | ⟨start, -, hstart, heq⟩ |
      ⟨gap, token, after, start, rfl, -, -, hstart, heq⟩
    · cases heq.symm.trans h
    · cases heq.symm.trans h
      exact hstart
    · rw [heq] at h
      cases hscan : scan words fuel after (start + token.chars.length) with
      | ok _ =>
        rw [hscan] at h
        cases h
      | error _ =>
        rw [hscan] at h
        cases h
        have := ih hscan
        simp only [length_append]
        omega

/-- The identifiers among the tokens of a text are identifiers. -/
theorem Spells.isIdentifier {cs ts} (h : Spells words cs ts) {name}
    (hname : .identifier name ∈ ts) : IsIdentifier words name := by
  induction h with
  | blank => cases hname
  | token _ htoken _ ih =>
    rcases mem_cons.mp hname with rfl | hname
    · cases htoken
      assumption
    · exact ih hname

end NominalTypes.Signature
