import NominalTypes.Annotation.Constant
import Mathlib

/-!
# Text literals read back

A literal is read in two goes. First an escape `\uXXXX` becomes the UTF-16 unit with that number; it
has to begin with a backslash before which an even number of backslashes stands. Then the escapes
of one letter are replaced, and a quote or a backslash must not be left over.

A literal is written character by character, and each character leaves an even number of
backslashes behind. So reading goes by characters too: whatever follows, a character is read as its
own units.
-/

namespace NominalTypes

open List

namespace Text

/-- The UTF-16 units of a character that is not a stand-in. -/
def scalarUnits (c : Char) : List Nat :=
  if 0xFFFF < c.toNat then [highHalf c.toNat, lowHalf c.toNat] else [c.toNat]

/-- The UTF-16 units of text. -/
def utf16 (s : String) : List Nat :=
  s.toList.flatMap scalarUnits

/-- The number that hexadecimal digits write. -/
def hexNumber? (digits : List Char) : Option Nat :=
  digits.foldlM (fun n c => (hexValue? c).map (16 * n + ·)) 0

theorem hexDigits_succ {width n : Nat} (hwidth : 0 < width) :
    hexDigits (width + 1) n = hexDigits width (n / 16) ++ [(n % 16).digitChar] := by
  by_cases hn : n < 16
  · rw [Nat.div_eq_of_lt hn, Nat.mod_eq_of_lt hn, hexDigits, hexDigits, Nat.toDigits_of_lt_base hn,
      Nat.toDigits_zero, ← replicate_succ']
    congr 2
    simp only [length_singleton]
    omega
  · rw [hexDigits, hexDigits, Nat.toDigits_of_base_le (by decide) (Nat.le_of_not_lt hn),
      length_append, length_singleton, Nat.add_sub_add_right, append_assoc]

theorem hexDigits_four {n : Nat} (hn : n < 0x10000) :
    ∃ a < 16, ∃ b < 16, ∃ c < 16, ∃ d < 16, n = 16 * (16 * (16 * a + b) + c) + d ∧
      hexDigits 4 n = [a.digitChar, b.digitChar, c.digitChar, d.digitChar] := by
  refine ⟨n / 16 / 16 / 16, by omega, n / 16 / 16 % 16, by omega, n / 16 % 16, by omega, n % 16,
    by omega, by omega, ?_⟩
  have hone : hexDigits 1 (n / 16 / 16 / 16) = [(n / 16 / 16 / 16).digitChar] := by
    rw [hexDigits, Nat.toDigits_of_lt_base (by omega)]
    rfl
  rw [hexDigits_succ (by decide), hexDigits_succ (by decide), hexDigits_succ (by decide), hone]
  rfl

theorem digitChar_spec {k : Nat} (hk : k < 16) :
    hexValue? k.digitChar = some k ∧ 32 ≤ k.digitChar.toNat ∧ k.digitChar.toNat ≤ 126 := by
  interval_cases k <;> decide

theorem hexNumber?_hexDigits {n : Nat} (hn : n < 0x10000) :
    hexNumber? (hexDigits 4 n) = some n := by
  obtain ⟨a, ha, b, hb, c, hc, d, hd, rfl, hdigits⟩ := hexDigits_four hn
  simp [hdigits, hexNumber?, foldlM, digitChar_spec, ha, hb, hc, hd]

end Text

namespace Literal

/-- The units of source text in which escapes by number are replaced; `odd` says whether an odd
number of backslashes stands right before. -/
def readNumbered : Bool → List Char → Option (List Nat)
  | _, [] => some []
  | false, '\\' :: 'u' :: a :: b :: c :: d :: rest => do
    let n ← Text.hexNumber? [a, b, c, d]
    return n :: (← readNumbered false rest)
  | false, '\\' :: 'u' :: _ => none
  | odd, c :: rest => do return c.toNat :: (← readNumbered (c = '\\' && !odd) rest)

/-- The unit that an escape of one letter stands for. -/
def escaped? : Nat → Option Nat
  | 98 => some 8
  | 116 => some 9
  | 110 => some 10
  | 102 => some 12
  | 114 => some 13
  | 34 => some 34
  | 92 => some 92
  | _ => none

/-- The units between the quotes of a literal with escapes of one letter replaced. -/
def readLettered : List Nat → Option (List Nat)
  | [] => some []
  | 92 :: n :: rest => do return (← escaped? n) :: (← readLettered rest)
  | n :: rest => if n = 92 ∨ n = 34 then none else do return n :: (← readLettered rest)

/-- The UTF-16 units that a literal stands for. -/
def read (literal : String) : Option (List Nat) :=
  match literal.toList with
  | '"' :: rest =>
    if rest.getLast? = some '"' then (readNumbered false rest.dropLast).bind readLettered else none
  | _ => none

/-! ### Characters -/

theorem isHalf_iff {u : Nat} : Text.isHalf u = true ↔ 0xd800 ≤ u ∧ u < 0xe000 := by
  simp only [Text.isHalf, Text.isHigh, Text.isLow, Bool.or_eq_true, Bool.and_eq_true,
    decide_eq_true_eq]
  omega

/-- A character counts as itself, or it stands for a half, which is a unit. -/
theorem utf16Units_cases (c : Char) :
    utf16Units c = Text.scalarUnits c ∧ Text.isHalf (Text.code c) = false ∨
      utf16Units c = [Text.code c] ∧ Text.isHalf (Text.code c) = true ∧
        c.toNat = 0x100000 + Text.code c := by
  have hvalid : c.toNat < 0xd800 ∨ 0xdfff < c.toNat ∧ c.toNat < 0x110000 := c.valid
  by_cases h : Text.isHalf (c.toNat - 0x100000) = true
  · have hcode : Text.code c = c.toNat - 0x100000 := by simp only [Text.code, h, if_true]
    have hbounds := isHalf_iff.mp h
    refine .inr ⟨?_, by rw [hcode, h], by omega⟩
    simp only [utf16Units, gt_iff_lt]
    rw [if_neg (by omega)]
  · have hcode : Text.code c = c.toNat := by
      simp only [Text.code, h, if_false, Bool.false_eq_true]
    refine .inl ⟨by simp only [utf16Units, hcode, gt_iff_lt, Text.scalarUnits], ?_⟩
    rw [hcode, ← Bool.not_eq_true, isHalf_iff]
    omega

theorem unit_bounds {c : Char} (hc : ¬(31 < c.toNat ∧ c.toNat < 127)) :
    ∀ n ∈ utf16Units c, n < 0x10000 ∧ n ≠ 34 ∧ n ≠ 92 := by
  have hvalid : c.toNat < 0xd800 ∨ 0xdfff < c.toNat ∧ c.toNat < 0x110000 := c.valid
  rcases utf16Units_cases c with ⟨hunits, -⟩ | ⟨hunits, hhalf, -⟩
  · rw [hunits, Text.scalarUnits]
    split_ifs with h
    · simp only [mem_cons, not_mem_nil, or_false, Text.highHalf, Text.lowHalf]
      rintro n (h | h) <;> omega
    · simp only [mem_singleton]
      omega
  · have hbounds := isHalf_iff.mp hhalf
    rw [hunits]
    simp only [mem_singleton]
    omega

/-- How a character is written: as an escape of one letter, as itself, or by the numbers of its
units. -/
theorem literalChar_cases (c : Char) :
    (∃ l : Char, literalChar c = ['\\', l] ∧ 32 ≤ l.toNat ∧ l.toNat ≤ 126 ∧ l ≠ 'u' ∧
      escaped? l.toNat = some c.toNat ∧ utf16Units c = [c.toNat]) ∨
    (literalChar c = [c] ∧ 32 ≤ c.toNat ∧ c.toNat ≤ 126 ∧ c.toNat ≠ 34 ∧ c.toNat ≠ 92 ∧
      utf16Units c = [c.toNat]) ∨
    literalChar c = (utf16Units c).flatMap (fun n => '\\' :: 'u' :: Text.hexDigits 4 n) ∧
      ∀ n ∈ utf16Units c, n < 0x10000 ∧ n ≠ 34 ∧ n ≠ 92 := by
  unfold literalChar
  split
  · exact .inl ⟨'b', rfl, by decide⟩
  · exact .inl ⟨'t', rfl, by decide⟩
  · exact .inl ⟨'n', rfl, by decide⟩
  · exact .inl ⟨'f', rfl, by decide⟩
  · exact .inl ⟨'r', rfl, by decide⟩
  · exact .inl ⟨'"', rfl, by decide⟩
  · exact .inl ⟨'\\', rfl, by decide⟩
  · rename_i hquote hbackslash
    split_ifs with h
    · simp only [Bool.and_eq_true, decide_eq_true_eq] at h
      refine .inr (.inl ⟨rfl, by omega, by omega, ?_, ?_, ?_⟩)
      · exact fun heq => hquote (Char.toNat_inj.mp heq)
      · exact fun heq => hbackslash (Char.toNat_inj.mp heq)
      · rcases utf16Units_cases c with ⟨hunits, -⟩ | ⟨-, -, hcode⟩
        · rw [hunits, Text.scalarUnits, if_neg (by omega)]
        · omega
    · exact .inr (.inr ⟨rfl, unit_bounds (by simpa using h)⟩)

/-! ### Reading -/

theorem readNumbered_hexDigits {n : Nat} (hn : n < 0x10000) (rest : List Char) :
    readNumbered false ('\\' :: 'u' :: (Text.hexDigits 4 n ++ rest)) =
      (readNumbered false rest).map (n :: ·) := by
  have hnumber := Text.hexNumber?_hexDigits hn
  obtain ⟨a, -, b, -, c, -, d, -, -, hdigits⟩ := Text.hexDigits_four hn
  rw [hdigits] at hnumber ⊢
  simp only [cons_append, nil_append, readNumbered, hnumber]
  cases readNumbered false rest <;> rfl

/-- What is not an escape by number stands for itself. -/
theorem readNumbered_cons {odd : Bool} {c : Char} {rest : List Char}
    (h : odd = true ∨ c ≠ '\\' ∨ rest.head? ≠ some 'u') :
    readNumbered odd (c :: rest) = (readNumbered (c = '\\' && !odd) rest).map (c.toNat :: ·) := by
  rw [readNumbered]
  · cases readNumbered (c = '\\' && !odd) rest <;> rfl
  · rintro a b c' d rest' rfl rfl rfl
    simp at h
  · rintro rest' rfl rfl rfl
    simp at h

/-- Whatever follows, a written character is read as its units. -/
theorem read_literalChar (c : Char) : ∃ us,
    (∀ rest, readNumbered false (literalChar c ++ rest) = (readNumbered false rest).map (us ++ ·)) ∧
      ∀ more, readLettered (us ++ more) = (readLettered more).map (utf16Units c ++ ·) := by
  rcases literalChar_cases c with ⟨l, hc, -, -, hu, hl, hunits⟩ | ⟨hc, -, -, hquote, hback,
    hunits⟩ | ⟨hc, hunits⟩
  · refine ⟨[92, l.toNat], fun rest => ?_, fun more => ?_⟩
    · rw [hc, cons_append, readNumbered_cons (by simp [hu]), singleton_append,
        show (decide ('\\' = '\\') && !false) = true from rfl, readNumbered_cons (.inl rfl),
        Option.map_map]
      simp [Function.comp_def]
    · simp [readLettered, hl, hunits, Option.map_eq_bind]
  · refine ⟨[c.toNat], fun rest => ?_, fun more => ?_⟩
    · have hne : c ≠ '\\' := by
        rintro rfl
        exact hback rfl
      rw [hc, singleton_append, readNumbered_cons (.inr (.inl hne))]
      simp [hne]
    · rw [hunits, singleton_append, readLettered]
      · simp [hquote, hback, Option.map_eq_bind]
      · rintro n rest h
        exact absurd h hback
  · rw [hc]
    generalize utf16Units c = ns at hunits ⊢
    refine ⟨ns, fun rest => ?_, fun more => ?_⟩
    · induction ns with
      | nil => simp
      | cons n ns ih =>
        rw [forall_mem_cons] at hunits
        rw [flatMap_cons, append_assoc, cons_append, cons_append,
          readNumbered_hexDigits hunits.1.1, ih hunits.2, Option.map_map]
        rfl
    · induction ns with
      | nil => simp
      | cons n ns ih =>
        rw [forall_mem_cons] at hunits
        rw [cons_append, readLettered]
        · simp [hunits.1, ih hunits.2, Option.map_eq_bind, Option.bind_assoc]
        · rintro n rest h
          exact absurd h hunits.1.2.2

theorem read_textLiteral (s : String) :
    read (textLiteral s) = some (s.toList.flatMap utf16Units) := by
  have hbody (cs : List Char) : ∃ us,
      readNumbered false (cs.flatMap literalChar) = some us ∧
        readLettered us = some (cs.flatMap utf16Units) := by
    induction cs with
    | nil => exact ⟨[], rfl, rfl⟩
    | cons c cs ih =>
      obtain ⟨us, hus, hcs⟩ := ih
      obtain ⟨vs, hnumbered, hlettered⟩ := read_literalChar c
      refine ⟨vs ++ us, ?_, ?_⟩
      · rw [flatMap_cons, hnumbered, hus, Option.map_some]
      · rw [hlettered, hcs, Option.map_some, flatMap_cons]
  obtain ⟨us, hus, hcs⟩ := hbody s.toList
  have htext : (textLiteral s).toList = '"' :: (s.toList.flatMap literalChar ++ ['"']) := by
    simp [textLiteral]
  simp [read, htext, hus, hcs]

theorem printable_textLiteral (s : String) :
    ∀ c ∈ (textLiteral s).toList, 32 ≤ c.toNat ∧ c.toNat ≤ 126 := by
  have hchar (c : Char) : ∀ d ∈ literalChar c, 32 ≤ d.toNat ∧ d.toNat ≤ 126 := by
    rcases literalChar_cases c with ⟨l, hc, hl, hl', -⟩ | ⟨hc, hc', hc'', -⟩ | ⟨hc, hunits⟩
    · rw [hc]
      simp [hl, hl']
    · rw [hc]
      simp [hc', hc'']
    · rw [hc]
      intro d hd
      obtain ⟨n, hn, hd⟩ := mem_flatMap.mp hd
      obtain ⟨a, ha, b, hb, c, hc, e, he, -, hdigits⟩ := Text.hexDigits_four (hunits n hn).1
      have hdigit {k : Nat} (hk : k < 16) := (Text.digitChar_spec hk).2
      simp only [hdigits, mem_cons, not_mem_nil, or_false] at hd
      rcases hd with rfl | rfl | rfl | rfl | rfl | rfl
      · decide
      · decide
      · exact hdigit ha
      · exact hdigit hb
      · exact hdigit hc
      · exact hdigit he
  intro c hc
  have htext : (textLiteral s).toList = '"' :: (s.toList.flatMap literalChar ++ ['"']) := by
    simp [textLiteral]
  simp only [htext, mem_cons, mem_append, mem_flatMap, not_mem_nil,
    or_false] at hc
  rcases hc with rfl | ⟨d, -, hd⟩ | rfl
  · decide
  · exact hchar d c hd
  · decide

end Literal

/-! ### Text from outside -/

namespace Text

theorem utf16Units_standIn {u : Nat} (hu : isHalf u = true) : utf16Units (standIn u) = [u] := by
  have hbounds := Literal.isHalf_iff.mp hu
  have hnat : (standIn u).toNat = 0x100000 + u := by
    rw [standIn, Char.toNat_ofNat, if_pos (.inr (by omega))]
  simp only [utf16Units, code, hnat, Nat.add_sub_cancel_left, hu, if_true, gt_iff_lt]
  rw [if_neg (by omega)]

/-- A character in the place of a stand-in has the units that the stand-ins for its halves have. -/
theorem flatMap_utf16Units_fromOutside (s : String) :
    (fromOutside s).toList.flatMap utf16Units = utf16 s := by
  rw [fromOutside, String.toList_ofList, flatMap_assoc, utf16]
  refine flatMap_congr fun c _ => ?_
  rcases Literal.utf16Units_cases c with ⟨hunits, hhalf⟩ | ⟨-, hhalf, hcode⟩
  · simp [hhalf, hunits]
  · have hbounds := Literal.isHalf_iff.mp hhalf
    have hhigh : isHalf (highHalf c.toNat) = true :=
      Literal.isHalf_iff.mpr (by rw [highHalf]; omega)
    have hlow : isHalf (lowHalf c.toNat) = true := Literal.isHalf_iff.mpr (by rw [lowHalf]; omega)
    simp [hhalf, utf16Units_standIn hhigh, utf16Units_standIn hlow, scalarUnits,
      show 65535 < c.toNat by omega]

/-- The first unit tells whether it is half of a pair, and then the second one completes it. -/
theorem scalarUnits_append_inj {c d : Char} {us vs : List Nat}
    (h : scalarUnits c ++ us = scalarUnits d ++ vs) : c = d ∧ us = vs := by
  have hc : c.toNat < 0xd800 ∨ 0xdfff < c.toNat ∧ c.toNat < 0x110000 := c.valid
  have hd : d.toNat < 0xd800 ∨ 0xdfff < d.toNat ∧ d.toNat < 0x110000 := d.valid
  rw [← Char.toNat_inj]
  simp only [scalarUnits, highHalf, lowHalf] at h
  split_ifs at h <;> simp only [cons_append, nil_append, cons.injEq] at h
  · exact ⟨by omega, h.2.2⟩
  · omega
  · omega
  · exact h

theorem utf16_injective : Function.Injective utf16 := by
  intro s s' h
  refine String.toList_inj.mp (?_ : s.toList = s'.toList)
  rw [utf16, utf16] at h
  generalize s.toList = cs, s'.toList = ds at h
  have hne (c : Char) (cs : List Char) : (c :: cs).flatMap scalarUnits ≠ [] := by
    rw [flatMap_cons, scalarUnits]
    split_ifs <;> simp
  induction cs generalizing ds with
  | nil =>
    cases ds with
    | nil => rfl
    | cons d ds => exact absurd h.symm (hne d ds)
  | cons c cs ih =>
    cases ds with
    | nil => exact absurd h (hne c cs)
    | cons d ds =>
      rw [flatMap_cons, flatMap_cons] at h
      obtain ⟨rfl, hrest⟩ := scalarUnits_append_inj h
      rw [ih ds hrest]

end Text

/-- Text from outside is written as a literal in printable ASCII. The literal is read as the UTF-16
units of the text, and so no two texts have the same literal. -/
theorem read_constantLiteral :
    (∀ s, ∃ literal, constantLiteral (.text (Text.fromOutside s)) = .ok literal ∧
      (∀ c ∈ literal.toList, 32 ≤ c.toNat ∧ c.toNat ≤ 126) ∧
      Literal.read literal = some (Text.utf16 s)) ∧
    Function.Injective fun s => constantLiteral (.text (Text.fromOutside s)) := by
  have hread (s : String) :
      Literal.read (textLiteral (Text.fromOutside s)) = some (Text.utf16 s) := by
    rw [Literal.read_textLiteral, Text.flatMap_utf16Units_fromOutside]
  refine ⟨fun s => ⟨_, rfl, Literal.printable_textLiteral _, hread s⟩, fun s s' h => ?_⟩
  have hliteral : textLiteral (Text.fromOutside s) = textLiteral (Text.fromOutside s') :=
    Except.ok.inj h
  have hunits := hread s
  rw [hliteral, hread s'] at hunits
  exact Text.utf16_injective (Option.some.inj hunits).symm

end NominalTypes
