import Comprehend.Text.CharClass

/-! Character classes against each other: the characters that end every word, and the letters and
numerals, none of which is blank. -/
namespace Comprehend.Text

/-- A blank, a bracket, a comma or a colon: it ends whatever word stands before it. -/
def isBreak (c : Char) : Bool :=
  c == ' ' || c == '(' || c == ')' || c == '[' || c == ']' || c == '\x7b' || c == '\x7d' ||
    c == ',' || c == ':'

theorem eq_of_isBreak {c : Char} (h : isBreak c = true) :
    c = ' ' ∨ c = '(' ∨ c = ')' ∨ c = '[' ∨ c = ']' ∨ c = '\x7b' ∨ c = '\x7d' ∨ c = ',' ∨
      c = ':' := by
  simpa [isBreak, or_assoc] using h

/-- A class of characters that none of the break characters belongs to. -/
theorem break_not_mem {p : Char → Bool}
    (h : [' ', '(', ')', '[', ']', '\x7b', '\x7d', ',', ':'].any p = false) {c : Char}
    (hc : isBreak c = true) : p c = false := by
  refine Bool.eq_false_iff.mpr (List.any_eq_false.mp h c ?_)
  simpa using eq_of_isBreak hc

theorem isIdentRest_of_isBreak {c : Char} (hc : isBreak c = true) : isIdentRest c = false :=
  break_not_mem (by decide) hc

def blankIntervals : List (Nat × Nat) :=
  [(0x85, 0x85), (0xa0, 0xa0), (0x1680, 0x1680), (0x2000, 0x200a), (0x2028, 0x2029),
    (0x202f, 0x202f), (0x205f, 0x205f), (0x3000, 0x3000)]

theorem exists_blankInterval {c : Char} (h : isBlank c = true) (hc : 128 ≤ c.toNat) :
    ∃ b ∈ blankIntervals, b.1 ≤ c.toNat ∧ c.toNat ≤ b.2 := by
  simp only [isBlank, Bool.or_eq_true, Bool.and_eq_true, decide_eq_true_eq, beq_iff_eq] at h
  simp only [blankIntervals, List.mem_cons, List.not_mem_nil, or_false, exists_eq_or_imp,
    exists_eq_left]
  omega

def wordIntervals : List (Nat × Nat) :=
  alphabeticIntervals ++ addedAlphabeticIntervals ++ numericIntervals

theorem wordIntervals_not_blank :
    (wordIntervals.all fun i => blankIntervals.all fun b => Nat.blt i.2 b.1 || Nat.blt b.2 i.1) =
      true := by
  decide +kernel

theorem not_within_of_isBlank {c : Char} (h : isBlank c = true) (hc : 128 ≤ c.toNat) :
    within wordIntervals c = false := by
  obtain ⟨b, hb, hlow, hhigh⟩ := exists_blankInterval h hc
  refine List.any_eq_false.mpr fun i hi => ?_
  have hdisjoint := List.all_eq_true.mp (List.all_eq_true.mp wordIntervals_not_blank i hi) b hb
  simp only [Bool.or_eq_true, Nat.blt_eq] at hdisjoint
  simp only [Bool.and_eq_true, decide_eq_true_eq]
  omega

theorem within_append (xs ys : List (Nat × Nat)) (c : Char) :
    within (xs ++ ys) c = (within xs c || within ys c) := by
  simp [within]

theorem isDigit_iff {c : Char} : c.isDigit = true ↔ 48 ≤ c.toNat ∧ c.toNat ≤ 57 := by
  simp [Char.isDigit, UInt32.le_iff_toNat_le]

theorem isAlpha_iff {c : Char} :
    c.isAlpha = true ↔ (65 ≤ c.toNat ∧ c.toNat ≤ 90) ∨ (97 ≤ c.toNat ∧ c.toNat ≤ 122) := by
  change (decide ('A'.val ≤ c.val ∧ c.val ≤ 'Z'.val) ||
    (decide ('a'.val ≤ c.val) && decide (c.val ≤ 'z'.val))) = true ↔ _
  simp [UInt32.le_iff_toNat_le]

/-- A blank of ASCII is no letter, no digit and no underscore. -/
theorem ascii_of_isBlank {c : Char} (h : isBlank c = true) (hc : c.toNat < 128) :
    c.isAlpha = false ∧ c.isDigit = false ∧ c ≠ '_' := by
  simp only [isBlank, Bool.or_eq_true, Bool.and_eq_true, decide_eq_true_eq, beq_iff_eq] at h
  refine ⟨?_, ?_, ?_⟩
  · rw [← Bool.not_eq_true, isAlpha_iff]
    omega
  · rw [← Bool.not_eq_true, isDigit_iff]
    omega
  · rintro rfl
    simp at h

theorem isIdentRest_of_isBlank {c : Char} (h : isBlank c = true) : isIdentRest c = false := by
  by_cases hc : c.toNat < 128
  · obtain ⟨halpha, hdigit, hline⟩ := ascii_of_isBlank h hc
    simp [isIdentRest, isLetter, isNumeral, hc, halpha, hdigit, hline]
  · have hword := not_within_of_isBlank h (by omega)
    simp only [wordIntervals, within_append, Bool.or_eq_false_iff] at hword
    have hline : c ≠ '_' := by
      rintro rfl
      exact hc (by decide)
    simp [isIdentRest, isLetter, isNumeral, hc, hword, hline]

theorem isBlank_of_isIdentRest {c : Char} (h : isIdentRest c = true) : isBlank c = false := by
  cases hb : isBlank c with
  | false => rfl
  | true => simp [isIdentRest_of_isBlank hb] at h

theorem isHexDigit_iff {c : Char} :
    isHexDigit c = true ↔ c.isDigit = true ∨ (97 ≤ c.toNat ∧ c.toNat ≤ 102) ∨
      (65 ≤ c.toNat ∧ c.toNat ≤ 70) := by
  simp [isHexDigit, Char.le_def, UInt32.le_iff_toNat_le, or_assoc]

theorem isIdentRest_of_isHexDigit {c : Char} (h : isHexDigit c = true) : isIdentRest c = true := by
  rw [isHexDigit_iff, isDigit_iff] at h
  have hascii : c.toNat < 128 := by omega
  simp only [isIdentRest, isLetter, isNumeral, hascii, ↓reduceIte, Bool.or_eq_true, isDigit_iff,
    isAlpha_iff]
  omega

end Comprehend.Text
