import Comprehend.Proofs.Characters
import Comprehend.Token.Scan

/-! Single words of the source. How many characters a word takes, and what it is, depends on
nothing behind it, as long as a break or the end of the text stands there. -/
namespace Comprehend.Token

open Text

/-- Nothing follows, or a character that ends every word. -/
def Breaks (rest : List Char) : Prop :=
  ∀ c ∈ rest.head?, isBreak c = true

@[simp] theorem breaks_nil : Breaks [] := by simp [Breaks]

@[simp] theorem breaks_cons {c : Char} {cs : List Char} : Breaks (c :: cs) ↔ isBreak c = true := by
  simp [Breaks]

section

variable {cs rest rest' : List Char}

/-! Runs of characters -/

/-- A run that ends before `rest` ends at the same place before a break. -/
theorem takeWhile_local {p : Char → Bool} (hp : ∀ c, isBreak c = true → p c = false)
    (h : ((cs ++ rest).takeWhile p).length ≤ cs.length) (hb : Breaks rest') :
    (cs ++ rest').takeWhile p = (cs ++ rest).takeWhile p := by
  induction cs with
  | nil =>
    have hnil : rest.takeWhile p = [] := List.length_eq_zero_iff.mp (Nat.le_zero.mp h)
    cases rest' with
    | nil => simp [hnil]
    | cons c rest' => simp [hnil, hp c (by simpa using hb)]
  | cons c cs ih =>
    simp only [List.cons_append, List.takeWhile_cons] at h ⊢
    split
    next hc => simp_all
    next => rfl

theorem isDigit_of_isBreak (c : Char) (h : isBreak c = true) : c.isDigit = false :=
  break_not_mem (by decide) h

theorem isDigitRun_of_isBreak (c : Char) (h : isBreak c = true) : isDigitRun c = false :=
  break_not_mem (by decide) h

theorem isHexRun_of_isBreak (c : Char) (h : isBreak c = true) : isHexRun c = false :=
  break_not_mem (by decide) h

/-! Strings -/

theorem shifted_eq_ok {α : Type} {n w : Nat} {f : α → α} {b : α}
    {x : Except (ScanFault × Nat) (α × Nat)} :
    shifted n f x = .ok (b, w) ↔ ∃ a v, x = .ok (a, v) ∧ f a = b ∧ n + v = w := by
  cases x with
  | error e => simp [shifted]
  | ok a => simp [shifted, Prod.ext_iff, and_assoc]

theorem quoted_newline (q : Char) (cs : List Char) :
    quoted q ('\n' :: cs) = .error (.unterminatedString, 0) := by
  rw [quoted.eq_def]
  simp

theorem quoted_close {q : Char} (hq : q ≠ '\n') (cs : List Char) :
    quoted q (q :: cs) = .ok ([], 1) := by
  rw [quoted.eq_def]
  simp [hq]

theorem quoted_escape {q : Char} (hq : '\\' ≠ q) (e : Char) (cs : List Char) :
    quoted q ('\\' :: e :: cs) = shifted 2 (unescape e ++ ·) (quoted q cs) := by
  rw [quoted.eq_def]
  simp [hq]

theorem quoted_ordinary {q c : Char} (hne : c ≠ '\n') (hq : c ≠ q) (hback : c ≠ '\\')
    (cs : List Char) : quoted q (c :: cs) = shifted 1 (c :: ·) (quoted q cs) := by
  rw [quoted.eq_def]
  simp [hne, hq, hback]

/-- A string ends with its quote. -/
theorem quoted_width {q : Char} {v : List Char} {w : Nat} (h : quoted q cs = .ok (v, w)) :
    1 ≤ w ∧ w ≤ cs.length ∧ (cs.take w).getLast? = some q := by
  fun_induction quoted q cs generalizing v w with
  | case1 => simp at h
  | case2 => simp at h
  | case3 => simp at h; simp [← h.2]
  | case4 => simp at h
  | case5 _ _ e cs ih =>
    obtain ⟨a, u, ha, -, rfl⟩ := shifted_eq_ok.mp h
    obtain ⟨hpos, hle, hlast⟩ := ih ha
    refine ⟨by omega, by simp only [List.length_cons]; omega, ?_⟩
    rw [Nat.add_comm]
    simp [List.getLast?_cons, hlast]
  | case6 c cs _ _ _ ih =>
    obtain ⟨a, u, ha, -, rfl⟩ := shifted_eq_ok.mp h
    obtain ⟨hpos, hle, hlast⟩ := ih ha
    refine ⟨by omega, by simp only [List.length_cons]; omega, ?_⟩
    rw [Nat.add_comm]
    simp [List.getLast?_cons, hlast]

/-- A string that ends before `rest` is the same before anything else. -/
theorem quoted_local {q : Char} {v : List Char} {w : Nat} (h : quoted q (cs ++ rest) = .ok (v, w))
    (hw : w ≤ cs.length) : quoted q (cs ++ rest') = .ok (v, w) := by
  fun_induction quoted q cs generalizing v w with
  | case1 =>
    have hpos := (quoted_width h).1
    simp at hw
    omega
  | case2 => simp [quoted_newline] at h
  | case3 cs hq => simpa [quoted_close hq] using h
  | case4 _ hq =>
    rcases rest with _ | ⟨e, rest⟩
    · simp [quoted, hq] at h
    · simp only [List.cons_append, List.nil_append, quoted_escape hq] at h
      obtain ⟨a, u, ha, -, rfl⟩ := shifted_eq_ok.mp h
      simp at hw
      omega
  | case5 e cs _ hq ih =>
    simp only [List.cons_append, quoted_escape hq] at h ⊢
    obtain ⟨a, u, ha, hv, rfl⟩ := shifted_eq_ok.mp h
    refine shifted_eq_ok.mpr ⟨a, u, ih ha ?_, hv, rfl⟩
    simp only [List.length_cons] at hw
    omega
  | case6 c cs hne hq hback ih =>
    simp only [List.cons_append, quoted_ordinary hne hq hback] at h ⊢
    obtain ⟨a, u, ha, hv, rfl⟩ := shifted_eq_ok.mp h
    refine shifted_eq_ok.mpr ⟨a, u, ih ha ?_, hv, rfl⟩
    simp only [List.length_cons] at hw
    omega

/-! Numbers -/

theorem exponentDigits_of_breaks (hb : Breaks rest) : exponentDigits rest = 0 := by
  cases rest with
  | nil => rfl
  | cons c rest => simp [exponentDigits, isDigit_of_isBreak c (by simpa using hb)]

theorem exponentDigits_local (h : exponentDigits (cs ++ rest) ≤ cs.length) (hb : Breaks rest') :
    exponentDigits (cs ++ rest') = exponentDigits (cs ++ rest) := by
  rcases cs with _ | ⟨d, cs⟩
  · simpa [exponentDigits_of_breaks hb, eq_comm] using h
  · simp only [List.cons_append, exponentDigits] at h ⊢
    split
    next hd =>
      have hrun : ((cs ++ rest).takeWhile isDigitRun).length ≤ cs.length := by
        simp only [hd, ↓reduceIte, List.length_cons] at h
        omega
      rw [takeWhile_local isDigitRun_of_isBreak hrun hb]
    next => rfl

theorem fractionWidth_of_ne {c : Char} (hc : c ≠ '.') (cs : List Char) :
    fractionWidth (c :: cs) = 0 := by
  unfold fractionWidth
  split
  next h => exact absurd (List.cons.inj h).1 hc
  next => rfl

theorem fractionWidth_point (cs : List Char) :
    fractionWidth ('.' :: cs) = if cs.head?.any Char.isDigit then
      2 + ((cs.drop 1).takeWhile isDigitRun).length else 0 := by
  cases cs <;> simp [fractionWidth]

theorem fractionWidth_of_breaks (hb : Breaks rest) : fractionWidth rest = 0 := by
  cases rest with
  | nil => rfl
  | cons c rest =>
    refine fractionWidth_of_ne ?_ rest
    rintro rfl
    simp [isBreak] at hb

theorem head?_any_of_breaks {p : Char → Bool} (hp : ∀ c, isBreak c = true → p c = false)
    (hb : Breaks rest) : rest.head?.any p = false := by
  cases rest with
  | nil => rfl
  | cons c rest => simpa using hp c (by simpa using hb)

theorem fractionWidth_local (h : fractionWidth (cs ++ rest) ≤ cs.length) (hb : Breaks rest') :
    fractionWidth (cs ++ rest') = fractionWidth (cs ++ rest) := by
  rcases cs with _ | ⟨c, cs⟩
  · simpa [fractionWidth_of_breaks hb, eq_comm] using h
  by_cases hc : c = '.'
  · subst hc
    simp only [List.cons_append, fractionWidth_point, List.length_cons] at h ⊢
    rcases cs with _ | ⟨d, cs⟩
    · simp only [List.nil_append, head?_any_of_breaks isDigit_of_isBreak hb] at h ⊢
      split at h
      · simp at h
        omega
      · simp_all
    · simp only [List.cons_append, List.head?_cons, Option.any_some, List.drop_one,
        List.tail_cons, List.length_cons] at h ⊢
      split
      next hd =>
        have hrun : ((cs ++ rest).takeWhile isDigitRun).length ≤ cs.length := by
          simp only [hd, ↓reduceIte] at h
          omega
        rw [takeWhile_local isDigitRun_of_isBreak hrun hb]
      next => rfl
  · simp [fractionWidth_of_ne hc]

def signWidth (cs : List Char) : Nat :=
  if cs.head? = some '+' ∨ cs.head? = some '-' then 1 else 0

theorem exponentWidth_eq (e : Char) (cs : List Char) :
    exponentWidth (e :: cs) =
      if (e = 'e' ∨ e = 'E') ∧ exponentDigits (cs.drop (signWidth cs)) ≠ 0 then
        1 + signWidth cs + exponentDigits (cs.drop (signWidth cs)) else 0 := by
  rcases cs with _ | ⟨c, cs⟩
  · simp [exponentWidth, exponentDigits, signWidth]
  by_cases hplus : c = '+'
  · subst hplus
    simp [exponentWidth, signWidth]
    grind
  by_cases hminus : c = '-'
  · subst hminus
    simp [exponentWidth, signWidth]
    grind
  · simp [exponentWidth, signWidth, hplus, hminus]
    grind

theorem exponentWidth_of_breaks (hb : Breaks rest) : exponentWidth rest = 0 := by
  cases rest with
  | nil => rfl
  | cons c rest =>
    have hc : ¬(c = 'e' ∨ c = 'E') := by
      rintro (rfl | rfl) <;> simp [isBreak] at hb
    simp [exponentWidth_eq, hc]

theorem signWidth_of_breaks (hb : Breaks rest) : signWidth rest = 0 := by
  cases rest with
  | nil => rfl
  | cons c rest =>
    have hc : ¬(c = '+' ∨ c = '-') := by
      rintro (rfl | rfl) <;> simp [isBreak] at hb
    simp [signWidth, hc]

theorem signWidth_le (cs : List Char) : signWidth cs ≤ 1 := by
  unfold signWidth
  split <;> omega

theorem exponentWidth_local (h : exponentWidth (cs ++ rest) ≤ cs.length) (hb : Breaks rest') :
    exponentWidth (cs ++ rest') = exponentWidth (cs ++ rest) := by
  rcases cs with _ | ⟨e, cs⟩
  · simpa [exponentWidth_of_breaks hb, eq_comm] using h
  by_cases hmark : e = 'e' ∨ e = 'E'
  · simp only [List.cons_append, exponentWidth_eq, hmark, true_and, List.length_cons] at h ⊢
    rcases cs with _ | ⟨c, cs⟩
    · -- an exponent that starts here would take a second character at least
      simp only [List.nil_append, signWidth_of_breaks hb, List.drop_zero,
        exponentDigits_of_breaks hb, List.length_nil] at h ⊢
      split at h
      · omega
      · simp_all
    · have hsign : signWidth (c :: (cs ++ rest')) = signWidth (c :: (cs ++ rest)) := by
        simp [signWidth]
      have hle := signWidth_le (c :: (cs ++ rest))
      have hshort : signWidth (c :: (cs ++ rest)) ≤ (c :: cs).length := by
        simp only [List.length_cons]
        omega
      have hdrop (us : List Char) : (c :: (cs ++ us)).drop (signWidth (c :: (cs ++ rest))) =
          (c :: cs).drop (signWidth (c :: (cs ++ rest))) ++ us :=
        List.drop_append_of_le_length hshort
      simp only [List.cons_append, hsign, hdrop] at h ⊢
      have hdigits : exponentDigits ((c :: cs).drop (signWidth (c :: (cs ++ rest))) ++ rest) ≤
          ((c :: cs).drop (signWidth (c :: (cs ++ rest)))).length := by
        simp only [List.length_drop, List.length_cons] at h ⊢
        split at h <;> omega
      rw [exponentDigits_local hdigits hb]
  · simp [exponentWidth_eq, hmark]

theorem hexNumber_local {a b : Char} {k : TokenKind} {w : Nat}
    (h : hexNumber (a :: b :: (cs ++ rest)) = .ok (k, w)) (hw : w ≤ cs.length + 2)
    (hb : Breaks rest') : hexNumber (a :: b :: (cs ++ rest')) = .ok (k, w) := by
  have hrun : ((cs ++ rest).takeWhile isHexRun).length ≤ cs.length := by
    simp only [hexNumber, List.drop_succ_cons, List.drop_zero] at h
    split at h <;> simp at h
    omega
  simpa only [hexNumber, List.drop_succ_cons, List.drop_zero,
    takeWhile_local isHexRun_of_isBreak hrun hb] using h

theorem fractionWidth_le (cs : List Char) : fractionWidth cs ≤ cs.length := by
  unfold fractionWidth
  split
  next d cs =>
    have := (List.takeWhile_sublist isDigitRun (l := cs)).length_le
    rw [List.length_cons, List.length_cons]
    split <;> omega
  next => omega

theorem exponentDigits_le (cs : List Char) : exponentDigits cs ≤ cs.length := by
  cases cs with
  | nil => simp [exponentDigits]
  | cons d cs =>
    have := (List.takeWhile_sublist isDigitRun (l := cs)).length_le
    rw [exponentDigits, List.length_cons]
    split <;> omega

theorem exponentWidth_le (cs : List Char) : exponentWidth cs ≤ cs.length := by
  cases cs with
  | nil => simp [exponentWidth]
  | cons e cs =>
    have hdigits := exponentDigits_le (cs.drop (signWidth cs))
    rw [List.length_drop] at hdigits
    rw [exponentWidth_eq, List.length_cons]
    split <;> omega

/-- A number in base ten as it is written. -/
structure DecimalParts where
  whole : List Char
  fraction : List Char
  exponent : List Char

namespace DecimalParts

def of (cs : List Char) : DecimalParts :=
  let whole := cs.takeWhile isDigitRun
  let afterWhole := cs.drop whole.length
  let fraction := afterWhole.take (fractionWidth afterWhole)
  let afterFraction := afterWhole.drop fraction.length
  ⟨whole, fraction, afterFraction.take (exponentWidth afterFraction)⟩

def width (d : DecimalParts) : Nat :=
  d.whole.length + d.fraction.length + d.exponent.length

def kind (d : DecimalParts) : Except (ScanFault × Nat) (TokenKind × Nat) :=
  if d.fraction.isEmpty && d.exponent.isEmpty then
    match integerOf 10 (withoutUnderscores d.whole) with
    | some n => .ok (.int n, d.width)
    | none => .error (.integerLiteral (String.ofList (withoutUnderscores d.whole)), d.width)
  else .ok (.float (.ofDecimal (decimalOf d.whole d.fraction d.exponent)), d.width)

/-- The width and the kind of a number depend on its parts alone. -/
theorem decimalNumber_eq (cs : List Char) : decimalNumber cs = (of cs).kind := rfl

theorem width_of_kind {d : DecimalParts} {k : TokenKind} {w : Nat} (h : d.kind = .ok (k, w)) :
    w = d.width := by
  unfold kind at h
  split at h
  · split at h
    · simp_all
    · simp at h
  · simp_all

theorem of_local (h : (of (cs ++ rest)).width ≤ cs.length) (hb : Breaks rest') :
    of (cs ++ rest') = of (cs ++ rest) := by
  have hwhole : ((cs ++ rest).takeWhile isDigitRun).length ≤ cs.length := by
    simp only [width, of] at h
    omega
  simp only [width, of, takeWhile_local isDigitRun_of_isBreak hwhole hb,
    List.drop_append_of_le_length hwhole] at h ⊢
  generalize (cs ++ rest).takeWhile isDigitRun = whole at *
  have hfraction : fractionWidth (cs.drop whole.length ++ rest) ≤
      (cs.drop whole.length).length := by
    have hle := fractionWidth_le (cs.drop whole.length ++ rest)
    simp only [List.length_take, Nat.min_eq_left hle] at h
    simp only [List.length_drop]
    omega
  simp only [fractionWidth_local hfraction hb, List.take_append_of_le_length hfraction,
    List.length_take, Nat.min_eq_left hfraction, List.drop_append_of_le_length hfraction] at h ⊢
  generalize fractionWidth (cs.drop whole.length ++ rest) = n at *
  have hexponent : exponentWidth ((cs.drop whole.length).drop n ++ rest) ≤
      ((cs.drop whole.length).drop n).length := by
    have hle := exponentWidth_le ((cs.drop whole.length).drop n ++ rest)
    simp only [Nat.min_eq_left hle] at h
    simp only [List.length_drop] at hfraction ⊢
    omega
  rw [exponentWidth_local hexponent hb, List.take_append_of_le_length hexponent,
    List.take_append_of_le_length hexponent]

end DecimalParts

theorem decimalNumber_local (cs : List Char) {k : TokenKind} {w : Nat}
    (h : decimalNumber (cs ++ rest) = .ok (k, w)) (hw : w ≤ cs.length) (hb : Breaks rest') :
    decimalNumber (cs ++ rest') = .ok (k, w) := by
  rw [DecimalParts.decimalNumber_eq] at h ⊢
  rwa [DecimalParts.of_local (DecimalParts.width_of_kind h ▸ hw) hb]

theorem hexNumber_width {k : TokenKind} {w : Nat} (h : hexNumber cs = .ok (k, w)) :
    w = 2 + ((cs.drop 2).takeWhile isHexRun).length := by
  simp only [hexNumber] at h
  split at h <;> simp_all

def isHexStart : List Char → Bool
  | c :: d :: _ => c == '0' && isHexMark d
  | _ => false

theorem number_hex (h : isHexStart cs = true) : number cs = hexNumber cs := by
  unfold isHexStart at h
  split at h
  next c d ds =>
    simp only [Bool.and_eq_true, beq_iff_eq] at h
    obtain ⟨rfl, hd⟩ := h
    simp [number, hd]
  next => simp at h

theorem number_decimal (h : isHexStart cs = false) : number cs = decimalNumber cs := by
  unfold number
  split
  next d ds =>
    simp only [isHexStart, beq_self_eq_true, Bool.true_and] at h
    simp [h]
  next => rfl

theorem isHexMark_of_isBreak (c : Char) (h : isBreak c = true) : isHexMark c = false :=
  break_not_mem (by decide) h

theorem isHexStart_of_breaks (c : Char) (hb : Breaks rest) : isHexStart (c :: rest) = false := by
  cases rest with
  | nil => rfl
  | cons d rest => simp [isHexStart, isHexMark_of_isBreak d (by simpa using hb)]

theorem number_local {c : Char} {k : TokenKind} {w : Nat}
    (h : number (c :: (cs ++ rest)) = .ok (k, w)) (hw : w ≤ cs.length + 1) (hb : Breaks rest') :
    number (c :: (cs ++ rest')) = .ok (k, w) := by
  cases hhex : isHexStart (c :: (cs ++ rest)) with
  | true =>
    rw [number_hex hhex] at h
    rcases cs with _ | ⟨d, cs⟩
    · have := hexNumber_width h
      simp only [List.length_nil] at hw
      omega
    · rw [number_hex (by simpa [isHexStart] using hhex)]
      exact hexNumber_local h hw hb
  | false =>
    rw [number_decimal hhex] at h
    have hplain : isHexStart (c :: (cs ++ rest')) = false := by
      rcases cs with _ | ⟨d, cs⟩
      · exact isHexStart_of_breaks c hb
      · simpa [isHexStart] using hhex
    rw [number_decimal hplain]
    exact decimalNumber_local (c :: cs) h hw hb

/-! Operators -/

theorem double_of_isBreak (c d : Char) (h : isBreak d = true) : double c d = none := by
  unfold double
  split <;> simp_all [isBreak]

theorem operator_local {c : Char} {k : TokenKind} {w : Nat}
    (h : operator c (cs ++ rest) = some (k, w)) (hw : w ≤ cs.length + 1) (hb : Breaks rest') :
    operator c (cs ++ rest') = some (k, w) := by
  rcases cs with _ | ⟨d, cs⟩
  · have hnone : rest'.head?.bind (double c) = none := by
      cases rest' with
      | nil => rfl
      | cons d rest' => exact double_of_isBreak c d (by simpa using hb)
    simp only [operator, List.nil_append, hnone] at h ⊢
    split at h
    · simp at h hw
      omega
    · exact h
  · simpa [operator] using h

/-! Words -/

inductive Lexeme (c : Char) (cs : List Char) : TokenKind → Nat → Prop
  | string {v w} : c = '"' ∨ c = '\'' → quoted c cs = .ok (v, w) →
      Lexeme c cs (.str (String.ofList v)) (1 + w)
  | number {k w} : ¬(c = '"' ∨ c = '\'') → startsNumber c cs = true →
      number (c :: cs) = .ok (k, w) → Lexeme c cs k w
  | word : ¬(c = '"' ∨ c = '\'') → startsNumber c cs = false → isIdentStart c = true →
      Lexeme c cs (.ofWord (String.ofList (c :: cs.takeWhile isIdentRest)))
        (1 + (cs.takeWhile isIdentRest).length)
  | operator {k w} : ¬(c = '"' ∨ c = '\'') → startsNumber c cs = false → isIdentStart c = false →
      operator c cs = some (k, w) → Lexeme c cs k w

theorem lexeme_iff {c : Char} {k : TokenKind} {w : Nat} :
    lexeme c cs = .ok (k, w) ↔ Lexeme c cs k w := by
  constructor
  · intro h
    unfold lexeme at h
    split at h
    next hq =>
      split at h
      next v n hv =>
        simp only [Except.ok.injEq, Prod.mk.injEq] at h
        obtain ⟨rfl, rfl⟩ := h
        exact .string hq hv
      next => simp at h
    next hq =>
      split at h
      next hn => exact .number hq hn h
      next hn =>
        split at h
        next hs =>
          simp only [Except.ok.injEq, Prod.mk.injEq, List.length_cons] at h
          obtain ⟨rfl, rfl⟩ := h
          rw [Nat.add_comm]
          exact .word hq (by simpa using hn) hs
        next hs =>
          split at h
          next found hf =>
            obtain rfl := Except.ok.inj h
            exact .operator hq (by simpa using hn) (by simpa using hs) hf
          next => simp at h
  · intro h
    cases h with
    | string hq hv => simp [lexeme, hq, hv]
    | number hq hn hk => simp [lexeme, hq, hn, hk]
    | word hq hn hs => simp [lexeme, hq, hn, hs, Nat.add_comm]
    | operator hq hn hs hf => simp [lexeme, hq, hn, hs, hf]

/-- A number with a point in front takes two characters at least. -/
theorem number_point_width {d : Char} {k : TokenKind} {w : Nat} (hd : d.isDigit = true)
    (h : number ('.' :: d :: cs) = .ok (k, w)) : 2 ≤ w := by
  rw [number_decimal (by simp [isHexStart]), DecimalParts.decimalNumber_eq] at h
  rw [DecimalParts.width_of_kind h]
  simp [DecimalParts.width, DecimalParts.of, isDigitRun, fractionWidth_point, hd]
  omega

theorem startsNumber_of_breaks (c : Char) (hb : Breaks rest) :
    startsNumber c rest = c.isDigit := by
  simp [startsNumber, head?_any_of_breaks isDigit_of_isBreak hb]

theorem not_startsNumber_local {c : Char} (h : startsNumber c (cs ++ rest) = false)
    (hb : Breaks rest') : startsNumber c (cs ++ rest') = false := by
  rcases cs with _ | ⟨d, cs⟩
  · rw [List.nil_append, startsNumber_of_breaks c hb]
    simp_all [startsNumber]
  · simpa [startsNumber] using h

theorem startsNumber_local {c : Char} {k : TokenKind} {w : Nat}
    (h : startsNumber c (cs ++ rest) = true) (hk : number (c :: (cs ++ rest)) = .ok (k, w))
    (hw : w ≤ cs.length + 1) (hb : Breaks rest') : startsNumber c (cs ++ rest') = true := by
  rcases cs with _ | ⟨d, cs⟩
  · rw [List.nil_append, startsNumber_of_breaks c hb]
    refine Bool.not_eq_false _ ▸ fun hc => ?_
    rcases rest with _ | ⟨d, rest⟩
    · simp_all [startsNumber]
    · simp only [List.nil_append, startsNumber, hc, Bool.false_or, List.head?_cons,
        Option.any_some, Bool.and_eq_true, beq_iff_eq] at h
      obtain ⟨rfl, hd⟩ := h
      have := number_point_width hd hk
      simp only [List.length_nil] at hw
      omega
  · simpa [startsNumber] using h

/-- A word is the same before every break and at the end of the text. -/
theorem lexeme_local {c : Char} {k : TokenKind} {w : Nat}
    (h : lexeme c (cs ++ rest) = .ok (k, w)) (hw : w ≤ cs.length + 1) (hb : Breaks rest') :
    lexeme c (cs ++ rest') = .ok (k, w) := by
  rw [lexeme_iff] at h ⊢
  cases h with
  | string hq hv => exact .string hq (quoted_local hv (by omega))
  | number hq hn hk => exact .number hq (startsNumber_local hn hk hw hb) (number_local hk hw hb)
  | word hq hn hs =>
    have hrun : ((cs ++ rest).takeWhile isIdentRest).length ≤ cs.length := by omega
    rw [← takeWhile_local (fun _ => isIdentRest_of_isBreak) hrun hb]
    exact .word hq (not_startsNumber_local hn hb) hs
  | operator hq hn hs hf =>
    exact .operator hq (not_startsNumber_local hn hb) hs (operator_local hf hw hb)

/-! The characters of words -/

def EndsWith (p : Char → Bool) (cs : List Char) : Prop :=
  ∀ c ∈ cs.getLast?, p c = true

theorem EndsWith.append {p : Char → Bool} {ds : List Char} (h : EndsWith p cs)
    (hd : EndsWith p ds) : EndsWith p (cs ++ ds) := by
  intro c hc
  rw [List.getLast?_append, Option.mem_def, Option.or_eq_some_iff] at hc
  rcases hc with hc | ⟨-, hc⟩
  · exact hd c hc
  · exact h c hc

theorem EndsWith.behind {p : Char → Bool} {ds : List Char} (hd : EndsWith p ds) (hne : ds ≠ [])
    (cs : List Char) : EndsWith p (cs ++ ds) := by
  intro c hc
  rw [List.getLast?_append, Option.mem_def, Option.or_eq_some_iff] at hc
  rcases hc with hc | ⟨hnone, -⟩
  · exact hd c hc
  · exact absurd (List.getLast?_eq_none_iff.mp hnone) hne

theorem endsWith_of_forall {p : Char → Bool} (h : ∀ c ∈ cs, p c = true) : EndsWith p cs :=
  fun c hc => h c (List.mem_of_getLast? hc)

theorem take_takeWhile (p : Char → Bool) (cs : List Char) :
    cs.take (cs.takeWhile p).length = cs.takeWhile p :=
  (List.prefix_iff_eq_take.mp (List.takeWhile_prefix p)).symm

theorem mem_takeWhile {p : Char → Bool} {c : Char} (h : c ∈ cs.takeWhile p) : p c = true :=
  List.all_eq_true.mp List.all_takeWhile c h

theorem endsWith_exponentDigits (cs : List Char) :
    EndsWith isDigitRun (cs.take (exponentDigits cs)) := by
  cases cs with
  | nil => simp [EndsWith]
  | cons d cs =>
    simp only [exponentDigits]
    split
    next hd =>
      rw [Nat.add_comm, List.take_succ_cons, take_takeWhile]
      refine endsWith_of_forall fun c hc => ?_
      rcases List.mem_cons.mp hc with rfl | hc
      · simp [isDigitRun, hd]
      · exact mem_takeWhile hc
    next => simp [EndsWith]

theorem endsWith_fraction (cs : List Char) :
    EndsWith isDigitRun (cs.take (fractionWidth cs)) := by
  unfold fractionWidth
  split
  next d cs =>
    split
    next hd =>
      have hrun : EndsWith isDigitRun (d :: cs.takeWhile isDigitRun) := by
        refine endsWith_of_forall fun c hc => ?_
        rcases List.mem_cons.mp hc with rfl | hc
        · simp [isDigitRun, hd]
        · exact mem_takeWhile hc
      rw [Nat.add_comm, List.take_succ_cons, List.take_succ_cons, take_takeWhile]
      exact hrun.behind (by simp) ['.']
    next => simp [EndsWith]
  next => simp [EndsWith]

theorem endsWith_exponent (cs : List Char) :
    EndsWith isDigitRun (cs.take (exponentWidth cs)) := by
  cases cs with
  | nil => simp [EndsWith]
  | cons e cs =>
    rw [exponentWidth_eq]
    split
    next h =>
      rw [Nat.add_assoc, Nat.add_comm, List.take_succ_cons, List.take_add]
      refine (endsWith_exponentDigits _).behind ?_ (e :: cs.take (signWidth cs))
      have hle := exponentDigits_le (cs.drop (signWidth cs))
      intro hnil
      have hlength := congrArg List.length hnil
      rw [List.length_take, Nat.min_eq_left hle] at hlength
      exact h.2 hlength
    next => simp [EndsWith]

theorem prefixed_append {ds : List Char} (h : cs <+: rest) (hd : ds <+: rest.drop cs.length) :
    cs ++ ds <+: rest := by
  obtain ⟨us, rfl⟩ := h
  exact (List.prefix_append_right_inj cs).mpr (by simpa using hd)

namespace DecimalParts

def chars (d : DecimalParts) : List Char :=
  d.whole ++ (d.fraction ++ d.exponent)

theorem length_chars (d : DecimalParts) : d.chars.length = d.width := by
  simp [chars, width, Nat.add_assoc]

theorem prefixed_chars (cs : List Char) : (of cs).chars <+: cs :=
  prefixed_append (List.takeWhile_prefix isDigitRun)
    (prefixed_append (List.take_prefix _ _) (List.take_prefix _ _))

theorem take_width (cs : List Char) : cs.take (of cs).width = (of cs).chars := by
  rw [← length_chars]
  exact (List.prefix_iff_eq_take.mp (prefixed_chars cs)).symm

theorem width_le (cs : List Char) : (of cs).width ≤ cs.length := by
  rw [← length_chars]
  exact (prefixed_chars cs).length_le

theorem endsWith_chars (cs : List Char) : EndsWith isDigitRun (of cs).chars :=
  (endsWith_of_forall fun _ => mem_takeWhile).append
    ((endsWith_fraction _).append (endsWith_exponent _))

theorem width_pos_of_kind {d : DecimalParts} {k : TokenKind} {w : Nat} (h : d.kind = .ok (k, w)) :
    1 ≤ w := by
  have hw := width_of_kind h
  unfold kind at h
  split at h
  · split at h
    next n hn =>
      have hne : d.whole ≠ [] := by
        intro hnil
        simp [hnil, withoutUnderscores, integerOf] at hn
      have := List.length_pos_iff.mpr hne
      simp only [width] at hw
      omega
    next => simp at h
  next hparts =>
    have hne : d.fraction.length + d.exponent.length ≠ 0 := by
      intro hzero
      simp only [Nat.add_eq_zero_iff, List.length_eq_zero_iff] at hzero
      simp [hzero] at hparts
    simp only [width] at hw
    omega

end DecimalParts

theorem hexNumber_ne_nil {k : TokenKind} {w : Nat} (h : hexNumber cs = .ok (k, w)) :
    (cs.drop 2).takeWhile isHexRun ≠ [] := by
  intro hnil
  simp [hexNumber, hnil, withoutUnderscores, integerOf] at h

theorem isHexRun_of_isDigitRun {c : Char} (h : isDigitRun c = true) : isHexRun c = true := by
  simp only [isDigitRun, Bool.or_eq_true] at h
  rcases h with h | h <;> simp [isHexRun, isHexDigit, h]

/-- A number ends with one of its digits. -/
theorem number_width {k : TokenKind} {w : Nat} (h : number cs = .ok (k, w)) :
    1 ≤ w ∧ w ≤ cs.length ∧ EndsWith isHexRun (cs.take w) := by
  cases hhex : isHexStart cs with
  | true =>
    rw [number_hex hhex] at h
    obtain ⟨c, d, ds, rfl⟩ : ∃ c d ds, cs = c :: d :: ds := by
      unfold isHexStart at hhex
      split at hhex
      · exact ⟨_, _, _, rfl⟩
      · simp at hhex
    have hne := hexNumber_ne_nil h
    obtain rfl := hexNumber_width h
    have hle := (List.takeWhile_prefix isHexRun (l := ds)).length_le
    simp only [List.drop_succ_cons, List.drop_zero, List.length_cons] at hne ⊢
    refine ⟨by omega, by omega, ?_⟩
    rw [Nat.add_comm, List.take_succ_cons, List.take_succ_cons, take_takeWhile]
    exact (endsWith_of_forall fun _ => mem_takeWhile).behind hne [c, d]
  | false =>
    rw [number_decimal hhex, DecimalParts.decimalNumber_eq] at h
    refine ⟨DecimalParts.width_pos_of_kind h, ?_⟩
    obtain rfl := DecimalParts.width_of_kind h
    refine ⟨DecimalParts.width_le cs, fun c hc => ?_⟩
    rw [DecimalParts.take_width] at hc
    exact isHexRun_of_isDigitRun (DecimalParts.endsWith_chars cs c hc)

theorem operator_width {c : Char} {k : TokenKind} {w : Nat} (h : operator c cs = some (k, w)) :
    1 ≤ w ∧ w ≤ cs.length + 1 := by
  unfold operator at h
  split at h
  next hk =>
    cases cs with
    | nil => simp at hk
    | cons d cs => simp at h; simp [← h.2]
  next =>
    simp only [Option.map_eq_some_iff, Prod.mk.injEq] at h
    obtain ⟨-, -, -, rfl⟩ := h
    omega

theorem isIdentRest_of_isHexRun {c : Char} (h : isHexRun c = true) : isIdentRest c = true := by
  simp only [isHexRun, Bool.or_eq_true, beq_iff_eq] at h
  rcases h with h | rfl
  · exact isIdentRest_of_isHexDigit h
  · simp [isIdentRest]

/-- The character opens a stretch between words, or may do so. -/
def isGapStart (c : Char) : Bool :=
  isBlank c || c == '\\' || c == '#'

theorem gap_eq_zero {c : Char} (h : isGapStart c = false) (depth : Nat) (cs : List Char) :
    c ≠ '\n' ∧ gap depth c cs = 0 := by
  simp only [isGapStart, Bool.or_eq_false_iff, beq_eq_false_iff_ne] at h
  have hne : c ≠ '\n' := by
    rintro rfl
    simp [isBlank] at h
  simp [gap, h, hne]

theorem isGapStart_of_isIdentRest {c : Char} (h : isIdentRest c = true) :
    isGapStart c = false := by
  have hback : c ≠ '\\' := by
    rintro rfl
    revert h
    decide
  have hhash : c ≠ '#' := by
    rintro rfl
    revert h
    decide
  simp [isGapStart, isBlank_of_isIdentRest h, hback, hhash]

theorem isGapStart_of_double {c d : Char} {k : TokenKind} (h : double c d = some k) :
    isGapStart c = false ∧ isGapStart d = false := by
  unfold double at h
  split at h <;> simp_all [isGapStart, isBlank]

theorem isGapStart_of_single {c : Char} {k : TokenKind} (h : single c = some k) :
    isGapStart c = false := by
  unfold single at h
  split at h <;> simp_all [isGapStart, isBlank]

theorem isGapStart_of_startsNumber {c : Char} (h : startsNumber c cs = true) :
    isGapStart c = false := by
  simp only [startsNumber, Bool.or_eq_true, Bool.and_eq_true, beq_iff_eq] at h
  rcases h with h | ⟨rfl, -⟩
  · exact isGapStart_of_isIdentRest (isIdentRest_of_isHexRun (by simp [isHexRun, isHexDigit, h]))
  · simp [isGapStart, isBlank]

/-- An operator neither starts nor ends like a stretch between words. -/
theorem isGapStart_of_operator {c : Char} {k : TokenKind} {w : Nat}
    (h : operator c cs = some (k, w)) :
    isGapStart c = false ∧ EndsWith (!isGapStart ·) ((c :: cs).take w) := by
  unfold operator at h
  split at h
  next l hl =>
    obtain ⟨rfl, rfl⟩ := Prod.mk.inj (Option.some.inj h)
    cases cs with
    | nil => simp at hl
    | cons d cs =>
      have hcd := isGapStart_of_double (d := d) (by simpa using hl)
      simp [EndsWith, hcd]
  next =>
    simp only [Option.map_eq_some_iff, Prod.mk.injEq] at h
    obtain ⟨l, hl, -, rfl⟩ := h
    simp [EndsWith, isGapStart_of_single hl]

/-- A word neither starts nor ends like a stretch between words. -/
theorem isGapStart_of_lexeme {c : Char} {k : TokenKind} {w : Nat} (h : lexeme c cs = .ok (k, w)) :
    isGapStart c = false ∧ EndsWith (!isGapStart ·) ((c :: cs).take w) := by
  cases lexeme_iff.mp h with
  | @string v w hq hv =>
    have hquote : isGapStart c = false := by rcases hq with rfl | rfl <;> simp [isGapStart, isBlank]
    refine ⟨hquote, fun d hd => ?_⟩
    rw [Nat.add_comm, List.take_succ_cons, List.getLast?_cons, (quoted_width hv).2.2] at hd
    simp_all
  | number hq hn hk =>
    refine ⟨isGapStart_of_startsNumber hn, fun d hd => ?_⟩
    have hrun := isIdentRest_of_isHexRun ((number_width hk).2.2 d hd)
    simp [isGapStart_of_isIdentRest hrun]
  | word hq hn hs =>
    refine ⟨isGapStart_of_isIdentRest (isIdentRest_of_isIdentStart hs), ?_⟩
    rw [Nat.add_comm, List.take_succ_cons, take_takeWhile]
    refine endsWith_of_forall fun d hd => ?_
    have hrest : isIdentRest d = true := by
      rcases List.mem_cons.mp hd with rfl | hd
      · exact isIdentRest_of_isIdentStart hs
      · exact mem_takeWhile hd
    simp [isGapStart_of_isIdentRest hrest]
  | operator hq hn hs hf => exact isGapStart_of_operator hf

theorem lexeme_width {c : Char} {k : TokenKind} {w : Nat} (h : lexeme c cs = .ok (k, w)) :
    1 ≤ w ∧ w ≤ cs.length + 1 := by
  cases lexeme_iff.mp h with
  | string hq hv =>
    have := quoted_width hv
    omega
  | number hq hn hk =>
    have := number_width hk
    simp only [List.length_cons] at this
    omega
  | word hq hn hs =>
    have := (List.takeWhile_prefix isIdentRest (l := cs)).length_le
    omega
  | operator hq hn hs hf => exact operator_width hf

/-- A number is an integer, not below zero, or a float. -/
theorem number_kind {k : TokenKind} {w : Nat} (h : number cs = .ok (k, w)) :
    (∃ n, k = .int n ∧ 0 ≤ n.toInt) ∨ ∃ x, k = .float x := by
  have hint {base : Nat} {ds : List Char} {n : Int64} (hn : integerOf base ds = some n) :
      0 ≤ n.toInt := by
    simp only [integerOf, Option.ite_none_left_eq_some] at hn
    have := Number.toInt_of_int64? hn.2
    omega
  cases hhex : isHexStart cs with
  | true =>
    rw [number_hex hhex] at h
    simp only [hexNumber] at h
    split at h
    next n hn =>
      simp only [Except.ok.injEq, Prod.mk.injEq] at h
      exact .inl ⟨n, h.1.symm, hint hn⟩
    next => simp at h
  | false =>
    rw [number_decimal hhex, DecimalParts.decimalNumber_eq] at h
    unfold DecimalParts.kind at h
    split at h
    · split at h
      next n hn =>
        simp only [Except.ok.injEq, Prod.mk.injEq] at h
        exact .inl ⟨n, h.1.symm, hint hn⟩
      next => simp at h
    · simp only [Except.ok.injEq, Prod.mk.injEq] at h
      exact .inr ⟨_, h.1.symm⟩

def isMark : TokenKind → Bool
  | .int _ | .float _ | .str _ | .ident _ | .newline | .eof => false
  | _ => true

theorem isMark_of_operator {c : Char} {k : TokenKind} {w : Nat}
    (h : operator c cs = some (k, w)) : isMark k = true := by
  unfold operator at h
  split at h
  next l hl =>
    obtain ⟨rfl, -⟩ := Prod.mk.inj (Option.some.inj h)
    obtain ⟨d, -, hd⟩ := Option.bind_eq_some_iff.mp hl
    unfold double at hd
    split at hd <;> simp at hd <;> simp [← hd, isMark]
  next =>
    simp only [Option.map_eq_some_iff, Prod.mk.injEq] at h
    obtain ⟨l, hl, rfl, -⟩ := h
    unfold single at hl
    split at hl <;> simp at hl <;> simp [← hl, isMark]

theorem isMark_ofWord (s : String) : TokenKind.ofWord s = .ident s ∨ isMark (.ofWord s) = true := by
  unfold TokenKind.ofWord
  split <;> simp [isMark]

def isWordKind (k : TokenKind) : Bool :=
  k != .eof && k != .newline

theorem isWordKind_of_isMark {k : TokenKind} (h : isMark k = true) : isWordKind k = true := by
  cases k <;> simp_all [isMark, isWordKind]

theorem isWordKind_of_lexeme {c : Char} {k : TokenKind} {w : Nat}
    (h : lexeme c cs = .ok (k, w)) : isWordKind k = true := by
  cases lexeme_iff.mp h with
  | string hq hv => rfl
  | number hq hn hk => rcases number_kind hk with ⟨n, rfl, -⟩ | ⟨x, rfl⟩ <;> rfl
  | word hq hn hs =>
    rcases isMark_ofWord (String.ofList (c :: cs.takeWhile isIdentRest)) with hk | hk
    · rw [hk]
      rfl
    · exact isWordKind_of_isMark hk
  | operator hq hn hs hf => exact isWordKind_of_isMark (isMark_of_operator hf)

/-- An integer in the source is not below zero. -/
theorem int_of_lexeme {c : Char} {n : Int64} {w : Nat} (h : lexeme c cs = .ok (.int n, w)) :
    0 ≤ n.toInt := by
  generalize hk : TokenKind.int n = k at h
  cases lexeme_iff.mp h with
  | string hq hv => simp at hk
  | number hq hn hk' =>
    subst hk
    rcases number_kind hk' with ⟨m, hm, hpos⟩ | ⟨x, hx⟩
    · cases hm
      exact hpos
    · simp at hx
  | word hq hn hs =>
    rcases isMark_ofWord (String.ofList (c :: cs.takeWhile isIdentRest)) with hw | hw
    · rw [hw] at hk
      simp at hk
    · rw [← hk] at hw
      simp [isMark] at hw
  | operator hq hn hs hf =>
    have hw := isMark_of_operator hf
    simp [← hk, isMark] at hw

/-- The word of a name is its text. -/
theorem name_of_lexeme {c : Char} {n : String} {w : Nat} (h : lexeme c cs = .ok (.ident n, w)) :
    isIdentStart c = true ∧ n = String.ofList (c :: cs.takeWhile isIdentRest) ∧
      TokenKind.ofWord n = .ident n ∧ w = 1 + (cs.takeWhile isIdentRest).length := by
  generalize hk : TokenKind.ident n = k at h
  cases lexeme_iff.mp h with
  | string hq hv => simp at hk
  | number hq hn hk' =>
    subst hk
    rcases number_kind hk' with ⟨m, hm, -⟩ | ⟨x, hx⟩
    · simp at hm
    · simp at hx
  | word hq hn hs =>
    rcases isMark_ofWord (String.ofList (c :: cs.takeWhile isIdentRest)) with hw | hw
    · have hname := TokenKind.ident.inj (hk.trans hw)
      exact ⟨hs, hname, congrArg TokenKind.ofWord hname, rfl⟩
    · rw [← hk] at hw
      simp [isMark] at hw
  | operator hq hn hs hf =>
    have hw := isMark_of_operator hf
    simp [← hk, isMark] at hw

end

end Comprehend.Token
