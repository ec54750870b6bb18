import Mathlib.Algebra.Ring.Parity
import Mathlib.Tactic.Linarith
import Mathlib.Tactic.Tauto
import Comprehend.Expr.Constant
import Comprehend.Proofs.FloorArithmetic

/-! The value of integer constants. They are folded with 64-bit integers. What that gives is the
value over the unbounded integers, and there is none only where some part of the constant has no
value that fits, has too large an exponent, or is a remainder whose quotient, or the product of that
with the divisor, does not fit. -/
namespace Comprehend

/-! Exact values -/

/-- The operators of the source over the unbounded integers, powers included. -/
def BinOp.integer : BinOp → Int → Int → Option Int
  | .pow, a, b => if 0 ≤ b then some (a ^ b.toNat) else none
  | op, a, b => floors op a b

namespace Expr

open Number

def integer : Expr → Option Int
  | .const (.int n) => some n.toInt
  | .unary .neg e => (integer e).map (- ·)
  | .unary .pos e => integer e
  | .unary .invert e => (integer e).map (- · - 1)
  | .binary l op r => (integer l).bind fun a => (integer r).bind fun b => op.integer a b
  | _ => none

/-! Arithmetic on 64-bit integers -/

variable {a b v : Int64}

theorem exists_toInt {n : Int} (h : Fits n) : ∃ a : Int64, a.toInt = n :=
  ⟨.ofInt n, Int64.toInt_ofInt_of_le h.1 h.2⟩

theorem int64?_eq_some {n : Int} : int64? n = some v ↔ v.toInt = n := by
  constructor
  · exact toInt_of_int64?
  · rintro rfl
    exact int64?_toInt v

theorem isSome_int64? {n : Int} : (int64? n).isSome ↔ Fits n := by
  simp [int64?]

theorem toInt_complement (a : Int64) : (~~~a).toInt = -a.toInt - 1 := by
  have ha := fits_toInt a
  unfold Fits at ha
  rw [Int64.toInt_not, Int.bmod_eq_of_le (by omega) (by omega)]

theorem fits_complement (a : Int64) : Fits (-a.toInt - 1) :=
  toInt_complement a ▸ fits_toInt (~~~a)

theorem eq_zero_iff : b = 0 ↔ b.toInt = 0 := by
  rw [← Int64.toInt_inj, Int64.toInt_zero]

theorem quotient?_eq_some :
    quotient? a b = some v ↔ b.toInt ≠ 0 ∧ v.toInt = a.toInt.tdiv b.toInt := by
  simp [quotient?, eq_zero_iff, int64?_eq_some]

/-- Rounding toward zero is rounding up where the signs differ and something remains. -/
theorem fdiv_eq_lowered {m n : Int} (hn : n ≠ 0) :
    m.fdiv n = if m.tmod n ≠ 0 ∧ ¬(m < 0 ↔ n < 0) then m.tdiv n - 1 else m.tdiv n := by
  simp only [Int.fdiv_eq_tdiv, Int.dvd_iff_tmod_eq_zero]
  rcases Int.lt_or_gt_of_ne hn with hneg | hpos
  · rw [Int.sign_eq_neg_one_of_neg hneg]
    grind
  · rw [Int.sign_eq_one_of_pos hpos]
    grind

/-- A quotient that leaves a remainder is at most half as large as its dividend. -/
theorem fits_inexact {m n : Int} (hm : Fits m) (hrem : m.tmod n ≠ 0) :
    Fits (m.tdiv n) ∧ Fits (m.tdiv n - 1) := by
  have hone : n.natAbs ≠ 1 := by
    intro hone
    obtain rfl | rfl : n = 1 ∨ n = -1 := by omega
    · simp at hrem
    · simp at hrem
  have hhalf : m.natAbs / n.natAbs ≤ m.natAbs / 2 := by
    rcases Nat.eq_zero_or_pos n.natAbs with hzero | hpos
    · simp [hzero]
    · exact Nat.div_le_div_left (by omega) (by decide)
  have habs : (m.tdiv n).natAbs = m.natAbs / n.natAbs := Int.natAbs_tdiv m n
  unfold Fits at *
  omega

theorem rounds_up_iff :
    (a % b ≠ 0 ∧ ¬(a < 0 ↔ b < 0)) ↔
      a.toInt.tmod b.toInt ≠ 0 ∧ ¬(a.toInt < 0 ↔ b.toInt < 0) := by
  rw [Ne, eq_zero_iff, Int64.toInt_mod, Int64.lt_iff_toInt_lt, Int64.lt_iff_toInt_lt,
    Int64.toInt_zero]

theorem toInt_lowered {q : Int64} (hq : Fits (q.toInt - 1)) : (q - 1).toInt = q.toInt - 1 := by
  unfold Fits at hq
  rw [Int64.toInt_sub, Int64.toInt_one, Int.bmod_eq_of_le (by omega) (by omega)]

theorem floorDiv?_eq_some :
    floorDiv? a b = some v ↔ b.toInt ≠ 0 ∧ v.toInt = a.toInt.fdiv b.toInt := by
  simp only [floorDiv?, Option.bind_eq_bind, Option.bind_eq_some_iff, quotient?_eq_some]
  by_cases hup : a.toInt.tmod b.toInt ≠ 0 ∧ ¬(a.toInt < 0 ↔ b.toInt < 0)
  · -- The subtraction does not look for overflow; where it is made there is none.
    obtain ⟨hfits, hlowered⟩ := fits_inexact (fits_toInt a) hup.1
    simp only [if_pos (rounds_up_iff.mpr hup), Option.some.injEq]
    constructor
    · rintro ⟨q, ⟨hb, hq⟩, rfl⟩
      rw [← hq] at hlowered
      rw [fdiv_eq_lowered hb, if_pos hup, toInt_lowered hlowered, hq]
      exact ⟨hb, rfl⟩
    · rintro ⟨hb, hv⟩
      obtain ⟨q, hq⟩ := exists_toInt hfits
      rw [fdiv_eq_lowered hb, if_pos hup, ← hq] at hv
      rw [← hq] at hlowered
      exact ⟨q, ⟨hb, hq⟩, Int64.toInt_inj.mp ((toInt_lowered hlowered).trans hv.symm)⟩
  · simp only [if_neg (mt rounds_up_iff.mp hup), Option.some.injEq, exists_eq_right]
    refine and_congr_right fun hb => ?_
    rw [fdiv_eq_lowered hb, if_neg hup]

theorem floorMod?_eq_some :
    floorMod? a b = some v ↔ b.toInt ≠ 0 ∧ v.toInt = a.toInt.fmod b.toInt ∧
      Fits (a.toInt.fdiv b.toInt) ∧ Fits (a.toInt.fdiv b.toInt * b.toInt) := by
  have hdiv := Int.mul_fdiv_add_fmod a.toInt b.toInt
  simp only [floorMod?, Option.bind_eq_bind, Option.bind_eq_some_iff, floorDiv?_eq_some,
    int64?_eq_some]
  constructor
  · rintro ⟨q, ⟨hb, hq⟩, covered, hcovered, hv⟩
    rw [← hq] at hdiv ⊢
    rw [← hcovered]
    refine ⟨hb, ?_, fits_toInt q, fits_toInt covered⟩
    rw [hv, hcovered]
    linarith
  · rintro ⟨hb, hv, hquotient, hcovered⟩
    obtain ⟨q, hq⟩ := exists_toInt hquotient
    obtain ⟨covered, hcovered⟩ := exists_toInt hcovered
    refine ⟨q, ⟨hb, hq⟩, covered, by rw [hq, hcovered], ?_⟩
    rw [hv, hcovered]
    linarith

/-- Powers grow: from the exponent 64 on, only those of `0`, `1` and `-1` fit. -/
theorem not_fits_pow {m : Int} {n : Nat} (hm : 2 ≤ m.natAbs) (hn : 64 ≤ n) : ¬Fits (m ^ n) := by
  have hpow : 2 ^ 64 ≤ (m ^ n).natAbs := by
    rw [Int.natAbs_pow]
    calc 2 ^ 64 ≤ 2 ^ n := Nat.pow_le_pow_right (by decide) hn
      _ ≤ m.natAbs ^ n := Nat.pow_le_pow_left hm n
  unfold Fits
  omega

/-- The powers of `-1` alternate. -/
theorem toInt_alternating {n : Int} (hn : 0 ≤ n) :
    (if n % 2 = 0 then (1 : Int64) else -1).toInt = (-1) ^ n.toNat := by
  split
  next heven =>
    have : Even n.toNat := Nat.even_iff.mpr (by omega)
    rw [this.neg_one_pow, Int64.toInt_one]
  next hodd =>
    have : Odd n.toNat := Nat.odd_iff.mpr (by omega)
    rw [this.neg_one_pow]
    rfl

theorem power?_eq_some :
    power? a b = some v ↔
      (0 ≤ b.toInt ∧ b.toInt < 0x100000000) ∧ v.toInt = a.toInt ^ b.toInt.toNat := by
  unfold power?
  by_cases hrange : b.toInt < 0 ∨ 0x100000000 ≤ b.toInt
  · rw [if_pos hrange]
    simp only [reduceCtorEq, false_iff]
    omega
  rw [if_neg hrange, and_iff_right (by omega)]
  split
  · exact int64?_eq_some
  next hlarge =>
    have hexp : b.toInt.toNat ≠ 0 := by omega
    split
    next hbase =>
      rw [Option.some.injEq, ← Int64.toInt_inj, eq_comm]
      rcases hbase with rfl | rfl
      · rw [Int64.toInt_zero, zero_pow hexp]
      · rw [Int64.toInt_one, one_pow]
    · split
      next hbase =>
        subst hbase
        rw [Option.some.injEq, ← Int64.toInt_inj, toInt_alternating (by omega), eq_comm]
        rfl
      next hunit hminus =>
        have hbase : 2 ≤ a.toInt.natAbs := by
          simp only [not_or, ← Int64.toInt_inj] at hunit hminus
          change ¬a.toInt = 0 ∧ ¬a.toInt = 1 at hunit
          change ¬a.toInt = -1 at hminus
          omega
        have hnot := not_fits_pow hbase (n := b.toInt.toNat) (by omega)
        simp only [reduceCtorEq, false_iff]
        intro hv
        exact hnot (hv ▸ fits_toInt v)

/-- The value of a binary operator is the exact one. There is none if that does not fit, if an
exponent is too large, or if the way to a remainder leads beyond the limits. -/
theorem binaryInt?_eq_some {op : BinOp} :
    binaryInt? op a b = some v ↔
      op.integer a.toInt b.toInt = some v.toInt ∧ (op = .pow → b.toInt < 0x100000000) ∧
        (op = .mod → Fits (a.toInt.fdiv b.toInt) ∧ Fits (a.toInt.fdiv b.toInt * b.toInt)) := by
  cases op with
  | add | sub | mul =>
    simp [binaryInt?, BinOp.integer, floors, int64?_eq_some, eq_comm (a := v.toInt)]
  | floorDiv =>
    simp [binaryInt?, BinOp.integer, floors, divided_eq_some, floorDiv?_eq_some,
      eq_comm (a := v.toInt)]
  | mod =>
    simp [binaryInt?, BinOp.integer, floors, divided_eq_some, floorMod?_eq_some, and_assoc,
      eq_comm (a := v.toInt)]
  | pow =>
    simp only [binaryInt?, BinOp.integer, power?_eq_some, Option.ite_none_right_eq_some]
    simp only [Option.some.injEq, eq_comm (a := v.toInt), forall_const, reduceCtorEq, false_imp_iff,
      and_true]
    tauto
  | div | bitAnd | bitOr | bitXor | shl | shr => simp [binaryInt?, BinOp.integer, floors]

/-! Values -/

/-- What folding gives is the value over the unbounded integers. -/
theorem integer_of_evalInt {e : Expr} (h : evalInt e = some v) : integer e = some v.toInt := by
  fun_induction evalInt e generalizing v with
  | case1 n => rw [integer, Option.some.inj h]
  | case2 e ih =>
    obtain ⟨n, hn, hv⟩ := Option.bind_eq_some_iff.mp h
    rw [integer, ih hn, Option.map_some, int64?_eq_some.mp hv]
  | case3 e ih => exact ih h
  | case4 e ih =>
    obtain ⟨n, hn, rfl⟩ := Option.map_eq_some_iff.mp h
    rw [integer, ih hn, Option.map_some, toInt_complement]
  | case5 l op r ihl ihr =>
    simp only [Option.bind_eq_bind, Option.bind_eq_some_iff] at h
    obtain ⟨a, ha, b, hb, hv⟩ := h
    rw [integer, ihl ha, ihr hb, Option.bind_some, Option.bind_some]
    exact (binaryInt?_eq_some.mp hv).1
  | case6 => simp at h

/-! Parts -/

/-- The parts of an expression under signs and binary operators, itself included. -/
def subexpressions : Expr → List Expr
  | .unary op e => .unary op e :: subexpressions e
  | .binary l op r => .binary l op r :: (subexpressions l ++ subexpressions r)
  | e => [e]

/-- What folding asks of each part of a constant: a value that fits (so that it is made of integers,
signs and operators on integers, no divisor is zero and no exponent negative), an exponent that is
not too large, and that a remainder can be had by way of the quotient. -/
structure Foldable (s : Expr) : Prop where
  fits : ∃ n, integer s = some n ∧ Fits n
  exponent : ∀ l r, s = .binary l .pow r → ∀ n, integer r = some n → n < 0x100000000
  remainder : ∀ l r, s = .binary l .mod r → ∀ m n, integer l = some m → integer r = some n →
    Fits (m.fdiv n) ∧ Fits (m.fdiv n * n)

theorem foldable_iff_fits {s : Expr} (hs : ∀ l op r, s ≠ .binary l op r) :
    Foldable s ↔ ∃ n, integer s = some n ∧ Fits n := by
  refine ⟨Foldable.fits, fun hfits => ⟨hfits, ?_, ?_⟩⟩
  · exact fun l r heq => absurd heq (hs l .pow r)
  · exact fun l r heq => absurd heq (hs l .mod r)

theorem foldable_binary {l r : Expr} {op : BinOp} {a b : Int64} (hl : integer l = some a.toInt)
    (hr : integer r = some b.toInt) :
    Foldable (.binary l op r) ↔ (binaryInt? op a b).isSome := by
  have hvalue : integer (.binary l op r) = op.integer a.toInt b.toInt := by
    rw [integer, hl, hr, Option.bind_some, Option.bind_some]
  rw [Option.isSome_iff_exists]
  constructor
  · rintro ⟨⟨n, hn, hfits⟩, hexponent, hremainder⟩
    obtain ⟨v, rfl⟩ := exists_toInt hfits
    refine ⟨v, binaryInt?_eq_some.mpr ⟨hvalue.symm.trans hn, ?_, ?_⟩⟩
    · rintro rfl
      exact hexponent l r rfl _ hr
    · rintro rfl
      exact hremainder l r rfl _ _ hl hr
  · rintro ⟨v, hv⟩
    obtain ⟨hinteger, hexponent, hremainder⟩ := binaryInt?_eq_some.mp hv
    refine ⟨⟨_, hvalue.trans hinteger, fits_toInt v⟩, ?_, ?_⟩
    · rintro l' r' heq n hn
      obtain ⟨rfl, rfl, rfl⟩ := Expr.binary.inj heq
      obtain rfl := Option.some.inj (hr.symm.trans hn)
      exact hexponent rfl
    · rintro l' r' heq m n hm hn
      obtain ⟨rfl, rfl, rfl⟩ := Expr.binary.inj heq
      obtain rfl := Option.some.inj (hl.symm.trans hm)
      obtain rfl := Option.some.inj (hr.symm.trans hn)
      exact hremainder rfl

theorem self_mem_subexpressions (e : Expr) : e ∈ subexpressions e := by
  unfold subexpressions
  split <;> simp

/-- A constant is folded if and only if every part of it can be. -/
theorem evalInt_isSome_iff (e : Expr) :
    (evalInt e).isSome ↔ ∀ s ∈ subexpressions e, Foldable s := by
  fun_induction evalInt e with
  | case1 n =>
    simp [subexpressions, foldable_iff_fits, integer, fits_toInt]
  | case2 e ih | case3 e ih | case4 e ih =>
    rw [subexpressions, List.forall_mem_cons, ← ih, foldable_iff_fits (by simp), integer]
    cases he : evalInt e with
    | none => simp
    | some n => simp [integer_of_evalInt he, isSome_int64?, fits_toInt, fits_complement]
  | case5 l op r ihl ihr =>
    -- An operand without a value makes both sides false, by its induction hypothesis.
    simp only [subexpressions, List.forall_mem_cons, List.forall_mem_append, ← ihl, ← ihr]
    cases hl : evalInt l with
    | none => simp
    | some a =>
      cases hr : evalInt r with
      | none => simp
      | some b =>
        rw [foldable_binary (integer_of_evalInt hl) (integer_of_evalInt hr)]
        simp
  | case6 e =>
    have hnone : integer e = none := by
      unfold integer
      split <;> simp_all
    simp only [Option.isSome_none, Bool.false_eq_true, false_iff]
    intro h
    obtain ⟨n, hn, -⟩ := (h e (self_mem_subexpressions e)).fits
    simp [hnone] at hn

/-- The greatest 64-bit integer modulo `-2`. The value is `-1`, but the next multiple of `-2` is
`2 ^ 63`. -/
def farRemainder : Expr :=
  .binary (.const (.int 0x7fffffffffffffff)) .mod (.const (.int (-2)))

theorem evalInt_farRemainder :
    evalInt farRemainder = none ∧ integer farRemainder = some (-1) ∧
      ∀ s ∈ subexpressions farRemainder, ∃ n, integer s = some n ∧ Fits n := by
  refine ⟨rfl, rfl, ?_⟩
  simp only [farRemainder, subexpressions, List.singleton_append, List.forall_mem_cons]
  exact ⟨⟨-1, rfl, by decide⟩, ⟨_, rfl, by decide⟩, ⟨_, rfl, by decide⟩, by simp⟩

end Expr

end Comprehend
