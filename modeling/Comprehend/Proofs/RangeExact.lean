import Mathlib.Data.Set.Card
import Comprehend.Proofs.RangeNumbers

/-! Ranges at the limits of 64 bits. A range may have almost `2 ^ 64` values, and both the distance
of its bounds and the negative of its step may lie beyond 64 bits. Intermediate results of 128 bits
are enough: none of them overflows, and what is cut down to 64 bits at the end keeps its value. -/
namespace Comprehend

namespace Number

def FitsWide (n : Int) : Prop :=
  -0x80000000000000000000000000000000 ≤ n ∧ n < 0x80000000000000000000000000000000

instance (n : Int) : Decidable (FitsWide n) :=
  inferInstanceAs (Decidable (_ ∧ _))

/-- A result of 128-bit arithmetic, if it is one. -/
def wide? (n : Int) : Option Int :=
  if FitsWide n then some n else none

def unsigned64? (n : Int) : Option Nat :=
  if 0 ≤ n ∧ n < 0x10000000000000000 then some n.toNat else none

theorem wide?_bind {α : Type} {n : Int} (h : FitsWide n) (f : Int → Option α) :
    (wide? n >>= f) = f n := by
  rw [wide?, if_pos h, Option.bind_eq_bind, Option.bind_some]

theorem unsigned64?_eq {n : Nat} (h : n < 0x10000000000000000) : unsigned64? n = some n := by
  rw [unsigned64?, if_pos (by omega), Int.toNat_natCast]

end Number

namespace Range

open Number

variable {r : Range} {k : Nat}

/-! Counting in 128 bits -/

/-- `stepsWithin` with a quotient that truncates, where every result has to fit. -/
def wideSteps? (span step : Int) : Option Nat := do
  let sum ← wide? (span + step)
  let sum ← wide? (sum - 1)
  unsigned64? (← wide? (sum.tdiv step))

/-- `Range.len` in 128-bit arithmetic. -/
def wideLen? (r : Range) : Option Nat :=
  if 0 < r.step.toInt ∧ r.start.toInt < r.stop.toInt then do
    let span ← wide? (r.stop.toInt - r.start.toInt)
    wideSteps? span r.step.toInt
  else if r.step.toInt < 0 ∧ r.stop.toInt < r.start.toInt then do
    let span ← wide? (r.start.toInt - r.stop.toInt)
    let step ← wide? (-r.step.toInt)
    wideSteps? span step
  else some 0

def wideLast? (r : Range) : Option (Option Int64) := do
  let n ← r.wideLen?
  if n = 0 then return none
  let steps ← wide? (n - 1)
  let distance ← wide? (steps * r.step.toInt)
  let x ← wide? (r.start.toInt + distance)
  return some (← int64? x)

/-- Steps are at least as long as one, so that there are no more of them than the span is long. -/
theorem stepsWithin_le {span step : Int} (hspan : 0 ≤ span) (hstep : 0 < step) :
    stepsWithin span step ≤ span := by
  have hall : ¬ span.toNat < stepsWithin span step := by
    have hlong : span * 1 ≤ span * step := Int.mul_le_mul_of_nonneg_left (by omega) hspan
    rw [lt_stepsWithin hstep, Int.toNat_of_nonneg hspan]
    omega
  omega

theorem wideSteps?_eq {span step : Int} (hspan : 0 ≤ span) (hspan' : span < 0x10000000000000000)
    (hstep : 0 < step) (hstep' : step ≤ 0x8000000000000000) :
    wideSteps? span step = some (stepsWithin span step) := by
  have hle := stepsWithin_le hspan hstep
  have hquotient : (span + step - 1).tdiv step = stepsWithin span step := by
    have hnonneg : 0 ≤ (span + step - 1) / step := Int.ediv_nonneg (by omega) (by omega)
    rw [Int.tdiv_eq_ediv_of_nonneg (by omega), stepsWithin, Int.toNat_of_nonneg hnonneg]
  have hsum : FitsWide (span + step) := by unfold FitsWide; omega
  have hsum' : FitsWide (span + step - 1) := by unfold FitsWide; omega
  have hcount : FitsWide (stepsWithin span step) := by unfold FitsWide; omega
  have hbound : stepsWithin span step < 0x10000000000000000 := by omega
  rw [wideSteps?, wide?_bind hsum, wide?_bind hsum', hquotient, wide?_bind hcount,
    unsigned64?_eq hbound]

theorem wideLen?_eq (r : Range) : r.wideLen? = some r.len := by
  have hstart := fits_toInt r.start
  have hstop := fits_toInt r.stop
  have hstep := fits_toInt r.step
  unfold Fits at hstart hstop hstep
  unfold wideLen? len
  split
  next hup =>
    have hspan : FitsWide (r.stop.toInt - r.start.toInt) := by unfold FitsWide; omega
    rw [wide?_bind hspan]
    exact wideSteps?_eq (by omega) (by omega) hup.1 (by omega)
  next =>
    split
    next hdown =>
      have hspan : FitsWide (r.start.toInt - r.stop.toInt) := by unfold FitsWide; omega
      have hneg : FitsWide (-r.step.toInt) := by unfold FitsWide; omega
      rw [wide?_bind hspan, wide?_bind hneg]
      exact wideSteps?_eq (by omega) (by omega) (by omega) (by omega)
    next => rfl

theorem len_lt (r : Range) : r.len < 0x10000000000000000 := by
  have hstart := fits_toInt r.start
  have hstop := fits_toInt r.stop
  unfold Fits at hstart hstop
  unfold len
  split
  next hup =>
    have hspan : 0 ≤ r.stop.toInt - r.start.toInt := by omega
    have hle := stepsWithin_le hspan hup.1
    omega
  next =>
    split
    next hdown =>
      have hspan : 0 ≤ r.start.toInt - r.stop.toInt := by omega
      have hstep : 0 < -r.step.toInt := by omega
      have hle := stepsWithin_le hspan hstep
      omega
    next => omega

theorem wideLast?_eq (r : Range) : r.wideLast? = some r.last := by
  unfold wideLast? last
  rw [wideLen?_eq, Option.bind_eq_bind, Option.bind_some]
  by_cases hempty : r.len = 0
  · rw [if_pos hempty, if_pos hempty]
    rfl
  · obtain ⟨k, hk⟩ := Nat.exists_eq_succ_of_ne_zero hempty
    have hlt := r.len_lt
    have hlast : Fits (r.start.toInt + k * r.step.toInt) := fits_nth (by omega)
    have hstart := fits_toInt r.start
    have hbounds := hlast
    unfold Fits at hbounds hstart
    have hcount : (r.len : Int) - 1 = k := by omega
    have hsteps : FitsWide k := by unfold FitsWide; omega
    have hdistance : FitsWide (k * r.step.toInt) := by unfold FitsWide; omega
    have hsum : FitsWide (r.start.toInt + k * r.step.toInt) := by unfold FitsWide; omega
    rw [if_neg hempty, if_neg hempty, hcount, wide?_bind hsteps, wide?_bind hdistance,
      wide?_bind hsum, int64?, if_pos hlast]
    rfl

/-! The values -/

theorem encard_before (r : Range) :
    {k : Nat | r.Before (r.start.toInt + k * r.step.toInt)}.encard = r.len := by
  have hsteps : {k : Nat | r.Before (r.start.toInt + k * r.step.toInt)} = Finset.range r.len := by
    ext k
    rw [Set.mem_ofPred_eq, ← lt_len_iff, Finset.coe_range, Set.mem_Iio]
  rw [hsteps, Set.encard_coe_eq_coe_finsetCard, Finset.card_range]

/-- Later values lie further in the direction of the step. -/
theorem nth_advances {i j : Nat} (hij : i < j) (hj : j < r.len) :
    (0 < r.step.toInt → (r.nth i).toInt < (r.nth j).toInt) ∧
      (r.step.toInt < 0 → (r.nth j).toInt < (r.nth i).toInt) := by
  obtain ⟨m, rfl⟩ := Nat.exists_eq_add_of_lt hij
  have hsign := sign_steps m r.step.toInt
  have hdistance : ((i + m + 1 : Nat) : Int) * r.step.toInt =
      i * r.step.toInt + m * r.step.toInt + r.step.toInt := by
    simp [Int.add_mul]
  rw [toInt_nth (Nat.lt_trans hij hj), toInt_nth hj, hdistance]
  omega

theorem pairwise_values {R : Int64 → Int64 → Prop}
    (h : ∀ i j, i < j → j < r.len → R (r.nth i) (r.nth j)) : r.values.Pairwise R := by
  rw [values, List.pairwise_map]
  refine List.Pairwise.imp_of_mem ?_ List.pairwise_lt_range
  intro i j _ hj hij
  exact h i j hij (List.mem_range.mp hj)

/-- Range arithmetic is exact up to the limits of 64 bits. The length is the number of steps that
lead to a value before the stop, and it is computed without overflow or loss. A range without
values has no last one; any other ends with the value of the last step, the next one being no
longer before the stop. The values, although computed modulo `2 ^ 64`, are those of the steps. -/
theorem len_last_values_exact (r : Range) :
    {k : Nat | r.Before (r.start.toInt + k * r.step.toInt)}.encard = r.len ∧
    (r.step = 0 → r.len = 0) ∧
    r.wideLen? = some r.len ∧
    r.wideLast? = some r.last ∧
    (r.isEmpty = true ↔ r.len = 0) ∧
    (r.last = none ↔ r.len = 0) ∧
    (r.len ≠ 0 → ∃ x, r.last = some x ∧
      x.toInt = r.start.toInt + ((r.len : Int) - 1) * r.step.toInt ∧
      r.Before x.toInt ∧ ¬r.Before (r.start.toInt + r.len * r.step.toInt)) ∧
    r.values.map Int64.toInt =
      (List.range r.len).map (fun k : Nat => r.start.toInt + k * r.step.toInt) ∧
    (0 < r.step → r.values.Pairwise (· < ·)) ∧
    (r.step < 0 → r.values.Pairwise (· > ·)) := by
  refine ⟨r.encard_before, ?_, r.wideLen?_eq, r.wideLast?_eq, by simp [isEmpty], last_eq_none, ?_,
    numbers_eq, ?_, ?_⟩
  · intro hstep
    simp [len, hstep]
  · intro hlen
    obtain ⟨x, hx⟩ := Option.ne_none_iff_exists'.mp (mt last_eq_none.mp hlen)
    obtain ⟨k, hk, hvalue⟩ := toInt_last hx
    have hcount : (r.len : Int) - 1 = k := by omega
    refine ⟨x, hx, ?_, ?_, ?_⟩
    · rw [hvalue, hcount]
    · rw [hvalue]
      exact lt_len_iff.mp (by omega)
    · rw [← lt_len_iff]
      exact Nat.lt_irrefl _
  · intro hup
    refine pairwise_values fun i j hij hj => ?_
    rw [Int64.lt_iff_toInt_lt, Int64.toInt_zero] at hup
    exact Int64.lt_iff_toInt_lt.mpr ((nth_advances hij hj).1 hup)
  · intro hdown
    refine pairwise_values fun i j hij hj => ?_
    rw [Int64.lt_iff_toInt_lt, Int64.toInt_zero] at hdown
    exact Int64.lt_iff_toInt_lt.mpr ((nth_advances hij hj).2 hdown)

/-- All 64-bit integers but the greatest one. -/
def widest : Range :=
  ⟨-0x8000000000000000, 0x7fffffffffffffff, 1⟩

theorem len_last_values_exact_widest :
    widest.len ≠ 0 ∧ widest.wideLen? = some 0xffffffffffffffff ∧
      ∃ x, widest.last = some x ∧ x.toInt = 0x7ffffffffffffffe ∧ widest.Before x.toInt := by
  have hlen : widest.len = 0xffffffffffffffff := by decide
  obtain ⟨-, -, hwide, -, -, -, hlast, -⟩ := len_last_values_exact widest
  have hne : widest.len ≠ 0 := by decide
  obtain ⟨x, hx, hvalue, hbefore, -⟩ := hlast hne
  rw [hlen] at hwide hvalue
  exact ⟨hne, hwide, x, hx, hvalue, hbefore⟩

end Range

end Comprehend
