import Comprehend.Range

/-! The numbers of a range. Its values are computed with 64-bit integers and are the mathematical
ones all the same, since each of them lies between the start and the stop. -/
namespace Comprehend.Range

variable {r : Range} {k : Nat}

/-- A number lies before the stop, in the direction of the step. -/
def Before (r : Range) (x : Int) : Prop :=
  (0 < r.step.toInt ∧ x < r.stop.toInt) ∨ (r.step.toInt < 0 ∧ r.stop.toInt < x)

def numbers (r : Range) : List Int :=
  r.values.map Int64.toInt

/-- Several steps lead in the direction of one. -/
theorem sign_steps (k : Nat) (step : Int) :
    (0 < step → 0 ≤ k * step) ∧ (step < 0 → k * step ≤ 0) := by
  constructor
  · intro h
    exact Int.mul_nonneg (Int.natCast_nonneg k) (Int.le_of_lt h)
  · intro h
    exact Int.mul_nonpos_of_nonneg_of_nonpos (Int.natCast_nonneg k) (Int.le_of_lt h)

theorem lt_stepsWithin {span step : Int} (hstep : 0 < step) :
    k < stepsWithin span step ↔ k * step < span := by
  have hquotient : (k : Int) + 1 ≤ (span + step - 1) / step ↔ (k + 1) * step ≤ span + step - 1 :=
    Int.le_ediv_iff_mul_le hstep
  have hproduct : ((k : Int) + 1) * step = k * step + step := by
    rw [Int.add_mul, Int.one_mul]
  unfold stepsWithin
  omega

/-- A range yields a value for each number of steps that stays before the stop. -/
theorem lt_len_iff : k < r.len ↔ r.Before (r.start.toInt + k * r.step.toInt) := by
  have hneg : (k : Int) * -r.step.toInt = -(k * r.step.toInt) := Int.mul_neg _ _
  have hsign := sign_steps k r.step.toInt
  unfold len Before
  split
  next hup =>
    rw [lt_stepsWithin hup.1]
    omega
  next hup =>
    split
    next hdown =>
      rw [lt_stepsWithin (by omega), hneg]
      omega
    next hdown => omega

/-- Between the start and the stop nothing overflows. -/
theorem fits_nth (h : k < r.len) : Number.Fits (r.start.toInt + k * r.step.toInt) := by
  have hbefore := lt_len_iff.mp h
  have hsign := sign_steps k r.step.toInt
  have hstart := Number.fits_toInt r.start
  have hstop := Number.fits_toInt r.stop
  unfold Before at hbefore
  unfold Number.Fits at hstart hstop ⊢
  omega

/-- The value after `k` steps is the mathematical one as long as the range has it. -/
theorem toInt_nth (h : k < r.len) : (r.nth k).toInt = r.start.toInt + k * r.step.toInt := by
  have hnth : r.nth k = Int64.ofInt (r.start.toInt + k * r.step.toInt) := by
    simp [nth, Int64.ofInt_add, Int64.ofInt_mul, Int64.ofInt_eq_ofNat]
  rw [hnth, Int64.toInt_ofInt_of_le (fits_nth h).1 (fits_nth h).2]

theorem toInt_last {x : Int64} (h : r.last = some x) :
    ∃ k, r.len = k + 1 ∧ x.toInt = r.start.toInt + k * r.step.toInt := by
  unfold last at h
  split at h
  · simp at h
  next hlen =>
    obtain ⟨k, hk⟩ := Nat.exists_eq_succ_of_ne_zero hlen
    have hfits := fits_nth (show k < r.len by omega)
    have hcount : (r.len : Int) - 1 = k := by omega
    rw [hcount, Option.some.injEq] at h
    exact ⟨k, hk, by rw [← h, Int64.toInt_ofInt_of_le hfits.1 hfits.2]⟩

theorem last_eq_none : r.last = none ↔ r.len = 0 := by
  simp [last]

theorem numbers_eq :
    r.numbers = (List.range r.len).map fun k : Nat => r.start.toInt + k * r.step.toInt := by
  rw [numbers, values, List.map_map]
  refine List.map_congr_left fun k hk => ?_
  exact toInt_nth (List.mem_range.mp hk)

theorem getElem?_numbers (k : Nat) : r.numbers[k]? =
    if k < r.len then some (r.start.toInt + k * r.step.toInt) else none := by
  rw [numbers_eq, List.getElem?_map]
  split
  next h => rw [List.getElem?_range h, Option.map_some]
  next h => rw [List.getElem?_eq_none (by simpa using h), Option.map_none]

theorem firstValues_eq_take (r : Range) (n : Nat) : r.firstValues n = r.values.take n := by
  rw [firstValues, values, ← List.map_take, List.take_range]

end Comprehend.Range
