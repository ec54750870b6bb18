/-! Signed 64-bit integers as a part of the integers: a result that does not fit is no result. -/
namespace Comprehend.Number

/-- `n` lies between the least and the greatest 64-bit integer. -/
def Fits (n : Int) : Prop :=
  -0x8000000000000000 ≤ n ∧ n < 0x8000000000000000

instance (n : Int) : Decidable (Fits n) :=
  inferInstanceAs (Decidable (_ ∧ _))

/-- The 64-bit integer of the same value, if there is one. -/
def int64? (n : Int) : Option Int64 :=
  if Fits n then some (Int64.ofInt n) else none

theorem int64?_eq_none_iff {n : Int} : int64? n = none ↔ ¬ Fits n := by
  simp [int64?]

theorem fits_toInt (a : Int64) : Fits a.toInt :=
  ⟨a.le_toInt, a.toInt_lt⟩

theorem toInt_of_int64? {n : Int} {a : Int64} (h : int64? n = some a) : a.toInt = n := by
  simp only [int64?, Option.ite_none_right_eq_some, Option.some.injEq] at h
  obtain ⟨⟨hl, hu⟩, rfl⟩ := h
  exact Int64.toInt_ofInt_of_le hl hu

@[simp] theorem int64?_toInt (a : Int64) : int64? a.toInt = some a := by
  simp [int64?, fits_toInt a]

end Comprehend.Number
