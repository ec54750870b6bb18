import Comprehend.Comprehension.Flaw
import Comprehend.Proofs.RangeExact
import Comprehend.Target.Basic

/-! Variables that are never negative. Of a range only the first and the last value are looked at.
The values between them are nowhere below both, whether the range counts up or down, and up to the
limits of 64 bits. -/
namespace Comprehend

namespace Range

variable {r : Range} {k : Nat} {x : Int64}

theorem mem_values : x ∈ r.values ↔ ∃ k < r.len, r.nth k = x := by
  simp [values]

theorem start_mem_values (h : r.len ≠ 0) : r.start ∈ r.values := by
  refine mem_values.mpr ⟨0, Nat.pos_of_ne_zero h, ?_⟩
  simp [nth]

theorem last_eq_nth (h : r.last = some x) : ∃ k, r.len = k + 1 ∧ r.nth k = x := by
  obtain ⟨k, hk, hx⟩ := toInt_last h
  refine ⟨k, hk, Int64.toInt_inj.mp ?_⟩
  rw [toInt_nth (by omega), hx]

/-- No value lies below both the first and the last one. -/
theorem start_or_last_le (hlast : r.last = some x) (hk : k < r.len) :
    r.start ≤ r.nth k ∨ x ≤ r.nth k := by
  obtain ⟨m, hm, rfl⟩ := last_eq_nth hlast
  rw [Int64.le_iff_toInt_le, Int64.le_iff_toInt_le, toInt_nth hk]
  by_cases hup : 0 < r.step.toInt
  · have hsign := (sign_steps k r.step.toInt).1 hup
    exact .inl (by omega)
  · by_cases hdown : r.step.toInt < 0
    · right
      by_cases hkm : k = m
      · rw [← hkm, toInt_nth hk]
      · have hlt := (nth_advances (by omega : k < m) (by omega)).2 hdown
        rw [toInt_nth hk] at hlt
        omega
    · have hbefore := lt_len_iff.mp hk
      unfold Before at hbefore
      omega

theorem isNonNegative_iff :
    Target.isNonNegative r = true ↔ 0 ≤ r.start ∧ ∀ x ∈ r.values, 0 ≤ x := by
  unfold Target.isNonNegative
  cases hlast : r.last with
  | none =>
    have hempty : r.values = [] := by simp [values, last_eq_none.mp hlast]
    simp [hempty]
  | some x =>
    simp only [Bool.and_eq_true, decide_eq_true_eq]
    refine and_congr_right fun hstart => ⟨fun hx y hy => ?_, fun hall => ?_⟩
    · obtain ⟨k, hk, rfl⟩ := mem_values.mp hy
      rcases start_or_last_le hlast hk with hle | hle
      · exact Int64.le_trans hstart hle
      · exact Int64.le_trans hx hle
    · obtain ⟨k, hk, hnth⟩ := last_eq_nth hlast
      exact hall x (mem_values.mpr ⟨k, by omega, hnth⟩)

end Range

namespace Comprehension

variable {c : Comprehension}

/-- Loops without a flaw bind different variables. -/
theorem nodup_of_loopsFlaw? {bound : List String} {gs : List Generator}
    (h : loopsFlaw? bound gs = none) :
    (gs.map (·.var)).Nodup ∧ ∀ g ∈ gs, g.var ∉ bound := by
  induction gs generalizing bound with
  | nil => simp
  | cons g gs ih =>
    rw [loopsFlaw?] at h
    split at h
    · cases h
    split at h
    · cases h
    split at h
    · cases h
    next hfresh _ =>
      obtain ⟨hnodup, hrest⟩ := ih h
      simp only [List.mem_cons, not_or] at hrest
      rw [List.map_cons, List.nodup_cons]
      refine ⟨⟨fun hmem => ?_, hnodup⟩, ?_⟩
      · obtain ⟨g', hg', hvar⟩ := List.mem_map.mp hmem
        exact (hrest g' hg').1 hvar
      · exact List.forall_mem_cons.mpr ⟨hfresh, fun g' hg' => (hrest g' hg').2⟩

theorem nodup_of_flaw? (h : c.flaw? = none) : (c.generators.map (·.var)).Nodup := by
  unfold flaw? at h
  split at h
  · cases h
  · exact (nodup_of_loopsFlaw? (Option.or_eq_none_iff.mp h).2).1

end Comprehension

namespace Target

variable {c : Comprehension}

theorem mem_nonNegativeVars {v : String} : v ∈ nonNegativeVars c ↔
    ∃ g ∈ c.generators, g.var = v ∧ ∃ r, g.source = .range r ∧ isNonNegative r = true := by
  have hsource (g : Generator) : g.range?.any isNonNegative = true ↔
      ∃ r, g.source = .range r ∧ isNonNegative r = true := by
    obtain ⟨var, source, filters⟩ := g
    cases source <;> simp [Generator.range?]
  simp only [nonNegativeVars, List.mem_map, List.mem_filter, hsource]
  grind

/-- The test on the ends of a range fails only for an empty range or one with a negative value. -/
theorem exists_negative {r : Range} (h : isNonNegative r = false) (hr : r.isEmpty = false) :
    ∃ x ∈ r.values, x < 0 := by
  have hlen : r.len ≠ 0 := by simpa [Range.isEmpty] using hr
  by_cases hstart : 0 ≤ r.start
  · have hnot : ¬∀ x ∈ r.values, 0 ≤ x := by
      intro hall
      rw [Range.isNonNegative_iff.mpr ⟨hstart, hall⟩] at h
      cases h
    simpa using hnot
  · exact ⟨r.start, Range.start_mem_values hlen, Int64.not_le.mp hstart⟩

/-- Of a comprehension without flaws, the variables that are taken to be never negative are those
over ranges without a negative value, apart from ranges without any value. -/
theorem nonNegativeVars_exact (h : c.flaw? = none) :
    (∀ v ∈ nonNegativeVars c, ∃ g ∈ c.generators, g.var = v) ∧
      ∀ g ∈ c.generators,
        (g.var ∈ nonNegativeVars c → ∃ r, g.source = .range r ∧ ∀ x ∈ r.values, 0 ≤ x) ∧
        ∀ r, g.source = .range r → g.var ∉ nonNegativeVars c → r.isEmpty = false →
          ∃ x ∈ r.values, x < 0 := by
  refine ⟨fun v hv => ?_, fun g hg => ⟨fun hvar => ?_, fun r hr hvar hne => ?_⟩⟩
  · obtain ⟨g, hg, hvar, -⟩ := mem_nonNegativeVars.mp hv
    exact ⟨g, hg, hvar⟩
  · obtain ⟨g', hg', heq, r, hr, hnonneg⟩ := mem_nonNegativeVars.mp hvar
    -- No other loop has the same variable, so the range is that of the loop itself.
    obtain rfl := List.inj_on_of_nodup_map (Comprehension.nodup_of_flaw? h) hg' hg heq
    exact ⟨r, hr, (Range.isNonNegative_iff.mp hnonneg).2⟩
  · refine exists_negative (Bool.eq_false_iff.mpr fun hnonneg => hvar ?_) hne
    exact mem_nonNegativeVars.mpr ⟨g, hg, rfl, r, hr, hnonneg⟩

/-- Loops that count down to zero, from the greatest integer on, and past it. -/
def countdowns : Comprehension :=
  .ofElement .list "i + j" [⟨"i", .range ⟨0x7fffffffffffffff, -1, -1⟩, []⟩,
    ⟨"j", .range ⟨2, -4, -2⟩, []⟩]

theorem nonNegativeVars_exact_countdowns :
    countdowns.flaw? = none ∧ nonNegativeVars countdowns = ["i"] ∧
      (∀ x ∈ (Range.mk 0x7fffffffffffffff (-1) (-1)).values, 0 ≤ x) ∧
      ∃ x ∈ (Range.mk 2 (-4) (-2)).values, x < 0 := by
  have hflaw : countdowns.flaw? = none := by decide
  have hvars : nonNegativeVars countdowns = ["i"] := by decide
  obtain ⟨-, hloops⟩ := nonNegativeVars_exact hflaw
  obtain ⟨r, hr, hall⟩ := (hloops ⟨"i", .range ⟨0x7fffffffffffffff, -1, -1⟩, []⟩ (by decide)).1
    (by decide)
  obtain rfl := Source.range.inj hr
  exact ⟨hflaw, hvars, hall,
    (hloops ⟨"j", .range ⟨2, -4, -2⟩, []⟩ (by decide)).2 _ rfl (by decide) (by decide)⟩

end Target

end Comprehend
