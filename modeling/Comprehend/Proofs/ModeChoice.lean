import Comprehend.Proofs.Gates
import Comprehend.Proofs.RangeExact

/-! The choice of a mode. Left open by the request, it falls on operations over whole arrays for a
single range whose bounds are close to each other. The distance of the bounds is a limit to the
number of values, except for ranges that count down. -/
namespace Comprehend

namespace Range

def CountsDown (s : Range) : Prop :=
  s.step.toInt < 0 ∧ s.stop.toInt < s.start.toInt

instance (s : Range) : Decidable s.CountsDown :=
  inferInstanceAs (Decidable (_ ∧ _))

/-- Steps upward are not shorter than one. -/
theorem len_le_distance {s : Range} (h : ¬s.CountsDown) :
    s.len ≤ (s.stop.toInt - s.start.toInt).toNat := by
  unfold len
  split
  next hup =>
    have hspan : 0 ≤ s.stop.toInt - s.start.toInt := by omega
    have hle := stepsWithin_le hspan hup.1
    omega
  next => exact (if_neg h).trans_le (Nat.zero_le _)

end Range

namespace Strategy

variable {c : Comprehension} {r : Request} {n : Nat}

theorem smallBroadcast_notMem_chooseFlavor : .smallBroadcast n ∉ (chooseFlavor c r).2 := by
  unfold chooseFlavor
  split
  · dsimp only
    split
    next f _ => cases f <;> cases r.unchecked <;> simp [flavorNote]
    next => cases r.unchecked <;> simp
  · simp

/-- A broadcast is remarked on where the mode is chosen, and nowhere else. -/
theorem smallBroadcast_mem_decide :
    .smallBroadcast n ∈ (decide c r).notes ↔ .smallBroadcast n ∈ (chooseMode c r).2 := by
  have hflavor : .smallBroadcast n ∉ (chooseFlavor c r).2 := smallBroadcast_notMem_chooseFlavor
  unfold decide
  dsimp only
  split
  · simp [hflavor]
  · simp [hflavor]

/-- A comprehension with a collection or a single value as its result, and without filters. -/
def IsWhole (c : Comprehension) : Prop :=
  (c.shape = .list ∨ c.shape = .set ∨ c.reduction.isSome = true) ∧ c.hasFilters = false

theorem few_iff :
    (n ≤ broadcastThreshold && (c.shape = .list || c.shape = .set || c.reduction.isSome) &&
      !c.hasFilters) = true ↔ n ≤ broadcastThreshold ∧ IsWhole c := by
  simp [IsWhole, and_assoc, or_assoc]

/-- A mode that is left open is a broadcast for few elements of a whole, and loops for all else. -/
theorem chooseMode_auto (hmode : r.mode = .auto) :
    (∃ n, estimate c r.count = some n ∧ n ≤ broadcastThreshold ∧ IsWhole c ∧
      chooseMode c r = (.broadcast, [.smallBroadcast n])) ∨
    chooseMode c r = (.loops, [.autoLoops c.shape]) := by
  unfold chooseMode
  rw [hmode]
  dsimp only
  cases hestimate : estimate c r.count with
  | none => exact .inr rfl
  | some n =>
    dsimp only
    split
    next hfew =>
      obtain ⟨hsmall, hwhole⟩ := few_iff.mp hfew
      exact .inl ⟨n, rfl, hsmall, hwhole, rfl⟩
    next => exact .inr rfl

/-- Without a count, only a single range is estimated, by the distance of its bounds. -/
theorem estimate_eq_some (hfilters : c.hasFilters = false) (h : estimate c none = some n) :
    ∃ g s, c.generators = [g] ∧ g.source = .range s ∧
      n = min (s.stop.toInt - s.start.toInt).toNat 0x7fffffffffffffff := by
  unfold estimate at h
  split at h
  next hsome => cases hsome
  next g _ hg =>
    simp only [Comprehension.hasFilters, hg, List.any_cons, List.any_nil, Bool.or_false,
      Bool.not_eq_false'] at hfilters
    simp only [hfilters, if_true, Generator.range?] at h
    split at h
    next s hs => exact ⟨g, s, hg, hs, by simpa using h.symm⟩
    next => simp at h
  next => simp at h

/-- A broadcast that is chosen on its own account runs over a single range, with bounds at most
10000 apart. So there are at most 10000 values, unless the range counts down. -/
theorem broadcast_small (hmode : r.mode = .auto) (hcount : r.count = none)
    (h : (decide c r).mode = .broadcast ∨ ∃ n, .smallBroadcast n ∈ (decide c r).notes) :
    ∃ g s, c.generators = [g] ∧ g.source = .range s ∧
      s.stop.toInt - s.start.toInt ≤ 10000 ∧ (¬s.CountsDown → s.values.length ≤ 10000) := by
  rcases chooseMode_auto (c := c) hmode with ⟨n, hestimate, hsmall, hwhole, -⟩ | hloops
  · unfold broadcastThreshold at hsmall
    rw [hcount] at hestimate
    obtain ⟨g, s, hg, hs, hdistance⟩ := estimate_eq_some hwhole.2 hestimate
    refine ⟨g, s, hg, hs, by omega, fun hup => ?_⟩
    have hlen := Range.len_le_distance hup
    rw [Range.values, List.length_map, List.length_range]
    omega
  · -- A parallel run makes loops of a broadcast, never the other way around.
    rcases h with hbroadcast | ⟨n, hn⟩
    · rw [decide_mode, hloops] at hbroadcast
      split at hbroadcast <;> simp at hbroadcast
    · rw [smallBroadcast_mem_decide, hloops] at hn
      simp at hn

/-- A list over a range of 21 values in steps of five. -/
def everyFifth : Comprehension :=
  .ofElement .list "x" [⟨"x", .range ⟨-50, 51, 5⟩, []⟩]

theorem broadcast_small_everyFifth :
    (decide everyFifth {}).mode = .broadcast ∧
      ∃ g s, everyFifth.generators = [g] ∧ g.source = .range s ∧ ¬s.CountsDown ∧
        s.values.length ≤ 10000 := by
  have hmode : (decide everyFifth {}).mode = .broadcast := rfl
  obtain ⟨g, s, hg, hs, -, hlength⟩ := broadcast_small rfl rfl (.inl hmode)
  obtain rfl := List.singleton_inj.mp hg
  obtain rfl := Source.range.inj hs
  have hup : ¬(Range.mk (-50) 51 5).CountsDown := by decide
  exact ⟨hmode, _, _, rfl, rfl, hup, hlength hup⟩

/-- A list over a range that counts down from 100000. -/
def countdown : Comprehension :=
  .ofElement .list "x" [⟨"x", .range ⟨100000, 0, -1⟩, []⟩]

/-- The distance of its bounds makes a range that counts down seem empty. -/
theorem broadcast_countdown :
    ¬∀ (c : Comprehension) (r : Request), r.mode = .auto → r.count = none →
      (∃ n, .smallBroadcast n ∈ (decide c r).notes) →
        ∃ g s, c.generators = [g] ∧ g.source = .range s ∧ s.values.length ≤ 10000 := by
  intro h
  have hnote : Note.smallBroadcast 0 ∈ (decide countdown {}).notes := List.mem_singleton_self _
  obtain ⟨g, s, hg, hs, hlength⟩ := h countdown {} rfl rfl ⟨0, hnote⟩
  obtain rfl := List.singleton_inj.mp hg
  obtain rfl := Source.range.inj hs
  rw [Range.values, List.length_map, List.length_range] at hlength
  exact absurd hlength (by decide)

end Strategy

end Comprehend
