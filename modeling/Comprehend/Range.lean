import Comprehend.Number.Int64

/-! Ranges of integers with a step. Bounds and step are 64-bit integers; counts and last values are
computed over the integers, so that no range is too long to be counted. -/
namespace Comprehend

/-- The integers `start`, `start + step`, … that lie before `stop` in the direction of the step. -/
structure Range where
  start : Int64
  stop : Int64
  step : Int64 := 1
deriving DecidableEq

namespace Range

/-- The number of steps of size `step` that start within a distance `span`. -/
def stepsWithin (span step : Int) : Nat :=
  ((span + step - 1) / step).toNat

def len (r : Range) : Nat :=
  if 0 < r.step.toInt ∧ r.start.toInt < r.stop.toInt then
    stepsWithin (r.stop.toInt - r.start.toInt) r.step.toInt
  else if r.step.toInt < 0 ∧ r.stop.toInt < r.start.toInt then
    stepsWithin (r.start.toInt - r.stop.toInt) (-r.step.toInt)
  else 0

def isEmpty (r : Range) : Bool :=
  r.len == 0

def last (r : Range) : Option Int64 :=
  if r.len = 0 then none
  else some (Int64.ofInt (r.start.toInt + ((r.len : Int) - 1) * r.step.toInt))

/-- The value after `k` steps. -/
def nth (r : Range) (k : Nat) : Int64 :=
  r.start + Int64.ofNat k * r.step

def values (r : Range) : List Int64 :=
  (List.range r.len).map r.nth

/-- The values in order, `n` of them at most. -/
def firstValues (r : Range) (n : Nat) : List Int64 :=
  (List.range (min n r.len)).map r.nth

end Range

end Comprehend
