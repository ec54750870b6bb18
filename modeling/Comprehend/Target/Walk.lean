import Comprehend.Range

/-! How the targets walk a range. A range ends before its stop; some languages count up to a last
value instead, and some only count upward. -/
namespace Comprehend

/-- Numbers from `start` on, `stride` apart, as long as they lie before `stop`. -/
structure OpenWalk where
  start : Int
  stop : Int
  upward : Bool
  stride : Nat
deriving DecidableEq

/-- Numbers from `start` on, `step` apart, up to `last` and including it. -/
structure ClosedWalk where
  start : Int
  last : Int
  step : Int
deriving DecidableEq

/-- Numbers from `high` downward, `stride` apart, not below `low`. -/
structure ReverseWalk where
  low : Int
  high : Int
  stride : Nat
deriving DecidableEq

namespace Range

def isUpward (r : Range) : Bool :=
  0 < r.step

def stride (r : Range) : Nat :=
  r.step.toInt.natAbs

def openWalk (r : Range) : OpenWalk :=
  ⟨r.start.toInt, r.stop.toInt, r.isUpward, r.stride⟩

/-- The lower end is one above the stop, and never above the greatest 64-bit integer. -/
def reverseWalk (r : Range) : ReverseWalk :=
  ⟨min (r.stop.toInt + 1) 0x7fffffffffffffff, r.start.toInt, r.stride⟩

/-- A walk whose end is next to the stop, whether the range meets it or not. The end is an integer
of any size here: a range whose end is not of 64 bits, next to a stop at either limit, is left out
of what is said about targets. -/
def closedWalk (r : Range) : ClosedWalk :=
  ⟨r.start.toInt, if r.isUpward then r.stop.toInt - 1 else r.stop.toInt + 1, r.step.toInt⟩

/-- A walk that ends with the last value; an empty one ends one step before its start, and as with
`closedWalk` a range for which that is no 64-bit integer is left out. -/
def exactWalk (r : Range) : ClosedWalk :=
  match r.last with
  | some last => ⟨r.start.toInt, last.toInt, r.step.toInt⟩
  | none => ⟨r.start.toInt, r.start.toInt - r.step.toInt, r.step.toInt⟩

/-- The value at a position, `start + index * step`, as a text that is as short as the numbers
allow. -/
def affine (r : Range) (index : String) : String :=
  let grouped := if ' ' ∈ index.toList then "(" ++ index ++ ")" else index
  let term := if r.stride = 1 then index else grouped ++ " * " ++ toString r.stride
  let first := toString r.start.toInt
  if r.step < 0 then
    let taken := if r.stride = 1 then grouped else term
    if r.start = 0 then "-" ++ taken else first ++ " - " ++ taken
  else if r.start = 0 then term
  else first ++ " + " ++ term

end Range

end Comprehend
