/-! Floating-point numbers as bit patterns, and the decimal texts that denote them. A decimal
`d × 10 ^ e` denotes the number nearest to it, a half going to the even neighbour. -/
namespace Comprehend.Number

/-- The quotient of `a` by `b` rounded to the nearest natural, a half to the even one. -/
def roundHalfEven (a b : Nat) : Nat :=
  let q := a / b
  let r := a % b
  if 2 * r < b then q else if b < 2 * r then q + 1 else q + q % 2

/-- A number in the IEEE 754 format of 64 bits. -/
structure Binary64 where
  bits : UInt64
deriving DecidableEq

/-- A decimal number `digits × 10 ^ exponent`. -/
structure Decimal where
  digits : Nat
  exponent : Int
deriving DecidableEq

namespace Decimal

def text (d : Decimal) : List Char :=
  (Nat.repr d.digits).toList

/-- How many digits stand before the point when `d` is written out in full. -/
def pointAt (d : Decimal) : Int :=
  d.text.length + d.exponent

/-- The power `10 ^ n` above the line of a fraction, or below it when `n` is negative. -/
def power (n : Int) : Nat × Nat :=
  if 0 ≤ n then (Nat.pow 10 n.toNat, 1) else (1, Nat.pow 10 (-n).toNat)

/-- Without trailing zeros among the digits; `fuel` bounds how many are taken off. -/
def strip : Nat → Decimal → Decimal
  | 0, d => d
  | fuel + 1, d =>
    if d.digits ≠ 0 ∧ d.digits % 10 = 0 then strip fuel ⟨d.digits / 10, d.exponent + 1⟩ else d

/-- All digits written out, and a point only where a fraction follows it. -/
def positional (d : Decimal) : String :=
  let ds := d.text
  let p := d.pointAt
  if d.digits = 0 then "0"
  else if p ≤ 0 then "0." ++ String.ofList (List.replicate (-p).toNat '0' ++ ds)
  else if ds.length ≤ p then String.ofList (ds ++ List.replicate (p.toNat - ds.length) '0')
  else String.ofList (ds.take p.toNat) ++ "." ++ String.ofList (ds.drop p.toNat)

/-- One digit before the point, and the exponent that this leaves. -/
def scientific (d : Decimal) : String :=
  let fraction := d.text.drop 1
  let point := if fraction.isEmpty then "" else "."
  String.ofList (d.text.take 1) ++ point ++ String.ofList fraction ++ "e" ++ toString (d.pointAt - 1)

end Decimal

namespace Binary64

/-- The unit above the 52 bits of a fraction, `2 ^ 52`. -/
def hiddenBit : Nat := 0x10000000000000

def infinity : Binary64 := ⟨0x7ff0000000000000⟩

/-- The fraction `num / den` rounded to the 53 bits of a significand, or to fewer near zero.
The greatest exponent field stands for infinity, which absorbs all that lies above. -/
def ofFraction (num den : Nat) : Binary64 :=
  let scale : Int := num.log2 - den.log2
  let above (q : Int) : Nat × Nat :=
    if 0 ≤ q then (num, den * Nat.pow 2 q.toNat) else (num * Nat.pow 2 (-q).toNat, den)
  let whole := above scale
  let q : Int := max (-1074) (if whole.1 < whole.2 then scale - 53 else scale - 52)
  let scaled := above q
  let field := (q + 1074).toNat * hiddenBit + roundHalfEven scaled.1 scaled.2
  ⟨UInt64.ofNat (min field 0x7ff0000000000000)⟩

/-- The number that a decimal denotes. Beyond 310 digits before the point every value is infinite,
and below 330 zeros after it every value is zero. -/
def ofDecimal (d : Decimal) : Binary64 :=
  if d.digits = 0 then ⟨0⟩
  else if 310 < d.pointAt then infinity
  else if d.pointAt < -330 then ⟨0⟩
  else ofFraction (d.digits * (Decimal.power d.exponent).1) (Decimal.power d.exponent).2

/-- The numbers `m` and `q` with `m × 2 ^ q` the absolute value of a finite number. -/
def parts (x : Binary64) : Nat × Int :=
  let field : Nat := x.bits.toNat / hiddenBit % 0x800
  let fraction : Nat := x.bits.toNat % hiddenBit
  if field = 0 then (fraction, -1074) else (fraction + hiddenBit, (field : Int) - 1075)

def isNegative (x : Binary64) : Bool :=
  0x8000000000000000 ≤ x.bits.toNat

/-- The number is less than zero; a negative zero is not. -/
def isBelowZero (x : Binary64) : Bool :=
  0x8000000000000000 < x.bits.toNat && x.bits.toNat ≤ 0xfff0000000000000

def isFinite (x : Binary64) : Bool :=
  x.bits.toNat / hiddenBit % 0x800 ≠ 0x7ff

/-- The quarter units `4 m`, and the two ends of the interval of reals that round to a number, all
three above one denominator. The lower end lies nearer where the exponent changes. -/
def interval (x : Binary64) : Nat × Nat × Nat × Nat :=
  let (m, q) := x.parts
  let below := if m = hiddenBit ∧ -1074 < q then 1 else 2
  let up := if 2 ≤ q then Nat.pow 2 (q - 2).toNat else 1
  let den := if 2 ≤ q then 1 else Nat.pow 2 (2 - q).toNat
  (4 * m * up, (4 * m - below) * up, (4 * m + 2) * up, den)

/-- The neighbours of a number among the multiples of `10 ^ n`, as far as they denote it; the
nearer of two, and the greater of two as near. -/
def onGrid (x : Binary64) (n : Int) : Option Decimal :=
  let (value, low, high, den) := x.interval
  let (ten, unit) := Decimal.power n
  let step := den * ten
  let floor := value * unit / step
  let denotes (k : Nat) : Bool :=
    let at' := k * step
    if x.parts.1 % 2 = 0 then low * unit ≤ at' && at' ≤ high * unit
    else low * unit < at' && at' < high * unit
  let nearerAbove := step ≤ 2 * (value * unit - floor * step)
  match denotes floor, denotes (floor + 1) with
  | true, true => some ⟨if nearerAbove then floor + 1 else floor, n⟩
  | true, false => some ⟨floor, n⟩
  | false, true => some ⟨floor + 1, n⟩
  | false, false => none

/-- The position of the first digit: the greatest `n` below `bound` with `10 ^ n ≤ x`. -/
def magnitude (x : Binary64) : Nat → Int → Int
  | 0, n => n
  | fuel + 1, n =>
    let (value, _, _, den) := x.interval
    let (ten, unit) := Decimal.power n
    if den * ten ≤ value * unit then n else magnitude x fuel (n - 1)

/-- The first grid, from coarse to fine, that has a decimal for `x`. -/
def search (x : Binary64) : Nat → Int → Decimal
  | 0, n => ⟨0, n⟩
  | fuel + 1, n => (x.onGrid n).getD (search x fuel (n - 1))

/-- The decimal of fewest digits that denotes the absolute value of a finite number. -/
def shortest (x : Binary64) : Decimal :=
  if x.parts.1 = 0 then ⟨0, 0⟩
  else (x.search 18 (x.magnitude 640 310)).strip 20

/-- Spelling of a number: `finite` for the digits, words for the values that have none. -/
def spell (finite : Decimal → String) (x : Binary64) : String :=
  if x.isFinite then (if x.isNegative then "-" else "") ++ finite x.shortest
  else if x.bits.toNat % hiddenBit ≠ 0 then "NaN"
  else if x.isNegative then "-inf" else "inf"

/-- Digits written out in full, without an exponent. -/
def plain (x : Binary64) : String :=
  x.spell Decimal.positional

/-- A whole number below `10 ^ 16` shows one place after the point; others are written in full. -/
def pointed (x : Binary64) : String :=
  x.spell fun d => if 0 ≤ d.exponent && d.pointAt ≤ 16 then d.positional ++ ".0" else d.positional

/-- A number shows a point, or an exponent when it is below `10 ^ -4` or from `10 ^ 16` on. -/
def explicit (x : Binary64) : String :=
  x.spell fun d =>
    if d.digits ≠ 0 ∧ (d.pointAt < -3 ∨ 16 < d.pointAt) then d.scientific
    else if 0 ≤ d.exponent then d.positional ++ ".0"
    else d.positional

end Binary64

end Comprehend.Number
