import Comprehend.Expr.Basic
import Comprehend.Number.Int64

/-! Integer constants: the value of an expression without names, where every intermediate result is
a 64-bit integer. Division and remainder round to the floor. -/
namespace Comprehend.Expr

open Number

/-- The quotient rounded toward zero. -/
def quotient? (a b : Int64) : Option Int64 :=
  if b = 0 then none else int64? (a.toInt.tdiv b.toInt)

/-- The quotient rounded down. Operands of different signs have one that was rounded up, unless
nothing remains. -/
def floorDiv? (a b : Int64) : Option Int64 := do
  let q ← quotient? a b
  if a % b ≠ 0 ∧ ¬(a < 0 ↔ b < 0) then some (q - 1) else some q

/-- The remainder is what the product of quotient and divisor leaves; that product has to fit. -/
def floorMod? (a b : Int64) : Option Int64 := do
  let q ← floorDiv? a b
  let covered ← int64? (q.toInt * b.toInt)
  int64? (a.toInt - covered.toInt)

/-- Powers with an exponent below `2 ^ 32`. From the exponent 64 on, only the powers of `0`, `1` and
`-1` fit. -/
def power? (a b : Int64) : Option Int64 :=
  if b.toInt < 0 ∨ 0x100000000 ≤ b.toInt then none
  else if b.toInt < 64 then int64? (Int.pow a.toInt b.toInt.toNat)
  else if a = 0 ∨ a = 1 then some a
  else if a = -1 then some (if b.toInt % 2 = 0 then 1 else -1)
  else none

def binaryInt? (op : BinOp) (a b : Int64) : Option Int64 :=
  match op with
  | .add => int64? (a.toInt + b.toInt)
  | .sub => int64? (a.toInt - b.toInt)
  | .mul => int64? (a.toInt * b.toInt)
  | .floorDiv => floorDiv? a b
  | .mod => floorMod? a b
  | .pow => power? a b
  | _ => none

def evalInt : Expr → Option Int64
  | const (.int n) => some n
  | unary .neg e => (evalInt e).bind fun n => int64? (-n.toInt)
  | unary .pos e => evalInt e
  | unary .invert e => (evalInt e).map (~~~ ·)
  | binary l op r => do
    let a ← evalInt l
    let b ← evalInt r
    binaryInt? op a b
  | _ => none

end Comprehend.Expr
