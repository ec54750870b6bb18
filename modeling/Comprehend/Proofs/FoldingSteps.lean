import Comprehend.Proofs.Constants

/-! Folding, operation by operation. Some operations on 64-bit integers look for overflow and some
do not; a record of all that are performed shows that none of them overflows where a value comes
out. -/
namespace Comprehend

/-! Operations -/

namespace Number

inductive Operation where
  | neg (a : Int64)
  | complement (a : Int64)
  | add (a b : Int64)
  | sub (a b : Int64)
  | mul (a b : Int64)
  | quotient (a b : Int64)
  | remainder (a b : Int64)
  | power (a : Int64) (n : Nat)

namespace Operation

def exact : Operation → Int
  | neg a => -a.toInt
  | complement a => -a.toInt - 1
  | add a b => a.toInt + b.toInt
  | sub a b => a.toInt - b.toInt
  | mul a b => a.toInt * b.toInt
  | quotient a b => a.toInt.tdiv b.toInt
  | remainder a b => a.toInt.tmod b.toInt
  | power a n => a.toInt ^ n

/-- The operation neither divides by zero nor overflows. A remainder comes with its quotient, and
overflows where that does. -/
def Safe : Operation → Prop
  | quotient a b | remainder a b => b ≠ 0 ∧ Fits (a.toInt.tdiv b.toInt)
  | op => Fits op.exact

instance : (op : Operation) → Decidable op.Safe
  | quotient .. | remainder .. => inferInstanceAs (Decidable (_ ∧ _))
  | neg .. | complement .. | add .. | sub .. | mul .. | power .. =>
    inferInstanceAs (Decidable (Fits _))

/-- The result modulo `2 ^ 64`, which is there in any case. -/
def wrapped (op : Operation) : Int64 :=
  .ofInt op.exact

def checked? (op : Operation) : Option Int64 :=
  if op.Safe then some op.wrapped else none

theorem wrapped_remainder (a b : Int64) : (remainder a b).wrapped = a % b := by
  rw [wrapped, exact, ← Int64.toInt_mod, Int64.ofInt_toInt]

theorem wrapped_complement (a : Int64) : (complement a).wrapped = ~~~a := by
  rw [wrapped, exact, ← Expr.toInt_complement, Int64.ofInt_toInt]

theorem wrapped_sub (a b : Int64) : (sub a b).wrapped = a - b := by
  rw [wrapped, exact, Int64.ofInt_sub, Int64.ofInt_toInt, Int64.ofInt_toInt]

theorem checked?_quotient (a b : Int64) : (quotient a b).checked? = Expr.quotient? a b := by
  unfold checked? Expr.quotient? int64?
  by_cases hb : b = 0
  · simp [Safe, hb]
  · simp [Safe, hb, wrapped, exact]

end Operation

/-- A computation that may give up, with the operations that it has performed. -/
structure Recorded (α : Type) where
  value : Option α
  performed : List Operation

namespace Recorded

variable {α β : Type}

instance : Monad Recorded where
  pure a := ⟨some a, []⟩
  bind x f :=
    match x.value with
    | some a => ⟨(f a).value, x.performed ++ (f a).performed⟩
    | none => ⟨none, x.performed⟩

def checked (op : Operation) : Recorded Int64 :=
  ⟨op.checked?, [op]⟩

def unchecked (op : Operation) : Recorded Int64 :=
  ⟨some op.wrapped, [op]⟩

def giveUp : Recorded α :=
  ⟨none, []⟩

@[simp] theorem value_checked (op : Operation) : (checked op).value = op.checked? := rfl

@[simp] theorem value_unchecked (op : Operation) : (unchecked op).value = some op.wrapped := rfl

@[simp] theorem value_giveUp : (giveUp : Recorded α).value = none := rfl

@[simp] theorem value_bind (x : Recorded α) (f : α → Recorded β) :
    (x >>= f).value = x.value.bind fun a => (f a).value := by
  obtain ⟨_ | a, ops⟩ := x
  · rfl
  · rfl

/-- If there is a value in the end, no operation has gone wrong on the way. -/
def Safe (x : Recorded α) : Prop :=
  ∀ a, x.value = some a → ∀ op ∈ x.performed, op.Safe

theorem safe_pure (a : α) : Safe (pure a) := by
  intro _ _ op hop
  simp [pure] at hop

theorem safe_giveUp : Safe (giveUp : Recorded α) := by
  intro a ha
  simp at ha

theorem safe_checked (op : Operation) : Safe (checked op) := by
  intro a ha op' hop
  obtain rfl := List.mem_singleton.mp hop
  simp only [value_checked, Operation.checked?, Option.ite_none_right_eq_some] at ha
  exact ha.1

theorem safe_unchecked {op : Operation} (h : op.Safe) : Safe (unchecked op) := by
  intro a _ op' hop
  obtain rfl := List.mem_singleton.mp hop
  exact h

theorem Safe.bind {x : Recorded α} {f : α → Recorded β} (hx : Safe x)
    (hf : ∀ a, x.value = some a → Safe (f a)) : Safe (x >>= f) := by
  intro b hb op hop
  rw [value_bind] at hb
  obtain ⟨a, ha, hb⟩ := Option.bind_eq_some_iff.mp hb
  obtain ⟨value, ops⟩ := x
  obtain rfl : value = some a := ha
  rcases List.mem_append.mp hop with hop | hop
  · exact hx a rfl op hop
  · exact hf a rfl b hb op hop

end Recorded

end Number

namespace Expr

open Number Recorded

variable {a b : Int64}

/-! Folding, operation by operation -/

/-- The steps of `floorDiv?`. -/
def floorDivision (a b : Int64) : Recorded Int64 := do
  let q ← checked (.quotient a b)
  let rest ← unchecked (.remainder a b)
  if rest ≠ 0 ∧ ¬(a < 0 ↔ b < 0) then unchecked (.sub q 1) else pure q

def floorRemainder (a b : Int64) : Recorded Int64 := do
  let q ← floorDivision a b
  let covered ← checked (.mul q b)
  checked (.sub a covered)

def binaryOperation (op : BinOp) (a b : Int64) : Recorded Int64 :=
  match op with
  | .add => checked (.add a b)
  | .sub => checked (.sub a b)
  | .mul => checked (.mul a b)
  | .floorDiv => floorDivision a b
  | .mod => floorRemainder a b
  | .pow =>
    if b.toInt < 0 ∨ 0x100000000 ≤ b.toInt then giveUp else checked (.power a b.toInt.toNat)
  | _ => giveUp

def evaluation : Expr → Recorded Int64
  | const (.int n) => pure n
  | unary .neg e => do checked (.neg (← evaluation e))
  | unary .pos e => evaluation e
  | unary .invert e => do unchecked (.complement (← evaluation e))
  | binary l op r => do
    let a ← evaluation l
    let b ← evaluation r
    binaryOperation op a b
  | _ => giveUp

theorem value_floorDivision (a b : Int64) : (floorDivision a b).value = floorDiv? a b := by
  simp only [floorDivision, floorDiv?, value_bind, value_checked, value_unchecked,
    Operation.checked?_quotient, Operation.wrapped_remainder, Option.bind_some, Option.bind_eq_bind]
  congr 1
  funext q
  split
  · rw [value_unchecked, Operation.wrapped_sub]
  · rfl

theorem value_floorRemainder (a b : Int64) : (floorRemainder a b).value = floorMod? a b := by
  simp only [floorRemainder, value_bind, value_floorDivision]
  rfl

theorem value_binaryOperation (op : BinOp) (a b : Int64) :
    (binaryOperation op a b).value = binaryInt? op a b := by
  cases op with
  | floorDiv => exact value_floorDivision a b
  | mod => exact value_floorRemainder a b
  | pow =>
    refine Option.ext fun v => ?_
    rw [binaryInt?, power?_eq_some, binaryOperation]
    split
    next hrange =>
      simp only [value_giveUp, reduceCtorEq, false_iff]
      omega
    next hrange =>
      rw [and_iff_right (by omega)]
      exact int64?_eq_some
  | _ => rfl

theorem value_evaluation (e : Expr) : (evaluation e).value = evalInt e := by
  fun_induction evalInt e with
  | case1 n => rfl
  | case2 e ih =>
    rw [evaluation, value_bind, ih]
    rfl
  | case3 e ih => exact ih
  | case4 e ih =>
    simp only [evaluation, value_bind, ih, value_unchecked, Operation.wrapped_complement]
    rw [Option.map_eq_bind]
    rfl
  | case5 l op r ihl ihr =>
    simp only [evaluation, value_bind, ihl, ihr, value_binaryOperation]
    rfl
  | case6 e => simp_all [evaluation]

theorem safe_floorDivision (a b : Int64) : Safe (floorDivision a b) := by
  refine (safe_checked _).bind fun q hq => ?_
  rw [value_checked, Operation.checked?_quotient, quotient?_eq_some] at hq
  have hrem : (Operation.remainder a b).Safe :=
    ⟨mt eq_zero_iff.mp hq.1, hq.2 ▸ fits_toInt q⟩
  refine (safe_unchecked hrem).bind fun rest hrest => ?_
  rw [value_unchecked, Operation.wrapped_remainder, Option.some.injEq] at hrest
  subst hrest
  split
  next hup =>
    have hlowered := (fits_inexact (fits_toInt a) (rounds_up_iff.mp hup).1).2
    rw [← hq.2] at hlowered
    exact safe_unchecked hlowered
  next => exact safe_pure q

theorem safe_binaryOperation (op : BinOp) (a b : Int64) : Safe (binaryOperation op a b) := by
  cases op with
  | add | sub | mul => exact safe_checked _
  | floorDiv => exact safe_floorDivision a b
  | mod =>
    refine (safe_floorDivision a b).bind fun q _ => ?_
    exact (safe_checked _).bind fun covered _ => safe_checked _
  | pow =>
    rw [binaryOperation]
    split
    · exact safe_giveUp
    · exact safe_checked _
  | div | bitAnd | bitOr | bitXor | shl | shr => exact safe_giveUp

theorem safe_evaluation (e : Expr) : Safe (evaluation e) := by
  fun_induction evaluation e with
  | case1 n => exact safe_pure n
  | case2 e ih => exact ih.bind fun n _ => safe_checked _
  | case3 e ih => exact ih
  | case4 e ih => exact ih.bind fun n _ => safe_unchecked (fits_complement n)
  | case5 l op r ihl ihr =>
    exact ihl.bind fun a _ => ihr.bind fun b _ => safe_binaryOperation op a b
  | case6 => exact safe_giveUp

end Expr

end Comprehend
