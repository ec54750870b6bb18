import Comprehend.Proofs.Cursor
import Comprehend.Proofs.ExpressionText

/-! Reading expressions with a cursor. The readers do what those of the tokens ahead do, in the same
order; each of them leaves the cursor within the tokens, wherever it stops. -/
namespace Comprehend

namespace Cursor

open Traced
open Comprehend.Expr (binaryOperator? signOperator? signed chained parenthesized)

/-! Readers -/

/-- The comparison operator at the cursor, and whether it has a second token. -/
def comparison? (ts : List Token) (pos : Nat) : Option (CmpOp × Bool) :=
  match kindAt ts pos with
  | .eqEq => some (.eq, false)
  | .notEq => some (.notEq, false)
  | .lt => some (.lt, false)
  | .gt => some (.gt, false)
  | .ltEq => some (.ltEq, false)
  | .gtEq => some (.gtEq, false)
  | .kwIn => some (.isIn, false)
  | .kwNot => if kindAt ts (pos + 1) = .kwIn then some (.notIn, true) else none
  | .kwIs => if kindAt ts (pos + 1) = .kwNot then some (.notSame, true) else some (.same, false)
  | _ => none

def passOperator (ts : List Token) (two : Bool) (pos : Nat) : Traced Nat := do
  let (_, pos) ← advance ts pos
  if two then
    let (_, pos) ← advance ts pos
    return pos
  else return pos

mutual

def expression (ts : List Token) : (fuel pos : Nat) → Traced (Expr × Nat)
  | 0, _ => outOfFuel
  | fuel + 1, pos => do
    if kindAt ts pos = .kwLambda then failAt ts .lambda pos
    else
      let (body, pos) ← disjunction ts fuel pos
      if kindAt ts pos = .kwIf then
        let (_, pos) ← advance ts pos
        let (cond, pos) ← disjunction ts fuel pos
        let pos ← expect ts .kwElse pos
        let (no, pos) ← expression ts fuel pos
        return (.ternary cond body no, pos)
      else return (body, pos)
termination_by structural fuel => fuel

def disjunction (ts : List Token) : (fuel pos : Nat) → Traced (Expr × Nat)
  | 0, _ => outOfFuel
  | fuel + 1, pos => do
    let (l, pos) ← conjunction ts fuel pos
    disjunctionTail ts fuel l pos
termination_by structural fuel => fuel

def disjunctionTail (ts : List Token) : (fuel : Nat) → Expr → (pos : Nat) → Traced (Expr × Nat)
  | 0, _, _ => outOfFuel
  | fuel + 1, l, pos => do
    if kindAt ts pos = .kwOr then
      let (_, pos) ← advance ts pos
      let (r, pos) ← conjunction ts fuel pos
      disjunctionTail ts fuel (.boolOp .or l r) pos
    else return (l, pos)
termination_by structural fuel => fuel

def conjunction (ts : List Token) : (fuel pos : Nat) → Traced (Expr × Nat)
  | 0, _ => outOfFuel
  | fuel + 1, pos => do
    let (l, pos) ← negation ts fuel pos
    conjunctionTail ts fuel l pos
termination_by structural fuel => fuel

def conjunctionTail (ts : List Token) : (fuel : Nat) → Expr → (pos : Nat) → Traced (Expr × Nat)
  | 0, _, _ => outOfFuel
  | fuel + 1, l, pos => do
    if kindAt ts pos = .kwAnd then
      let (_, pos) ← advance ts pos
      let (r, pos) ← negation ts fuel pos
      conjunctionTail ts fuel (.boolOp .and l r) pos
    else return (l, pos)
termination_by structural fuel => fuel

def negation (ts : List Token) : (fuel pos : Nat) → Traced (Expr × Nat)
  | 0, _ => outOfFuel
  | fuel + 1, pos => do
    if kindAt ts pos = .kwNot then
      let (_, pos) ← advance ts pos
      let (e, pos) ← negation ts fuel pos
      return (.unary .not e, pos)
    else comparison ts fuel pos
termination_by structural fuel => fuel

def comparison (ts : List Token) : (fuel pos : Nat) → Traced (Expr × Nat)
  | 0, _ => outOfFuel
  | fuel + 1, pos => do
    let (first, pos) ← ladder ts fuel 0 pos
    comparisonTail ts fuel none first pos
termination_by structural fuel => fuel

def comparisonTail (ts : List Token) : (fuel : Nat) → (sofar : Option Expr) → (l : Expr) →
    (pos : Nat) → Traced (Expr × Nat)
  | 0, _, _, _ => outOfFuel
  | fuel + 1, sofar, l, pos => do
    match comparison? ts pos with
    | some (op, two) =>
      let pos ← passOperator ts two pos
      let (r, pos) ← ladder ts fuel 0 pos
      comparisonTail ts fuel (some (chained sofar (.compare l op r))) r pos
    | none => return (sofar.getD l, pos)
termination_by structural fuel => fuel

def ladder (ts : List Token) : (fuel least pos : Nat) → Traced (Expr × Nat)
  | 0, _, _ => outOfFuel
  | fuel + 1, least, pos => do
    let (l, pos) ← sign ts fuel pos
    ladderTail ts fuel least l pos
termination_by structural fuel => fuel

def ladderTail (ts : List Token) : (fuel least : Nat) → Expr → (pos : Nat) → Traced (Expr × Nat)
  | 0, _, _, _ => outOfFuel
  | fuel + 1, least, l, pos => do
    match binaryOperator? (kindAt ts pos) with
    | some op =>
      if op.precedence < least then return (l, pos)
      else
        let (_, pos) ← advance ts pos
        let (r, pos) ← ladder ts fuel (op.precedence + 1) pos
        ladderTail ts fuel least (.binary l op r) pos
    | none => return (l, pos)
termination_by structural fuel => fuel

def sign (ts : List Token) : (fuel pos : Nat) → Traced (Expr × Nat)
  | 0, _ => outOfFuel
  | fuel + 1, pos => do
    match signOperator? (kindAt ts pos) with
    | some op =>
      let (_, pos) ← advance ts pos
      let (e, pos) ← sign ts fuel pos
      return (signed op e, pos)
    | none => power ts fuel pos
termination_by structural fuel => fuel

def power (ts : List Token) : (fuel pos : Nat) → Traced (Expr × Nat)
  | 0, _ => outOfFuel
  | fuel + 1, pos => do
    let (base, pos) ← trailer ts fuel pos
    if kindAt ts pos = .starStar then
      let (_, pos) ← advance ts pos
      let (exponent, pos) ← sign ts fuel pos
      return (.binary base .pow exponent, pos)
    else return (base, pos)
termination_by structural fuel => fuel

def trailer (ts : List Token) : (fuel pos : Nat) → Traced (Expr × Nat)
  | 0, _ => outOfFuel
  | fuel + 1, pos => do
    let (e, pos) ← primary ts fuel pos
    trailerTail ts fuel e pos
termination_by structural fuel => fuel

def trailerTail (ts : List Token) : (fuel : Nat) → Expr → (pos : Nat) → Traced (Expr × Nat)
  | 0, _, _ => outOfFuel
  | fuel + 1, e, pos => do
    match kindAt ts pos with
    | .lparen =>
      let (_, pos) ← advance ts pos
      let ((args, _), pos) ← sequence ts fuel .rparen false pos
      trailerTail ts fuel (.call e args) pos
    | .dot =>
      let (_, pos) ← advance ts pos
      let (field, pos) ← expectIdent ts pos
      trailerTail ts fuel (.member e field) pos
    | .lbracket =>
      let (_, pos) ← advance ts pos
      let (index, pos) ← expression ts fuel pos
      if kindAt ts pos = .colon then failAt ts .slice pos
      else
        let pos ← expect ts .rbracket pos
        trailerTail ts fuel (.subscript e index) pos
    | _ => return (e, pos)
termination_by structural fuel => fuel

def primary (ts : List Token) : (fuel pos : Nat) → Traced (Expr × Nat)
  | 0, _ => outOfFuel
  | fuel + 1, pos => do
    match kindAt ts pos with
    | .int n =>
      let (_, pos) ← advance ts pos
      return (.const (.int n), pos)
    | .float x =>
      let (_, pos) ← advance ts pos
      return (.const (.float x), pos)
    | .str s =>
      let (_, pos) ← advance ts pos
      return (.const (.str s), pos)
    | .kwTrue =>
      let (_, pos) ← advance ts pos
      return (.const (.bool true), pos)
    | .kwFalse =>
      let (_, pos) ← advance ts pos
      return (.const (.bool false), pos)
    | .kwNone =>
      let (_, pos) ← advance ts pos
      return (.const .none, pos)
    | .ident n =>
      let (_, pos) ← advance ts pos
      return (.name n, pos)
    | .lparen =>
      let (_, pos) ← advance ts pos
      let ((items, trailing), pos) ← sequence ts fuel .rparen false pos
      return (parenthesized items trailing, pos)
    | .lbracket =>
      let (_, pos) ← advance ts pos
      let ((items, _), pos) ← sequence ts fuel .rbracket false pos
      return (.list items, pos)
    | other => failAt ts (.inExpression other) pos
termination_by structural fuel => fuel

def sequence (ts : List Token) : (fuel : Nat) → (close : TokenKind) → (comma : Bool) →
    (pos : Nat) → Traced ((List Expr × Bool) × Nat)
  | 0, _, _, _ => outOfFuel
  | fuel + 1, close, comma, pos => do
    if kindAt ts pos = close then
      let (_, pos) ← advance ts pos
      return (([], comma), pos)
    else if startsKeyword ts pos then failAt ts .keywordArgument pos
    else
      let (e, pos) ← expression ts fuel pos
      if kindAt ts pos = .kwFor then failAt ts .nestedComprehension pos
      else if kindAt ts pos = .comma then
        let (_, pos) ← advance ts pos
        let ((es, trailing), pos) ← sequence ts fuel close true pos
        return ((e :: es, trailing), pos)
      else
        let pos ← expect ts close pos
        return (([e], false), pos)
termination_by structural fuel => fuel

end

/-- `Expr.ofTokens` with a cursor. -/
def exprOfTokens (ts : List Token) : Traced Expr := do
  let pos ← moveTo ts 0
  let (e, pos) ← expression ts (16 * (ts.length + 1)) pos
  if kindAt ts pos = .eof then return e
  else failAt ts (.afterExpression (kindAt ts pos)) pos

def parseExpr (text : String) : Traced Expr :=
  match Token.scan text.toList with
  | .error e => refuse (.ofScan e)
  | .ok ts => exprOfTokens (ts.filter (·.kind != .newline))

/-! Side by side -/

variable {ts : List Token} {pos fuel : Nat} {e l : Expr}

/-- An operator of one token. -/
theorem Inside.passOne (h : Inside ts pos) (hpeek : Parse.peek (ts.drop pos) ≠ .eof) :
    Inside ts (pos + 1) ∧ Yields (passOperator ts false pos) (pos + 1) := by
  obtain ⟨t, ht, -⟩ := h.exists_token
  exact ⟨h.next hpeek, (h.yields_advance hpeek ht).bind (yields_pure _)⟩

/-- An operator of two tokens. -/
theorem Inside.passTwo (h : Inside ts pos) (hpeek : Parse.peek (ts.drop pos) ≠ .eof)
    (hpeek' : Parse.peek (ts.drop (pos + 1)) ≠ .eof) :
    Inside ts (pos + 2) ∧ Yields (passOperator ts true pos) (pos + 2) := by
  obtain ⟨t, ht, -⟩ := h.exists_token
  have h₁ := h.next hpeek
  obtain ⟨t', ht', -⟩ := h₁.exists_token
  refine ⟨h₁.next hpeek', (h.yields_advance hpeek ht).bind ?_⟩
  exact (h₁.yields_advance hpeek' ht').bind (yields_pure _)

/-- The operator at the cursor is the one at the front of the tokens ahead, and the cursor passes
as many tokens as it has. -/
theorem Inside.comparison? (h : Inside ts pos) :
    (Cursor.comparison? ts pos = none ∧ Expr.comparison? (ts.drop pos) = none) ∨
      ∃ op two pos', Cursor.comparison? ts pos = some (op, two) ∧
        Expr.comparison? (ts.drop pos) = some (op, ts.drop pos') ∧
        Inside ts pos' ∧ Yields (passOperator ts two pos) pos' := by
  unfold Cursor.comparison? Expr.comparison?
  simp only [kindAt_eq, List.drop_drop]
  cases hk : Parse.peek (ts.drop pos) with
  | kwNot =>
    dsimp only
    split
    next hin => exact .inr ⟨_, _, pos + 2, rfl, rfl, h.passTwo (by simp [hk]) (by simp [hin])⟩
    next => exact .inl ⟨rfl, rfl⟩
  | kwIs =>
    dsimp only
    split
    next hnot => exact .inr ⟨_, _, pos + 2, rfl, rfl, h.passTwo (by simp [hk]) (by simp [hnot])⟩
    next => exact .inr ⟨_, _, pos + 1, rfl, rfl, h.passOne (by simp [hk])⟩
  | eqEq | notEq | lt | gt | ltEq | gtEq | kwIn =>
    exact .inr ⟨_, _, pos + 1, rfl, rfl, h.passOne (by simp [hk])⟩
  | _ => exact .inl ⟨rfl, rfl⟩

/-- With this much fuel, the readers with a cursor follow those of the tokens ahead. -/
structure Following (ts : List Token) (fuel : Nat) : Prop where
  expression {pos : Nat} : Inside ts pos →
    Follows ts (expression ts fuel pos) (Expr.expression fuel (ts.drop pos))
  disjunction {pos : Nat} : Inside ts pos →
    Follows ts (disjunction ts fuel pos) (Expr.disjunction fuel (ts.drop pos))
  disjunctionTail {l : Expr} {pos : Nat} : Inside ts pos →
    Follows ts (disjunctionTail ts fuel l pos) (Expr.disjunctionTail fuel l (ts.drop pos))
  conjunction {pos : Nat} : Inside ts pos →
    Follows ts (conjunction ts fuel pos) (Expr.conjunction fuel (ts.drop pos))
  conjunctionTail {l : Expr} {pos : Nat} : Inside ts pos →
    Follows ts (conjunctionTail ts fuel l pos) (Expr.conjunctionTail fuel l (ts.drop pos))
  negation {pos : Nat} : Inside ts pos →
    Follows ts (negation ts fuel pos) (Expr.negation fuel (ts.drop pos))
  comparison {pos : Nat} : Inside ts pos →
    Follows ts (comparison ts fuel pos) (Expr.comparison fuel (ts.drop pos))
  comparisonTail {sofar : Option Expr} {l : Expr} {pos : Nat} : Inside ts pos →
    Follows ts (comparisonTail ts fuel sofar l pos)
      (Expr.comparisonTail fuel sofar l (ts.drop pos))
  ladder {least pos : Nat} : Inside ts pos →
    Follows ts (ladder ts fuel least pos) (Expr.ladder fuel least (ts.drop pos))
  ladderTail {least : Nat} {l : Expr} {pos : Nat} : Inside ts pos →
    Follows ts (ladderTail ts fuel least l pos) (Expr.ladderTail fuel least l (ts.drop pos))
  sign {pos : Nat} : Inside ts pos → Follows ts (sign ts fuel pos) (Expr.sign fuel (ts.drop pos))
  power {pos : Nat} : Inside ts pos → Follows ts (power ts fuel pos) (Expr.power fuel (ts.drop pos))
  trailer {pos : Nat} : Inside ts pos →
    Follows ts (trailer ts fuel pos) (Expr.trailer fuel (ts.drop pos))
  trailerTail {e : Expr} {pos : Nat} : Inside ts pos →
    Follows ts (trailerTail ts fuel e pos) (Expr.trailerTail fuel e (ts.drop pos))
  primary {pos : Nat} : Inside ts pos →
    Follows ts (primary ts fuel pos) (Expr.primary fuel (ts.drop pos))
  sequence {close : TokenKind} {comma : Bool} {pos : Nat} : close ≠ .eof → Inside ts pos →
    Follows ts (sequence ts fuel close comma pos)
      (Expr.sequence fuel close comma (ts.drop pos))

section

variable (s : Following ts fuel)

include s

theorem follows_expression (h : Inside ts pos) :
    Follows ts (expression ts (fuel + 1) pos) (Expr.expression (fuel + 1) (ts.drop pos)) := by
  rw [expression, Expr.expression]
  simp only [kindAt_eq]
  split
  · exact h.fail _
  refine (s.disjunction h).bind fun body pos₁ h₁ => ?_
  dsimp only
  split
  next hif =>
    refine h₁.advance (by simp [hif]) fun _ _ h₂ => ?_
    rw [List.drop_drop]
    refine (s.disjunction h₂).bind fun cond pos₃ h₃ => ?_
    refine h₃.expect (by decide) fun pos₄ h₄ => ?_
    exact (s.expression h₄).bind fun no pos₅ h₅ => h₅.pure _
  next => exact h₁.pure _

theorem follows_disjunction (h : Inside ts pos) :
    Follows ts (disjunction ts (fuel + 1) pos) (Expr.disjunction (fuel + 1) (ts.drop pos)) := by
  rw [disjunction, Expr.disjunction]
  exact (s.conjunction h).bind fun l pos₁ h₁ => s.disjunctionTail h₁

theorem follows_disjunctionTail (h : Inside ts pos) :
    Follows ts (disjunctionTail ts (fuel + 1) l pos)
      (Expr.disjunctionTail (fuel + 1) l (ts.drop pos)) := by
  rw [disjunctionTail, Expr.disjunctionTail, kindAt_eq, List.drop_drop]
  split
  next hor =>
    refine h.advance (by simp [hor]) fun _ _ h₁ => ?_
    exact (s.conjunction h₁).bind fun r pos₂ h₂ => s.disjunctionTail h₂
  next => exact h.pure _

theorem follows_conjunction (h : Inside ts pos) :
    Follows ts (conjunction ts (fuel + 1) pos) (Expr.conjunction (fuel + 1) (ts.drop pos)) := by
  rw [conjunction, Expr.conjunction]
  exact (s.negation h).bind fun l pos₁ h₁ => s.conjunctionTail h₁

theorem follows_conjunctionTail (h : Inside ts pos) :
    Follows ts (conjunctionTail ts (fuel + 1) l pos)
      (Expr.conjunctionTail (fuel + 1) l (ts.drop pos)) := by
  rw [conjunctionTail, Expr.conjunctionTail, kindAt_eq, List.drop_drop]
  split
  next hand =>
    refine h.advance (by simp [hand]) fun _ _ h₁ => ?_
    exact (s.negation h₁).bind fun r pos₂ h₂ => s.conjunctionTail h₂
  next => exact h.pure _

theorem follows_negation (h : Inside ts pos) :
    Follows ts (negation ts (fuel + 1) pos) (Expr.negation (fuel + 1) (ts.drop pos)) := by
  rw [negation, Expr.negation, kindAt_eq, List.drop_drop]
  split
  next hnot =>
    refine h.advance (by simp [hnot]) fun _ _ h₁ => ?_
    exact (s.negation h₁).bind fun e pos₂ h₂ => h₂.pure _
  next => exact s.comparison h

theorem follows_comparison (h : Inside ts pos) :
    Follows ts (comparison ts (fuel + 1) pos) (Expr.comparison (fuel + 1) (ts.drop pos)) := by
  rw [comparison, Expr.comparison]
  exact (s.ladder h).bind fun first pos₁ h₁ => s.comparisonTail h₁

theorem follows_comparisonTail {sofar : Option Expr} (h : Inside ts pos) :
    Follows ts (comparisonTail ts (fuel + 1) sofar l pos)
      (Expr.comparisonTail (fuel + 1) sofar l (ts.drop pos)) := by
  rw [comparisonTail, Expr.comparisonTail]
  rcases h.comparison? with ⟨hcursor, hahead⟩ | ⟨op, two, pos₁, hcursor, hahead, h₁, hpass⟩
  · rw [hcursor, hahead]
    exact h.pure _
  · rw [hcursor, hahead]
    refine hpass.agrees ?_
    exact (s.ladder h₁).bind fun r pos₂ h₂ => s.comparisonTail h₂

theorem follows_ladder {least : Nat} (h : Inside ts pos) :
    Follows ts (ladder ts (fuel + 1) least pos) (Expr.ladder (fuel + 1) least (ts.drop pos)) := by
  rw [ladder, Expr.ladder]
  exact (s.sign h).bind fun l pos₁ h₁ => s.ladderTail h₁

theorem follows_ladderTail {least : Nat} (h : Inside ts pos) :
    Follows ts (ladderTail ts (fuel + 1) least l pos)
      (Expr.ladderTail (fuel + 1) least l (ts.drop pos)) := by
  rw [ladderTail, Expr.ladderTail, kindAt_eq, List.drop_drop]
  cases hop : binaryOperator? (Parse.peek (ts.drop pos)) with
  | none => exact h.pure _
  | some op =>
    dsimp only
    split
    · exact h.pure _
    have hpeek : Parse.peek (ts.drop pos) ≠ .eof := by
      intro heof
      simp [heof, binaryOperator?] at hop
    refine h.advance hpeek fun _ _ h₁ => ?_
    exact (s.ladder h₁).bind fun r pos₂ h₂ => s.ladderTail h₂

theorem follows_sign (h : Inside ts pos) :
    Follows ts (sign ts (fuel + 1) pos) (Expr.sign (fuel + 1) (ts.drop pos)) := by
  rw [sign, Expr.sign, kindAt_eq, List.drop_drop]
  cases hop : signOperator? (Parse.peek (ts.drop pos)) with
  | none => exact s.power h
  | some op =>
    have hpeek : Parse.peek (ts.drop pos) ≠ .eof := by
      intro heof
      simp [heof, signOperator?] at hop
    refine h.advance hpeek fun _ _ h₁ => ?_
    exact (s.sign h₁).bind fun e pos₂ h₂ => h₂.pure _

theorem follows_power (h : Inside ts pos) :
    Follows ts (power ts (fuel + 1) pos) (Expr.power (fuel + 1) (ts.drop pos)) := by
  rw [power, Expr.power]
  refine (s.trailer h).bind fun base pos₁ h₁ => ?_
  simp only [kindAt_eq, List.drop_drop]
  split
  next hstar =>
    refine h₁.advance (by simp [hstar]) fun _ _ h₂ => ?_
    exact (s.sign h₂).bind fun exponent pos₃ h₃ => h₃.pure _
  next => exact h₁.pure _

theorem follows_trailer (h : Inside ts pos) :
    Follows ts (trailer ts (fuel + 1) pos) (Expr.trailer (fuel + 1) (ts.drop pos)) := by
  rw [trailer, Expr.trailer]
  exact (s.primary h).bind fun e pos₁ h₁ => s.trailerTail h₁

theorem follows_trailerTail (h : Inside ts pos) :
    Follows ts (trailerTail ts (fuel + 1) e pos)
      (Expr.trailerTail (fuel + 1) e (ts.drop pos)) := by
  rw [trailerTail, Expr.trailerTail]
  simp only [kindAt_eq, List.drop_drop]
  cases hk : Parse.peek (ts.drop pos) with
  | lparen =>
    refine h.advance (by simp [hk]) fun _ _ h₁ => ?_
    exact (s.sequence (by decide) h₁).bind fun args pos₂ h₂ => s.trailerTail h₂
  | dot =>
    refine h.advance (by simp [hk]) fun _ _ h₁ => ?_
    exact h₁.expectIdent.bind fun field pos₂ h₂ => s.trailerTail h₂
  | lbracket =>
    refine h.advance (by simp [hk]) fun _ _ h₁ => ?_
    refine (s.expression h₁).bind fun index pos₂ h₂ => ?_
    dsimp only
    split
    · exact h₂.fail _
    · exact h₂.expect (by decide) fun pos₃ h₃ => s.trailerTail h₃
  | _ => exact h.pure _

theorem follows_primary (h : Inside ts pos) :
    Follows ts (primary ts (fuel + 1) pos) (Expr.primary (fuel + 1) (ts.drop pos)) := by
  rw [primary, Expr.primary]
  simp only [kindAt_eq, List.drop_drop]
  cases hk : Parse.peek (ts.drop pos) with
  | int | float | str | kwTrue | kwFalse | kwNone | ident =>
    exact h.advance (by simp [hk]) fun _ _ h₁ => h₁.pure _
  | lparen | lbracket =>
    refine h.advance (by simp [hk]) fun _ _ h₁ => ?_
    exact (s.sequence (by decide) h₁).bind fun items pos₂ h₂ => h₂.pure _
  | _ => exact h.fail _

theorem follows_sequence {close : TokenKind} {comma : Bool} (hclose : close ≠ .eof)
    (h : Inside ts pos) :
    Follows ts (sequence ts (fuel + 1) close comma pos)
      (Expr.sequence (fuel + 1) close comma (ts.drop pos)) := by
  rw [sequence, Expr.sequence, kindAt_eq, startsKeyword_eq, List.drop_drop]
  split
  next hpeek => exact h.advance (hpeek ▸ hclose) fun _ _ h₁ => h₁.pure _
  split
  · exact h.fail _
  refine (s.expression h).bind fun e pos₁ h₁ => ?_
  simp only [kindAt_eq, List.drop_drop]
  split
  · exact h₁.fail _
  split
  next hcomma =>
    refine h₁.advance (by simp [hcomma]) fun _ _ h₂ => ?_
    exact (s.sequence hclose h₂).bind fun more pos₃ h₃ => h₃.pure _
  next => exact h₁.expect hclose fun pos₂ h₂ => h₂.pure _

end

theorem following (ts : List Token) (fuel : Nat) : Following ts fuel := by
  induction fuel with
  | zero =>
    have hspent {α : Type} : Follows ts (α := α) outOfFuel Expr.outOfFuel := agrees_outOfFuel
    constructor <;> intros <;> exact hspent
  | succ fuel s =>
    exact ⟨follows_expression s, follows_disjunction s, follows_disjunctionTail s,
      follows_conjunction s, follows_conjunctionTail s, follows_negation s, follows_comparison s,
      follows_comparisonTail s, follows_ladder s, follows_ladderTail s, follows_sign s,
      follows_power s, follows_trailer s, follows_trailerTail s, follows_primary s,
      follows_sequence s⟩

theorem agrees_exprOfTokens (h : Inside ts 0) : Agrees Eq (exprOfTokens ts) (Expr.ofTokens ts) := by
  rw [exprOfTokens, Expr.ofTokens]
  refine (yields_moveTo h).agrees ?_
  refine ((following ts _).expression h).bind fun e pos h₁ => ?_
  simp only [kindAt_eq]
  split
  · exact agrees_pure rfl
  · exact h₁.fail _

/-- All tokens of a text may be read with a cursor, and so may those that a test keeps if it keeps
the end mark. -/
theorem inside_of_scan {source : List Char} (h : Token.scan source = .ok ts) {p : Token → Bool}
    (hp : ∀ t, t.kind = .eof → p t = true) : Inside (ts.filter p) 0 := by
  obtain ⟨qs, rfl, htiles, rfl⟩ := Token.scan_eq_ok_iff.mp h
  have hlast : (Token.endOf (Piece.text qs)).kind = .eof := rfl
  rw [List.filter_append, List.filter_cons_of_pos (hp _ hlast), List.filter_nil]
  refine inside_start (fun t ht => htiles.kinds_ne_eof _ ?_) hlast
  rw [← Piece.kinds_tokens {}]
  exact List.mem_map_of_mem (List.mem_of_mem_filter ht)

theorem agrees_parseExpr (text : String) : Agrees Eq (parseExpr text) (Expr.parse text) := by
  rw [parseExpr, Expr.parse]
  cases hscan : Token.scan text.toList with
  | error e => exact agrees_refuse _
  | ok ts => exact agrees_exprOfTokens (inside_of_scan hscan fun t ht => by rw [ht]; rfl)

end Cursor

end Comprehend
