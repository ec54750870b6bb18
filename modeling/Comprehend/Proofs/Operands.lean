import Comprehend.Dialect.Print

/-! Expressions as nodes over operands, for what holds of a tree because it holds of its parts. -/
namespace Comprehend.Expr

def operands : Expr → List Expr
  | .const _ => []
  | .name _ => []
  | .unary _ e => [e]
  | .member e _ => [e]
  | .binary l _ r => [l, r]
  | .boolOp _ l r => [l, r]
  | .compare l _ r => [l, r]
  | .subscript e i => [e, i]
  | .ternary cond yes no => [cond, yes, no]
  | .call f args => f :: args
  | .tuple items => items
  | .list items => items

theorem sizeOf_operand {d e : Expr} (h : d ∈ e.operands) : sizeOf d < sizeOf e := by
  have hone {f : Expr} (h : d = f) : sizeOf d ≤ sizeOf f := Nat.le_of_eq (congrArg sizeOf h)
  have hmany {fs : List Expr} (h : d ∈ fs) : sizeOf d < sizeOf fs := List.sizeOf_lt_of_mem h
  cases e <;> simp only [operands, List.mem_cons, List.not_mem_nil, or_false] at h <;> grind

/-- What a node takes over from its operands holds of every tree. -/
theorem induction_on_operands {P : Expr → Prop} (h : ∀ e, (∀ d ∈ e.operands, P d) → P e)
    (e : Expr) : P e := by
  induction hn : sizeOf e using Nat.strongRecOn generalizing e with
  | ind n ih => exact h e fun d hd => ih (sizeOf d) (hn ▸ sizeOf_operand hd) d rfl

mutual

def anyNode (test : Expr → Bool) : Expr → Bool
  | .const l => test (.const l)
  | .name n => test (.name n)
  | .unary op e => test (.unary op e) || anyNode test e
  | .binary l op r => test (.binary l op r) || anyNode test l || anyNode test r
  | .boolOp op l r => test (.boolOp op l r) || anyNode test l || anyNode test r
  | .compare l op r => test (.compare l op r) || anyNode test l || anyNode test r
  | .ternary c y n => test (.ternary c y n) || anyNode test c || anyNode test y || anyNode test n
  | .call f args => test (.call f args) || anyNode test f || anyNodes test args
  | .member e field => test (.member e field) || anyNode test e
  | .subscript e i => test (.subscript e i) || anyNode test e || anyNode test i
  | .tuple items => test (.tuple items) || anyNodes test items
  | .list items => test (.list items) || anyNodes test items

def anyNodes (test : Expr → Bool) : List Expr → Bool
  | [] => false
  | e :: es => anyNode test e || anyNodes test es

end

theorem anyNodes_eq_any (test : Expr → Bool) (es : List Expr) :
    anyNodes test es = es.any (anyNode test) := by
  induction es with
  | nil => rfl
  | cons e es ih => rw [anyNodes, ih, List.any_cons]

/-- The test fails at a node and at all nodes below it. -/
theorem anyNode_eq_false {test : Expr → Bool} {e : Expr} :
    e.anyNode test = false ↔ test e = false ∧ ∀ d ∈ e.operands, d.anyNode test = false := by
  cases e <;> simp [anyNode, anyNodes_eq_any, operands, and_assoc]

theorem anyNode_eq_true {test : Expr → Bool} {e : Expr} :
    e.anyNode test = true ↔ test e = true ∨ ∃ d ∈ e.operands, d.anyNode test = true := by
  cases e <;> simp [anyNode, anyNodes_eq_any, operands, or_assoc]

mutual

/-- The names in the tree, those of fields among them. -/
def words : Expr → List String
  | .const _ => []
  | .name n => [n]
  | .unary _ e => words e
  | .binary l _ r => words l ++ words r
  | .boolOp _ l r => words l ++ words r
  | .compare l _ r => words l ++ words r
  | .ternary cond yes no => words cond ++ words yes ++ words no
  | .call f args => words f ++ allWords args
  | .member e field => words e ++ [field]
  | .subscript e i => words e ++ words i
  | .tuple items => allWords items
  | .list items => allWords items

def allWords : List Expr → List String
  | [] => []
  | e :: es => words e ++ allWords es

end

theorem allWords_eq (es : List Expr) : allWords es = es.flatMap words := by
  induction es with
  | nil => rfl
  | cons e es ih => rw [allWords, ih, List.flatMap_cons]

theorem words_of_operand {d e : Expr} (h : d ∈ e.operands) : d.words ⊆ e.words := by
  intro n hn
  cases e <;> simp only [operands, List.mem_cons, List.not_mem_nil, or_false] at h <;>
    simp only [words, allWords_eq, List.mem_append, List.mem_flatMap] <;> grind

end Comprehend.Expr
