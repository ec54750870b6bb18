import Comprehend.Expr.Parser

/-! The grammar of expressions, level by level, each phrase with the tree that it spells. The
levels are those of the language reference; nothing here refers to the reader. -/
namespace Comprehend.Grammar

/-- The binary operators, rung by rung from the loosest on. -/
def rung : Nat → List (TokenKind × BinOp)
  | 0 => [(.pipe, .bitOr)]
  | 1 => [(.caret, .bitXor)]
  | 2 => [(.amp, .bitAnd)]
  | 3 => [(.shl, .shl), (.shr, .shr)]
  | 4 => [(.plus, .add), (.minus, .sub)]
  | 5 => [(.star, .mul), (.slash, .div), (.slashSlash, .floorDiv), (.percent, .mod)]
  | _ => []

def comparisons : List (List TokenKind × CmpOp) :=
  [([.eqEq], .eq), ([.notEq], .notEq), ([.lt], .lt), ([.gt], .gt), ([.ltEq], .ltEq),
    ([.gtEq], .gtEq), ([.kwIn], .isIn), ([.kwNot, .kwIn], .notIn), ([.kwIs], .same),
    ([.kwIs, .kwNot], .notSame)]

mutual

/-- A disjunction, or a conditional between two of them that goes on to the right. -/
inductive Expression : List TokenKind → Expr → Prop
  | plain {ks e} : Disjunction ks e → Expression ks e
  | conditional {ks ls ms body cond other} :
      Disjunction ks body → Disjunction ls cond → Expression ms other →
      Expression (ks ++ .kwIf :: (ls ++ .kwElse :: ms)) (.ternary cond body other)

inductive Disjunction : List TokenKind → Expr → Prop
  | one {ks e} : Conjunction ks e → Disjunction ks e
  | more {ks ls l r} : Disjunction ks l → Conjunction ls r →
      Disjunction (ks ++ .kwOr :: ls) (.boolOp .or l r)

inductive Conjunction : List TokenKind → Expr → Prop
  | one {ks e} : Negation ks e → Conjunction ks e
  | more {ks ls l r} : Conjunction ks l → Negation ls r →
      Conjunction (ks ++ .kwAnd :: ls) (.boolOp .and l r)

inductive Negation : List TokenKind → Expr → Prop
  | plain {ks e} : Comparison ks e → Negation ks e
  | not {ks e} : Negation ks e → Negation (.kwNot :: ks) (.unary .not e)

inductive Comparison : List TokenKind → Expr → Prop
  | plain {ks e} : Ladder 0 ks e → Comparison ks e
  | chain {ks e last} : Chain ks e last → Comparison ks e

/-- One comparison or more, the operand at the end of each being the first of the next; the second
expression is the operand at the end of the last. -/
inductive Chain : List TokenKind → Expr → Expr → Prop
  | link {ks w ls l op r} : Ladder 0 ks l → (w, op) ∈ comparisons → Ladder 0 ls r →
      Chain (ks ++ (w ++ ls)) (.compare l op r) r
  | more {ks w ls e l op r} : Chain ks e l → (w, op) ∈ comparisons → Ladder 0 ls r →
      Chain (ks ++ (w ++ ls)) (.boolOp .and e (.compare l op r)) r

/-- Binary operators of a rung and of tighter ones. Those of one rung group to the left. -/
inductive Ladder : Nat → List TokenKind → Expr → Prop
  | sign {ks e} : Sign ks e → Ladder 6 ks e
  | tighter {n ks e} : Ladder (n + 1) ks e → Ladder n ks e
  | binary {n ks k op ls l r} : Ladder n ks l → (k, op) ∈ rung n → Ladder (n + 1) ls r →
      Ladder n (ks ++ k :: ls) (.binary l op r)

/-- A minus sign makes a constant of an integer constant, if its negative is one. -/
inductive Sign : List TokenKind → Expr → Prop
  | power {ks e} : Power ks e → Sign ks e
  | fold {ks} {n m : Int64} : Sign ks (.const (.int n)) → m.toInt = -n.toInt →
      Sign (.minus :: ks) (.const (.int m))
  | minus {ks e} : Sign ks e → (∀ n m : Int64, e = .const (.int n) → m.toInt ≠ -n.toInt) →
      Sign (.minus :: ks) (.unary .neg e)
  | plus {ks e} : Sign ks e → Sign (.plus :: ks) (.unary .pos e)
  | tilde {ks e} : Sign ks e → Sign (.tilde :: ks) (.unary .invert e)

inductive Power : List TokenKind → Expr → Prop
  | plain {ks e} : Trailer ks e → Power ks e
  | power {ks ls base exponent} : Trailer ks base → Sign ls exponent →
      Power (ks ++ .starStar :: ls) (.binary base .pow exponent)

inductive Trailer : List TokenKind → Expr → Prop
  | primary {ks e} : Primary ks e → Trailer ks e
  | call {ks ls f args comma} : Trailer ks f → Items ls args comma →
      Trailer (ks ++ .lparen :: (ls ++ [.rparen])) (.call f args)
  | member {ks e field} : Trailer ks e → Trailer (ks ++ [.dot, .ident field]) (.member e field)
  | subscript {ks ls e index} : Trailer ks e → Expression ls index →
      Trailer (ks ++ .lbracket :: (ls ++ [.rbracket])) (.subscript e index)

inductive Primary : List TokenKind → Expr → Prop
  | int (n) : Primary [.int n] (.const (.int n))
  | float (x) : Primary [.float x] (.const (.float x))
  | str (s) : Primary [.str s] (.const (.str s))
  | yes : Primary [.kwTrue] (.const (.bool true))
  | no : Primary [.kwFalse] (.const (.bool false))
  | nothing : Primary [.kwNone] (.const .none)
  | name (n) : Primary [.ident n] (.name n)
  | group {ks e} : Items ks [e] false → Primary (.lparen :: (ks ++ [.rparen])) e
  | tuple {ks es comma} : Items ks es comma → (es.length = 1 → comma = true) →
      Primary (.lparen :: (ks ++ [.rparen])) (.tuple es)
  | list {ks es comma} : Items ks es comma →
      Primary (.lbracket :: (ks ++ [.rbracket])) (.list es)

/-- What stands in brackets: nothing, or expressions with commas between them. The flag says
whether a comma ends them. -/
inductive Items : List TokenKind → List Expr → Bool → Prop
  | empty : Items [] [] false
  | series {ks es comma} : Series ks es comma → Items ks es comma

inductive Series : List TokenKind → List Expr → Bool → Prop
  | last {ks e} : Expression ks e → Series ks [e] false
  | comma {ks e} : Expression ks e → Series (ks ++ [.comma]) [e] true
  | more {ks ls e es comma} : Expression ks e → Series ls es comma →
      Series (ks ++ .comma :: ls) (e :: es) comma

end

end Comprehend.Grammar
