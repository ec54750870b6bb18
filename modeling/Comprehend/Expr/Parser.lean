import Comprehend.Expr.Basic
import Comprehend.Number.Int64
import Comprehend.Parse.Stream

/-! Reading expressions, by recursive descent through the levels of precedence. Each call passes on
less fuel than it has; `Expr.ofTokens` gives enough for every list of tokens. -/
namespace Comprehend.Expr

open Parse

def binaryOperator? : TokenKind → Option BinOp
  | .plus => some .add
  | .minus => some .sub
  | .star => some .mul
  | .slash => some .div
  | .slashSlash => some .floorDiv
  | .percent => some .mod
  | .amp => some .bitAnd
  | .pipe => some .bitOr
  | .caret => some .bitXor
  | .shl => some .shl
  | .shr => some .shr
  | _ => none

/-- The comparison operator at the front, of one token or two, and what follows it. -/
def comparison? (ts : List Token) : Option (CmpOp × List Token) :=
  let rest := ts.drop 1
  match peek ts with
  | .eqEq => some (.eq, rest)
  | .notEq => some (.notEq, rest)
  | .lt => some (.lt, rest)
  | .gt => some (.gt, rest)
  | .ltEq => some (.ltEq, rest)
  | .gtEq => some (.gtEq, rest)
  | .kwIn => some (.isIn, rest)
  | .kwNot => if peek rest = .kwIn then some (.notIn, rest.drop 1) else none
  | .kwIs => if peek rest = .kwNot then some (.notSame, rest.drop 1) else some (.same, rest)
  | _ => none

def signOperator? : TokenKind → Option UnaryOp
  | .minus => some .neg
  | .plus => some .pos
  | .tilde => some .invert
  | _ => none

/-- A sign before an expression; the negative of an integer constant is a constant. -/
def signed (op : UnaryOp) (e : Expr) : Expr :=
  match op, e with
  | .neg, .const (.int n) =>
    match Number.int64? (-n.toInt) with
    | some m => .const (.int m)
    | none => .unary op e
  | _, _ => .unary op e

/-- The conjunction of what a chain of comparisons has given so far with one more of them. -/
def chained (sofar : Option Expr) (link : Expr) : Expr :=
  match sofar with
  | some e => .boolOp .and e link
  | none => link

/-- A sequence in round brackets is its only item, unless a comma follows that. -/
def parenthesized (items : List Expr) (trailing : Bool) : Expr :=
  match items, trailing with
  | [e], false => e
  | items, _ => .tuple items

def outOfFuel {α : Type} : Attempt α :=
  failAt .ranOut []

mutual

def expression : (fuel : Nat) → List Token → Attempt (Expr × List Token)
  | 0, _ => outOfFuel
  | fuel + 1, ts => do
    if peek ts = .kwLambda then failAt .lambda ts
    else
      let (body, ts) ← disjunction fuel ts
      if peek ts = .kwIf then
        let (cond, ts) ← disjunction fuel (ts.drop 1)
        let ts ← expect .kwElse ts
        let (no, ts) ← expression fuel ts
        return (.ternary cond body no, ts)
      else return (body, ts)

def disjunction : (fuel : Nat) → List Token → Attempt (Expr × List Token)
  | 0, _ => outOfFuel
  | fuel + 1, ts => do
    let (l, ts) ← conjunction fuel ts
    disjunctionTail fuel l ts

def disjunctionTail : (fuel : Nat) → Expr → List Token → Attempt (Expr × List Token)
  | 0, _, _ => outOfFuel
  | fuel + 1, l, ts => do
    if peek ts = .kwOr then
      let (r, ts) ← conjunction fuel (ts.drop 1)
      disjunctionTail fuel (.boolOp .or l r) ts
    else return (l, ts)

def conjunction : (fuel : Nat) → List Token → Attempt (Expr × List Token)
  | 0, _ => outOfFuel
  | fuel + 1, ts => do
    let (l, ts) ← negation fuel ts
    conjunctionTail fuel l ts

def conjunctionTail : (fuel : Nat) → Expr → List Token → Attempt (Expr × List Token)
  | 0, _, _ => outOfFuel
  | fuel + 1, l, ts => do
    if peek ts = .kwAnd then
      let (r, ts) ← negation fuel (ts.drop 1)
      conjunctionTail fuel (.boolOp .and l r) ts
    else return (l, ts)

def negation : (fuel : Nat) → List Token → Attempt (Expr × List Token)
  | 0, _ => outOfFuel
  | fuel + 1, ts => do
    if peek ts = .kwNot then
      let (e, ts) ← negation fuel (ts.drop 1)
      return (.unary .not e, ts)
    else comparison fuel ts

/-- A chain `a < b < c` means `a < b and b < c`. -/
def comparison : (fuel : Nat) → List Token → Attempt (Expr × List Token)
  | 0, _ => outOfFuel
  | fuel + 1, ts => do
    let (first, ts) ← ladder fuel 0 ts
    comparisonTail fuel none first ts

/-- The links of a chain from the operand `l` on. -/
def comparisonTail : (fuel : Nat) → (sofar : Option Expr) → (l : Expr) → List Token →
    Attempt (Expr × List Token)
  | 0, _, _, _ => outOfFuel
  | fuel + 1, sofar, l, ts => do
    match comparison? ts with
    | some (op, ts) =>
      let (r, ts) ← ladder fuel 0 ts
      comparisonTail fuel (some (chained sofar (.compare l op r))) r ts
    | none => return (sofar.getD l, ts)

/-- Binary operators that bind at least as tightly as `least`. -/
def ladder : (fuel : Nat) → (least : Nat) → List Token → Attempt (Expr × List Token)
  | 0, _, _ => outOfFuel
  | fuel + 1, least, ts => do
    let (l, ts) ← sign fuel ts
    ladderTail fuel least l ts

def ladderTail : (fuel : Nat) → (least : Nat) → Expr → List Token → Attempt (Expr × List Token)
  | 0, _, _, _ => outOfFuel
  | fuel + 1, least, l, ts => do
    match binaryOperator? (peek ts) with
    | some op =>
      if op.precedence < least then return (l, ts)
      else
        let (r, ts) ← ladder fuel (op.precedence + 1) (ts.drop 1)
        ladderTail fuel least (.binary l op r) ts
    | none => return (l, ts)

def sign : (fuel : Nat) → List Token → Attempt (Expr × List Token)
  | 0, _ => outOfFuel
  | fuel + 1, ts => do
    match signOperator? (peek ts) with
    | some op =>
      let (e, ts) ← sign fuel (ts.drop 1)
      return (signed op e, ts)
    | none => power fuel ts

/-- A power binds tighter than a sign on its left and looser than one on its right. -/
def power : (fuel : Nat) → List Token → Attempt (Expr × List Token)
  | 0, _ => outOfFuel
  | fuel + 1, ts => do
    let (base, ts) ← trailer fuel ts
    if peek ts = .starStar then
      let (exponent, ts) ← sign fuel (ts.drop 1)
      return (.binary base .pow exponent, ts)
    else return (base, ts)

def trailer : (fuel : Nat) → List Token → Attempt (Expr × List Token)
  | 0, _ => outOfFuel
  | fuel + 1, ts => do
    let (e, ts) ← primary fuel ts
    trailerTail fuel e ts

/-- Calls, fields and subscripts behind an expression. -/
def trailerTail : (fuel : Nat) → Expr → List Token → Attempt (Expr × List Token)
  | 0, _, _ => outOfFuel
  | fuel + 1, e, ts => do
    match peek ts with
    | .lparen =>
      let ((args, _), ts) ← sequence fuel .rparen false (ts.drop 1)
      trailerTail fuel (.call e args) ts
    | .dot =>
      let (field, ts) ← expectIdent (ts.drop 1)
      trailerTail fuel (.member e field) ts
    | .lbracket =>
      let (index, ts) ← expression fuel (ts.drop 1)
      if peek ts = .colon then failAt .slice ts
      else
        let ts ← expect .rbracket ts
        trailerTail fuel (.subscript e index) ts
    | _ => return (e, ts)

def primary : (fuel : Nat) → List Token → Attempt (Expr × List Token)
  | 0, _ => outOfFuel
  | fuel + 1, ts => do
    let rest := ts.drop 1
    match peek ts with
    | .int n => return (.const (.int n), rest)
    | .float x => return (.const (.float x), rest)
    | .str s => return (.const (.str s), rest)
    | .kwTrue => return (.const (.bool true), rest)
    | .kwFalse => return (.const (.bool false), rest)
    | .kwNone => return (.const .none, rest)
    | .ident n => return (.name n, rest)
    | .lparen =>
      let ((items, trailing), ts) ← sequence fuel .rparen false rest
      return (parenthesized items trailing, ts)
    | .lbracket =>
      let ((items, _), ts) ← sequence fuel .rbracket false rest
      return (.list items, ts)
    | other => failAt (.inExpression other) ts

/-- Expressions with commas between them, up to the closing bracket and with it. The flag says
whether a comma stands just before, and in the result, whether one ends the sequence. -/
def sequence : (fuel : Nat) → (close : TokenKind) → (comma : Bool) → List Token →
    Attempt ((List Expr × Bool) × List Token)
  | 0, _, _, _ => outOfFuel
  | fuel + 1, close, comma, ts => do
    if peek ts = close then return (([], comma), ts.drop 1)
    else if startsKeyword ts then failAt .keywordArgument ts
    else
      let (e, ts) ← expression fuel ts
      if peek ts = .kwFor then failAt .nestedComprehension ts
      else if peek ts = .comma then
        let ((es, trailing), ts) ← sequence fuel close true (ts.drop 1)
        return ((e :: es, trailing), ts)
      else
        let ts ← expect close ts
        return (([e], false), ts)

end

/-- The expression that the tokens spell, all of them up to the end of the text. -/
def ofTokens (ts : List Token) : Attempt Expr := do
  let (e, rest) ← expression (16 * (ts.length + 1)) ts
  if peek rest = .eof then return e
  else failAt (.afterExpression (peek rest)) rest

/-- The expression that a text spells. Line feeds do not count. -/
def parse (text : String) : Attempt Expr :=
  match Token.scan text.toList with
  | .error e => .error (.ofScan e)
  | .ok ts => ofTokens (ts.filter (·.kind != .newline))

def parse? (text : String) : Option Expr :=
  (parse text).toOption

end Comprehend.Expr
