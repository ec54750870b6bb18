import Comprehend.Number.Binary64

/-! Expressions: the tree, how tightly each node binds, and which names and conditions it holds. -/
namespace Comprehend

inductive Literal where
  | int (n : Int64)
  | float (x : Number.Binary64)
  | bool (b : Bool)
  | str (s : String)
  | none
deriving DecidableEq

inductive UnaryOp where
  | neg | pos | not | invert
deriving DecidableEq

inductive BinOp where
  | add | sub | mul | div | floorDiv | mod | pow | bitAnd | bitOr | bitXor | shl | shr
deriving DecidableEq

inductive BoolOp where
  | and | or
deriving DecidableEq

inductive CmpOp where
  | eq | notEq | lt | gt | ltEq | gtEq | isIn | notIn | same | notSame
deriving DecidableEq

inductive Expr where
  | const (l : Literal)
  | name (n : String)
  | unary (op : UnaryOp) (e : Expr)
  | binary (l : Expr) (op : BinOp) (r : Expr)
  | boolOp (op : BoolOp) (l r : Expr)
  | compare (l : Expr) (op : CmpOp) (r : Expr)
  | ternary (cond yes no : Expr)
  | call (f : Expr) (args : List Expr)
  | member (e : Expr) (field : String)
  | subscript (e index : Expr)
  | tuple (items : List Expr)
  | list (items : List Expr)

namespace BinOp

def isBitwise : BinOp → Bool
  | bitAnd | bitOr | bitXor | shl | shr => true
  | _ => false

def symbol : BinOp → String
  | add => "+"
  | sub => "-"
  | mul => "*"
  | div => "/"
  | floorDiv => "//"
  | mod => "%"
  | pow => "**"
  | bitAnd => "&"
  | bitOr => "|"
  | bitXor => "^"
  | shl => "<<"
  | shr => ">>"

/-- How tightly the operator binds, on the scale of `Expr.precedence`. -/
def precedence : BinOp → Nat
  | bitOr => 6
  | bitXor => 7
  | bitAnd => 8
  | shl | shr => 9
  | add | sub => 10
  | mul | div | floorDiv | mod => 11
  | pow => 13

end BinOp

/-- Identity of objects is compared as equality is. -/
def CmpOp.symbol : CmpOp → String
  | eq | same => "=="
  | notEq | notSame => "!="
  | lt => "<"
  | gt => ">"
  | ltEq => "<="
  | gtEq => ">="
  | isIn => "in"
  | notIn => "not in"

namespace Expr

/-- How tightly a node binds: 1 conditional, 2 `or`, 3 `and`, 4 `not`, 5 comparison, 6 to 11 the
binary operators, 12 signs, 13 powers, 14 all that needs no brackets. A negative literal is
written with a sign. -/
def precedence : Expr → Nat
  | ternary .. => 1
  | boolOp .or .. => 2
  | boolOp .and .. => 3
  | unary .not _ => 4
  | compare .. => 5
  | binary _ op _ => op.precedence
  | unary .. => 12
  | const (.int n) => if n.toInt < 0 then 12 else 14
  | const (.float x) => if x.isBelowZero then 12 else 14
  | _ => 14

mutual

/-- The name occurs in the tree; the field of a member is not such a name. -/
def mentions (n : String) : Expr → Bool
  | const _ => false
  | name m => m == n
  | unary _ e => mentions n e
  | binary l _ r => mentions n l || mentions n r
  | boolOp _ l r => mentions n l || mentions n r
  | compare l _ r => mentions n l || mentions n r
  | ternary c y z => mentions n c || mentions n y || mentions n z
  | call f args => mentions n f || anyMentions n args
  | member e _ => mentions n e
  | subscript e i => mentions n e || mentions n i
  | tuple items => anyMentions n items
  | list items => anyMentions n items

def anyMentions (n : String) : List Expr → Bool
  | [] => false
  | e :: es => mentions n e || anyMentions n es

end

mutual

/-- The tree holds a conditional, or an `and` or `or`. -/
def hasConditional : Expr → Bool
  | const _ => false
  | name _ => false
  | unary _ e => hasConditional e
  | binary l _ r => hasConditional l || hasConditional r
  | boolOp .. => true
  | compare l _ r => hasConditional l || hasConditional r
  | ternary .. => true
  | call f args => hasConditional f || anyConditional args
  | member e _ => hasConditional e
  | subscript e i => hasConditional e || hasConditional i
  | tuple items => anyConditional items
  | list items => anyConditional items

def anyConditional : List Expr → Bool
  | [] => false
  | e :: es => hasConditional e || anyConditional es

end

end Expr

end Comprehend
