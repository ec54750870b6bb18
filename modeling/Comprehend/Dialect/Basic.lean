import Comprehend.Expr.Basic

/-! Target languages for expressions, and the operands from which their texts are put together. -/
namespace Comprehend

inductive Dialect where
  | rust | typescript | go | csharp | sqlite | postgres | julia
  /-- Julia with operators that work element by element. -/
  | juliaBroadcast
deriving DecidableEq

namespace Dialect

def isSql : Dialect → Bool
  | sqlite | postgres => true
  | _ => false

def isJulia : Dialect → Bool
  | julia | juliaBroadcast => true
  | _ => false

def isDotted : Dialect → Bool
  | juliaBroadcast => true
  | _ => false

/-- The mark of an element-wise function call. -/
def dot (d : Dialect) : String :=
  if d.isDotted then "." else ""

def intType : Dialect → String
  | rust => "i32"
  | typescript => "number"
  | go | csharp => "int"
  | sqlite | postgres => "INTEGER"
  | julia | juliaBroadcast => "Int"

end Dialect

/-- How expressions are written: the dialect, the type of integers in it, and the names that are
never negative. -/
structure Printer where
  dialect : Dialect
  intType : String := dialect.intType
  nonNegative : List String := []

/-- A part of an expression together with its text. -/
structure Operand where
  expr : Expr
  text : String

def round (s : String) : String :=
  "(" ++ s ++ ")"

def commas (items : List String) : String :=
  ", ".intercalate items

namespace Operand

/-- Bitwise operators bind differently in each target, and so do element-wise truth values, so
that such an operand always stands in brackets. -/
def isDelicate (d : Dialect) : Expr → Bool
  | .binary _ op _ => op.isBitwise
  | .boolOp .. => d.isDotted
  | _ => false

/-- The text of an operand where only what binds at least as tightly as `least` needs no brackets. -/
def within (o : Operand) (d : Dialect) (least : Nat) : String :=
  if o.expr.precedence < least || isDelicate d o.expr then round o.text else o.text

def join (os : List Operand) : String :=
  commas (os.map (·.text))

end Operand

end Comprehend
