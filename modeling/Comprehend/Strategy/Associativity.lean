import Comprehend.Text.CharClass

/-! Operators that may be folded in parts: the parts start from a neutral element and are combined
afterwards. Only the operators of a fixed list qualify, each over the types that it names. -/
namespace Comprehend

inductive NumericType where
  | int | float
deriving DecidableEq

namespace NumericType

def name : NumericType → String
  | int => "Int"
  | float => "Float64"

def ofName? : String → Option NumericType
  | "Int" | "Int64" | "int" => some int
  | "Float" | "Float64" | "float" => some float
  | _ => none

end NumericType

inductive AssocOp where
  | add | mul | sum | prod | max | min | bitOr | bitAnd | bitXor
deriving DecidableEq

/-- The neutral element of an operator. -/
inductive Neutral where
  | zero | one | allOnes | least | greatest
deriving DecidableEq

namespace Neutral

def literal : Neutral → NumericType → String
  | zero, .int => "0"
  | zero, .float => "0.0"
  | one, .int => "1"
  | one, .float => "1.0"
  | allOnes, _ => "-1"
  | least, .int => "typemin(Int)"
  | least, .float => "-Inf"
  | greatest, .int => "typemax(Int)"
  | greatest, .float => "Inf"

def toInt64 : Neutral → Int64
  | zero => 0
  | one => 1
  | allOnes => -1
  | least => Int64.minValue
  | greatest => Int64.maxValue

end Neutral

namespace AssocOp

def ofName? : String → Option AssocOp
  | "+" => some add
  | "*" => some mul
  | "sum" => some sum
  | "prod" => some prod
  | "max" => some max
  | "min" => some min
  | "|" => some bitOr
  | "&" => some bitAnd
  | "^" => some bitXor
  | _ => none

def name : AssocOp → String
  | add => "+"
  | mul => "*"
  | sum => "sum"
  | prod => "prod"
  | max => "max"
  | min => "min"
  | bitOr => "|"
  | bitAnd => "&"
  | bitXor => "^"

/-- The types over which the operator is associative. -/
def types : AssocOp → List NumericType
  | bitOr | bitAnd | bitXor => [.int]
  | _ => [.float, .int]

def neutral : AssocOp → Neutral
  | add | sum | bitOr | bitXor => .zero
  | mul | prod => .one
  | bitAnd => .allOnes
  | max => .least
  | min => .greatest

/-- The operator on 64-bit integers; sums and products wrap around. -/
def combine : AssocOp → Int64 → Int64 → Int64
  | add, a, b | sum, a, b => a + b
  | mul, a, b | prod, a, b => a * b
  | max, a, b => if a < b then b else a
  | min, a, b => if b < a then b else a
  | bitOr, a, b => a ||| b
  | bitAnd, a, b => a &&& b
  | bitXor, a, b => a ^^^ b

def reducer : AssocOp → String
  | add | sum => "+"
  | mul | prod => "*"
  | max => "max"
  | min => "min"
  | bitOr => "|"
  | bitAnd => "&"
  | bitXor => "xor"

/-- A value to the right of an operator stands in brackets unless it is a single word. -/
def rightOperand (value : String) : String :=
  if value.toList.all fun c => Text.isLetter c || Text.isNumeral c || c == '_' || c == '.'
  then value else "(" ++ value ++ ")"

/-- The expression that folds a value into an accumulator. -/
def combineText (op : AssocOp) (acc value : String) : String :=
  match op with
  | max | min | bitXor => op.reducer ++ "(" ++ acc ++ ", " ++ value ++ ")"
  | op => acc ++ " " ++ op.reducer ++ " " ++ rightOperand value

end AssocOp

inductive Denial where
  | nonAssociative (op : String)
  | unsupportedType (op : AssocOp) (type : String)
deriving DecidableEq

def Denial.message : Denial → String
  | nonAssociative op => "non-associative op '" ++ op ++ "'"
  | unsupportedType op type =>
    "type '" ++ type ++ "' not supported for '" ++ op.name ++ "' (supported: " ++
      ", ".intercalate (op.types.map NumericType.name) ++ ")"

/-- An operator over a type that may be folded in parts. -/
structure Grant where
  op : AssocOp
  type : NumericType
deriving DecidableEq

namespace Grant

def neutral (g : Grant) : Neutral := g.op.neutral

def neutralLiteral (g : Grant) : String := g.neutral.literal g.type

def check (op type : String) : Except Denial Grant :=
  match AssocOp.ofName? op with
  | none => .error (.nonAssociative op)
  | some assoc =>
    match NumericType.ofName? type with
    | none => .error (.unsupportedType assoc type)
    | some t => if t ∈ assoc.types then .ok ⟨assoc, t⟩ else .error (.unsupportedType assoc type)

end Grant

end Comprehend
