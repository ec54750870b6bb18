import Comprehend.Comprehension.Basic
import Comprehend.Dialect.Print
import Comprehend.Expr.Parser
import Comprehend.Layout
import Comprehend.Options.Basic

/-! What the targets share: the form of a target, the errors of a rendering, and small questions on
the expressions of a comprehension. -/
namespace Comprehend

/-- What a literal cannot be written as. -/
inductive LiteralFault where
  | none | nested | expression
deriving DecidableEq

def LiteralFault.what : LiteralFault → String
  | none => "None"
  | nested => "nested display"
  | expression => "expression"

inductive RenderError where
  | unknownTarget (name : String) (known : List String)
  | option (fault : OptionFault)
  | literal (fault : LiteralFault)
deriving DecidableEq

def RenderError.message : RenderError → String
  | unknownTarget name known =>
    "unknown target '" ++ name ++ "'; known targets: " ++ ", ".intercalate known
  | option fault => fault.message
  | literal fault => "unsupported literal type: " ++ fault.what

/-- A language into which comprehensions are rendered. Only the options with an accepted name reach
`render`. -/
structure Target where
  name : String
  accepted : List String
  render : Comprehension → Options → Except RenderError String

inductive ScalarType where
  | int | float | str | bool
deriving DecidableEq

def ScalarType.ofName? : String → Option ScalarType
  | "int" => some int
  | "float" => some float
  | "str" => some str
  | "bool" => some bool
  | _ => none

/-- Reads the name of a type; `problem` says what is wrong with any other name. -/
def Options.scalarType (problem : String → OptionProblem) (name : String) :
    Except OptionFault ScalarType :=
  match ScalarType.ofName? name with
  | some t => .ok t
  | none => Options.fault "type_info" (problem name)

namespace Target

/-- The number of items, if the text is a tuple. -/
def tupleArity? (s : String) : Option Nat :=
  match Expr.parse? s with
  | some (.tuple items) => some items.length
  | _ => none

/-- The text is the given variable and nothing else. -/
def isVariable (s var : String) : Bool :=
  match Expr.parse? s with
  | some (.name n) => n == var
  | _ => false

/-- Every value of the range is at least zero. -/
def isNonNegative (r : Range) : Bool :=
  0 ≤ r.start && match r.last with
  | some last => 0 ≤ last
  | none => true

/-- The variables over ranges without a negative value. -/
def nonNegativeVars (c : Comprehension) : List String :=
  (c.generators.filter fun g => g.range?.any isNonNegative).map Generator.var

/-- The printer for the expressions of a comprehension. -/
def printerFor (d : Dialect) (c : Comprehension) : Printer :=
  { dialect := d, nonNegative := nonNegativeVars c }

/-- The texts of an expression chain, one to a line: the first one after `lead`, the others one
level deeper, and `ending` behind the last one. -/
def chain (lead ending : String) : List String → List Layout
  | [] => []
  | [s] => [.line (lead ++ s ++ ending)]
  | s :: t :: rest => [.line (lead ++ s), .indented (continuation t rest)]
where
  continuation (s : String) : List String → List Layout
    | [] => [.line (s ++ ending)]
    | t :: rest => .line s :: continuation t rest

/-- A loop: its header and what stands in front of the next loop. -/
structure Loop where
  header : String
  opening : List Layout := []

/-- Loops one inside the other, with `leaf` in the innermost one. -/
def nest (footer : String) (leaf : List Layout) : List Loop → List Layout
  | [] => leaf
  | l :: ls => [.block l.header footer (l.opening ++ nest footer leaf ls)]

end Target

end Comprehend
