import Comprehend.Token.Scan

/-! Why a source text is refused, and where. -/
namespace Comprehend

inductive ParseFault where
  | scan (fault : Token.ScanFault)
  | expected (want found : TokenKind)
  | expectedIdentifier (found : TokenKind)
  -- expressions
  | lambda
  | slice
  | keywordArgument
  | nestedComprehension
  | inExpression (found : TokenKind)
  | afterExpression (found : TokenKind)
  -- statements
  | moduleName
  | emptyInput
  | afterStatement (found : TokenKind)
  | statementStart (found : TokenKind)
  -- comprehensions
  | listDisplay
  | parenthesized
  | setDisplay
  | dictDisplay
  | destructuring
  | expectedVariable (found : TokenKind)
  | boundTwice (var : String)
  | expectedExpression (found : TokenKind)
  | unclosedBracket
  -- ranges
  | rangeKeyword
  | rangeBound (text : String)
  | rangeArity (count : Nat)
  | rangeStep
  -- reductions
  | mathFunction (name : String)
  | function (name : String)
  | expectedCall (name : String)
  | oneArgument (name : String)
  | noKeywords (name : String)
  | expectedGenerator (name : String)
  /-- The reader stepped beyond the last token. -/
  | ranOut
deriving DecidableEq

def ParseFault.message : ParseFault → String
  | scan fault => fault.message
  | expected want found => "expected '" ++ want.display ++ "', found '" ++ found.display ++ "'"
  | expectedIdentifier found => "expected identifier, found '" ++ found.display ++ "'"
  | lambda => "lambda expressions are unsupported"
  | slice => "slices are unsupported"
  | keywordArgument => "keyword arguments are unsupported"
  | nestedComprehension => "nested comprehensions are not expressions"
  | inExpression found => "unexpected '" ++ found.display ++ "' in expression"
  | afterExpression found => "unexpected '" ++ found.display ++ "' after expression"
  | moduleName => "expected module name after import"
  | emptyInput => "expected a single expression statement, found empty input"
  | afterStatement found =>
    "expected a single expression statement, found '" ++ found.display ++ "'"
  | statementStart found =>
    "unsupported expression starting with '" ++ found.display ++
      "'; expected a comprehension or reduction call"
  | listDisplay => "list displays are not comprehensions"
  | parenthesized => "parenthesized expression is not a generator expression"
  | setDisplay => "set displays are not comprehensions"
  | dictDisplay => "dict displays are not comprehensions"
  | destructuring => "destructuring targets are unsupported"
  | expectedVariable found => "expected loop variable, found '" ++ found.display ++ "'"
  | boundTwice var => "generator variable '" ++ var ++ "' is bound twice"
  | expectedExpression found => "expected expression, found '" ++ found.display ++ "'"
  | unclosedBracket => "unexpected end of input: unclosed bracket"
  | rangeKeyword => "range does not accept keyword arguments"
  | rangeBound text => "non-literal range bound '" ++ text ++ "'"
  | rangeArity count => "range expects 1 to 3 arguments, got " ++ toString count
  | rangeStep => "range step must not be zero"
  | mathFunction name => "unsupported function 'math." ++ name ++ "'"
  | function name =>
    "unsupported function '" ++ name ++ "'; expected one of sum, prod, max, min, any, all"
  | expectedCall name => "expected call to '" ++ name ++ "'"
  | oneArgument name => "function " ++ name ++ " expects exactly one argument"
  | noKeywords name => "function " ++ name ++ " does not accept keyword arguments"
  | expectedGenerator name => "function " ++ name ++ " expects a generator expression"
  | ranOut => "unexpected end of tokens"

structure ParseError where
  fault : ParseFault
  span : Span
deriving DecidableEq

def ParseError.ofScan (e : Token.ScanError) : ParseError :=
  ⟨.scan e.fault, e.span⟩

def ParseError.message (e : ParseError) : String :=
  "parse error at " ++ e.span.display ++ ": " ++ e.fault.message

def Token.ScanError.message (e : Token.ScanError) : String :=
  "lex error at " ++ e.span.display ++ ": " ++ e.fault.message

end Comprehend
