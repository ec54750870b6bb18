import Comprehend.Number.Binary64
import Comprehend.Number.Int64
import Comprehend.Text.Trim
import Comprehend.Source.Span
import Comprehend.Token.Basic
import Comprehend.Token.Number
import Comprehend.Token.Scan
import Comprehend.Json.Basic
import Comprehend.Json.Reader
import Comprehend.Comprehension.Basic
import Comprehend.Comprehension.Flaw
import Comprehend.Comprehension.Json
import Comprehend.Expr.Basic
import Comprehend.Expr.Constant
import Comprehend.Expr.Parser
import Comprehend.Comprehension.Parser
import Comprehend.Dialect.Basic
import Comprehend.Dialect.Literal
import Comprehend.Dialect.Operator
import Comprehend.Dialect.Print
import Comprehend.FreshName
import Comprehend.Layout
import Comprehend.Options.Basic
import Comprehend.Options.Json
import Comprehend.Strategy.Associativity
import Comprehend.Strategy.Choice
import Comprehend.Target.Basic
import Comprehend.Target.Rust
import Comprehend.Target.CSharp
import Comprehend.Target.Sql
import Comprehend.Target.TypeScript
import Comprehend.Target.Go
import Comprehend.Target.JuliaLiteral
import Comprehend.Target.Julia
import Comprehend.Target.Registry
import Comprehend.Toml.Basic
import Comprehend.Toml.Text
import Comprehend.Config
import Comprehend.CommandLine.Arguments
import Comprehend.CommandLine.Command
import Comprehend.CommandLine.Run
import Comprehend.Main
import Comprehend.Proofs.Grammar
import Comprehend.Proofs.GrammarSound
import Comprehend.Proofs.Phrases
import Comprehend.Proofs.Characters
import Comprehend.Proofs.GrammarComplete
import Comprehend.Proofs.Lexeme
import Comprehend.Proofs.Brackets
import Comprehend.Proofs.Pieces
import Comprehend.Proofs.ExpressionText
import Comprehend.Proofs.Spelling
import Comprehend.Proofs.FloorArithmetic
import Comprehend.Proofs.Fragments
import Comprehend.Proofs.Loops
import Comprehend.Proofs.Statements
import Comprehend.Proofs.Splitting
import Comprehend.Proofs.Captures
import Comprehend.Proofs.Unparsing
import Comprehend.Proofs.Partials
import Comprehend.Proofs.Gates
import Comprehend.Proofs.JsonText
import Comprehend.Proofs.Storage
import Comprehend.Proofs.Validity
import Comprehend.Proofs.RangeNumbers
import Comprehend.Proofs.TargetText
import Comprehend.Proofs.RangeWalks
import Comprehend.Proofs.RangePositions
import Comprehend.Proofs.RangeChunks
import Comprehend.Proofs.Operands
import Comprehend.Proofs.Dispatch
import Comprehend.Proofs.Names
import Comprehend.Proofs.Conditions
import Comprehend.Proofs.ConditionText
import Comprehend.Proofs.WhereClause
import Comprehend.Proofs.Positions
import Comprehend.Proofs.Faults
import Comprehend.Proofs.Excerpts
import Comprehend.Proofs.PlusSigns
import Comprehend.Proofs.PlusArithmetic
import Comprehend.Proofs.PlusPrinting
import Comprehend.Proofs.Formula
import Comprehend.Proofs.RangeExact
import Comprehend.Proofs.FormulaPrinting
import Comprehend.Proofs.GoGrouping
import Comprehend.Proofs.Broadcast
import Comprehend.Proofs.Constants
import Comprehend.Proofs.FoldingSteps
import Comprehend.Proofs.RangeArguments
import Comprehend.Proofs.ConditionalTokens
import Comprehend.Proofs.ModeChoice
import Comprehend.Proofs.LiteralText
import Comprehend.Proofs.NameTokens
import Comprehend.Proofs.LayoutRewriting
import Comprehend.Proofs.TemplateText
import Comprehend.Proofs.NonNegativeRanges
import Comprehend.Proofs.ClassNames
import Comprehend.Proofs.RangeCalls
import Comprehend.Proofs.HelperNames
import Comprehend.Proofs.PackageUse
import Comprehend.Proofs.Imports
import Comprehend.Proofs.Cursor
import Comprehend.Proofs.CursorExpressions
import Comprehend.Proofs.FreshNames
import Comprehend.Proofs.JuliaDisplays
import Comprehend.Proofs.Outlines
import Comprehend.Proofs.CursorRuns
import Comprehend.Proofs.CursorStatements
