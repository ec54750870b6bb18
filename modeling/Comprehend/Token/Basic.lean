import Comprehend.Number.Binary64
import Comprehend.Source.Span

/-! Tokens of the expression language. -/
namespace Comprehend

inductive TokenKind where
  | int (n : Int64)
  | float (x : Number.Binary64)
  | str (s : String)
  | ident (s : String)
  | kwFor | kwIn | kwIf | kwElse | kwAnd | kwOr | kwNot | kwIs | kwLambda
  | kwTrue | kwFalse | kwNone
  | lparen | rparen | lbrace | rbrace | lbracket | rbracket
  | comma | colon | semicolon | dot
  | assign | eqEq | notEq | lt | gt | ltEq | gtEq
  | plus | minus | star | starStar | slash | slashSlash | percent
  | amp | pipe | caret | tilde | shl | shr
  | newline | eof
deriving DecidableEq

structure Token where
  kind : TokenKind
  span : Span
deriving DecidableEq

namespace TokenKind

def int? : TokenKind → Option Int64
  | int n => some n
  | _ => none

theorem int?_eq_none {k : TokenKind} : k.int? = none ↔ ∀ n, k = int n → False := by
  cases k with
  | int n => exact ⟨nofun, fun h => (h n rfl).elim⟩
  | _ => exact ⟨fun _ => nofun, fun _ => rfl⟩

/-- Decided by the constructor: the instance for finite types would go through every 64-bit
integer, and the equations of a match on kinds are proved by deciding this. -/
instance (k : TokenKind) : Decidable (∀ n, k = int n → False) :=
  decidable_of_iff _ int?_eq_none

/-- The kind of an identifier's text: a keyword, or a name. -/
def ofWord (s : String) : TokenKind :=
  match s with
  | "for" => kwFor
  | "in" => kwIn
  | "if" => kwIf
  | "else" => kwElse
  | "and" => kwAnd
  | "or" => kwOr
  | "not" => kwNot
  | "is" => kwIs
  | "lambda" => kwLambda
  | "True" => kwTrue
  | "False" => kwFalse
  | "None" => kwNone
  | _ => ident s

def isOpening : TokenKind → Bool
  | lparen | lbracket | lbrace => true
  | _ => false

def isClosing : TokenKind → Bool
  | rparen | rbracket | rbrace => true
  | _ => false

/-- Bracket depth behind a token, given the depth before it. A closer at depth zero is let pass. -/
def depthAfter (depth : Nat) (k : TokenKind) : Nat :=
  if k.isOpening then depth + 1 else if k.isClosing then depth - 1 else depth

def display : TokenKind → String
  | int n => toString n.toInt
  | float x => x.plain
  | str s => "'" ++ s ++ "'"
  | ident s => s
  | kwFor => "for"
  | kwIn => "in"
  | kwIf => "if"
  | kwElse => "else"
  | kwAnd => "and"
  | kwOr => "or"
  | kwNot => "not"
  | kwIs => "is"
  | kwLambda => "lambda"
  | kwTrue => "True"
  | kwFalse => "False"
  | kwNone => "None"
  | lparen => "("
  | rparen => ")"
  | lbrace => "\x7b"
  | rbrace => "\x7d"
  | lbracket => "["
  | rbracket => "]"
  | comma => ","
  | colon => ":"
  | semicolon => ";"
  | dot => "."
  | assign => "="
  | eqEq => "=="
  | notEq => "!="
  | lt => "<"
  | gt => ">"
  | ltEq => "<="
  | gtEq => ">="
  | plus => "+"
  | minus => "-"
  | star => "*"
  | starStar => "**"
  | slash => "/"
  | slashSlash => "//"
  | percent => "%"
  | amp => "&"
  | pipe => "|"
  | caret => "^"
  | tilde => "~"
  | shl => "<<"
  | shr => ">>"
  | newline => "<newline>"
  | eof => "<EOF>"

end TokenKind

end Comprehend
