import Comprehend.Dialect.Basic

/-! Operators in the target languages, from the texts of their operands. -/
namespace Comprehend

def Expr.isPositive : Expr → Bool
  | .const (.int n) => 0 < n.toInt
  | _ => false

def Expr.natural? : Expr → Option Int64
  | .const (.int n) => if 0 ≤ n.toInt then some n else none
  | _ => none

namespace Printer

/-- No value of the expression is negative, as far as its names tell. -/
def isNonNegative (p : Printer) : Expr → Bool
  | .const (.int n) => 0 ≤ n.toInt
  | .name n => n ∈ p.nonNegative
  | .binary l op r =>
    match op with
    | .mod => r.isPositive || (p.isNonNegative l && p.isNonNegative r)
    | .add | .mul | .floorDiv | .pow => p.isNonNegative l && p.isNonNegative r
    | _ => false
  | _ => false

def signMark (d : Dialect) : UnaryOp → String
  | .pos => ""
  | .neg => if d.isDotted then ".-" else "-"
  | .not => if d.isSql then "NOT " else if d.isDotted then ".!" else "!"
  | .invert =>
    match d with
    | .rust => "!"
    | .go => "^"
    | .juliaBroadcast => ".~"
    | _ => "~"

/-- A plus sign is not written. -/
def unary (p : Printer) (op : UnaryOp) (e : Operand) : String :=
  match op with
  | .pos => e.text
  | op => signMark p.dialect op ++ e.within p.dialect 14

def binarySymbol (d : Dialect) (op : BinOp) : String :=
  match op, d with
  | .floorDiv, .julia => "÷"
  | .floorDiv, .juliaBroadcast => ".÷"
  | .floorDiv, _ => "/"
  | .bitXor, .postgres => "#"
  | .pow, _ => op.symbol
  | .bitXor, _ => op.symbol
  | op, .juliaBroadcast => "." ++ op.symbol
  | op, _ => op.symbol

def floorQuotient (p : Printer) (l r : Operand) : String :=
  "Math.floor(" ++ l.within p.dialect 11 ++ " / " ++ r.within p.dialect 12 ++ ")"

/-- An operator whose target has one of the same meaning for these operands. -/
def plain (p : Printer) (l : Operand) (op : BinOp) (r : Operand) : String :=
  match op, p.dialect with
  | .floorDiv, .typescript => p.floorQuotient l r
  | .bitXor, .julia => "xor(" ++ l.text ++ ", " ++ r.text ++ ")"
  | .bitXor, .juliaBroadcast => "xor.(" ++ l.text ++ ", " ++ r.text ++ ")"
  | .bitXor, .sqlite =>
    let a := l.within p.dialect 14
    let b := r.within p.dialect 14
    "((" ++ a ++ " | " ++ b ++ ") - (" ++ a ++ " & " ++ b ++ "))"
  | op, d =>
    l.within d op.precedence ++ " " ++ binarySymbol d op ++ " " ++ r.within d (op.precedence + 1)

/-- What a method is called on; an integer constant names its type. -/
def receiver (p : Printer) (e : Operand) : String :=
  match e.expr with
  | .const (.int n) =>
    let text := toString n.toInt ++ p.intType
    if 0 ≤ n.toInt then text else round text
  | _ => e.within p.dialect 14

/-- The remainder with the sign of the divisor, out of one with the sign of the dividend. -/
def remainder (a b : String) : String :=
  "(" ++ a ++ " % " ++ b ++ " + " ++ b ++ ") % " ++ b

/-- Quotient and remainder that round down, for operands that may be negative. -/
def floored (p : Printer) (l : Operand) (op : BinOp) (r : Operand) : String :=
  let isQuotient := op = .floorDiv
  let general : String :=
    let a := l.within p.dialect 11
    let b := r.within p.dialect 12
    if isQuotient then "((" ++ a ++ " - " ++ remainder a b ++ ") / " ++ b ++ ")"
    else "(" ++ remainder a b ++ ")"
  match p.dialect with
  | .julia | .juliaBroadcast =>
    (if isQuotient then "fld" else "mod") ++ p.dialect.dot ++ "(" ++ l.text ++ ", " ++ r.text ++ ")"
  | .rust =>
    if r.expr.isPositive then
      p.receiver l ++ (if isQuotient then ".div_euclid(" else ".rem_euclid(") ++ r.text ++ ")"
    else general
  | .typescript => if isQuotient then p.floorQuotient l r else general
  | _ => general

def power (p : Printer) (base exponent : Operand) : String :=
  match p.dialect with
  | .rust =>
    let receiver := p.receiver base
    match exponent.expr with
    | .const (.float _) => "(" ++ receiver ++ " as f64).powf(" ++ exponent.text ++ ")"
    | e =>
      match e.natural? with
      | some n => receiver ++ ".pow(" ++ toString n.toInt ++ ")"
      | none => receiver ++ ".pow(" ++ exponent.within p.dialect 14 ++ " as u32)"
  | .typescript => base.within p.dialect 14 ++ " ** " ++ exponent.within p.dialect 12
  | .go =>
    p.intType ++ "(math.Pow(float64(" ++ base.text ++ "), float64(" ++ exponent.text ++ ")))"
  | .csharp => "(" ++ p.intType ++ ")Math.Pow(" ++ base.text ++ ", " ++ exponent.text ++ ")"
  | .sqlite | .postgres => "POWER(" ++ base.text ++ ", " ++ exponent.text ++ ")"
  | .julia | .juliaBroadcast =>
    base.within p.dialect 14 ++ " " ++ p.dialect.dot ++ "^ " ++ exponent.within p.dialect 12

def binary (p : Printer) (l : Operand) (op : BinOp) (r : Operand) : String :=
  match op with
  | .pow => p.power l r
  | .floorDiv | .mod =>
    if p.isNonNegative l.expr && p.isNonNegative r.expr then p.plain l op r else p.floored l op r
  | op => p.plain l op r

def boolPrecedence : BoolOp → Nat
  | .or => 2
  | .and => 3

def boolSymbol (d : Dialect) (op : BoolOp) : String :=
  match op with
  | .and => if d.isSql then "AND" else if d.isDotted then ".&" else "&&"
  | .or => if d.isSql then "OR" else if d.isDotted then ".|" else "||"

def boolOp (p : Printer) (op : BoolOp) (l r : Operand) : String :=
  let d := p.dialect
  let n := boolPrecedence op
  let (left, right) := if d.isDotted then (14, 14) else (n, n + 1)
  l.within d left ++ " " ++ boolSymbol d op ++ " " ++ r.within d right

def compareSymbol (d : Dialect) (op : CmpOp) : String :=
  if d.isSql then
    match op with
    | .same => "IS"
    | .notSame => "IS NOT"
    | .eq => "="
    | .notEq => "<>"
    | op => op.symbol
  else if d = .typescript then
    match op with
    | .eq | .same => "==="
    | .notEq | .notSame => "!=="
    | op => op.symbol
  else if d.isDotted then "." ++ op.symbol
  else op.symbol

/-- A tuple or list display, from whose items a collection is written anew. -/
def isDisplay : Expr → Bool
  | .tuple _ => true
  | .list _ => true
  | _ => false

/-- Membership of `item` in a container; `items` are the texts of a display's parts. -/
def membership (p : Printer) (item : Operand) (negated : Bool) (container : Operand)
    (items : List Operand) : String :=
  let d := p.dialect
  let written := isDisplay container.expr
  let inner := Operand.join items
  let negation (mark test : String) : String := if negated then mark ++ test else test
  match d with
  | .rust =>
    let hay := if written then "[" ++ inner ++ "]" else container.within d 14
    negation "!" (hay ++ ".contains(&" ++ item.text ++ ")")
  | .typescript =>
    let hay := if written then "[" ++ inner ++ "]" else container.within d 14
    negation "!" (hay ++ ".includes(" ++ item.text ++ ")")
  | .go =>
    let hay := if written then "[]" ++ p.intType ++ "\x7b" ++ inner ++ "\x7d" else container.text
    negation "!" ("slices.Contains(" ++ hay ++ ", " ++ item.text ++ ")")
  | .csharp =>
    let hay := if written then "new[] \x7b " ++ inner ++ " \x7d" else container.within d 14
    negation "!" (hay ++ ".Contains(" ++ item.text ++ ")")
  | .sqlite | .postgres =>
    let hay := if written then round inner else container.text
    item.within d 6 ++ (if negated then " NOT IN " else " IN ") ++ hay
  | .julia =>
    let test := item.within d 6 ++ " in " ++ container.within d 6
    if negated then "!(" ++ test ++ ")" else test
  | .juliaBroadcast => negation ".!" ("in.(" ++ item.text ++ ", Ref(" ++ container.text ++ "))")

def compare (p : Printer) (l : Operand) (op : CmpOp) (r : Operand) (items : List Operand) :
    String :=
  match op with
  | .isIn => p.membership l false r items
  | .notIn => p.membership l true r items
  | op => l.within p.dialect 6 ++ " " ++ compareSymbol p.dialect op ++ " " ++ r.within p.dialect 6

def ternary (p : Printer) (cond yes no : Operand) : String :=
  match p.dialect with
  | .rust => "if " ++ cond.text ++ " \x7b " ++ yes.text ++ " \x7d else \x7b " ++ no.text ++ " \x7d"
  | .go =>
    "func() " ++ p.intType ++ " \x7b if " ++ cond.text ++ " \x7b return " ++ yes.text ++
      " \x7d; return " ++ no.text ++ " \x7d()"
  | .sqlite | .postgres =>
    "CASE WHEN " ++ cond.text ++ " THEN " ++ yes.text ++ " ELSE " ++ no.text ++ " END"
  | .juliaBroadcast => "ifelse.(" ++ cond.text ++ ", " ++ yes.text ++ ", " ++ no.text ++ ")"
  | .typescript | .csharp | .julia =>
    cond.within p.dialect 2 ++ " ? " ++ yes.within p.dialect 2 ++ " : " ++ no.within p.dialect 1

end Printer

end Comprehend
