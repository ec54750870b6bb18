import Comprehend.Dialect.Literal
import Comprehend.Dialect.Operator
import Comprehend.Expr.Parser
import Comprehend.Text.Words

/-! Expressions in the target languages. A text that is no expression is kept, up to the words for
truth values and their operators. -/
namespace Comprehend

namespace Printer

/-! Calls and collections -/

/-- A function of one argument, or of several, that the targets spell in their own way. -/
inductive Builtin where
  | abs | len | min | max
deriving DecidableEq

def Builtin.ofName? : String → Option Builtin
  | "abs" => some abs
  | "len" => some len
  | "min" => some min
  | "max" => some max
  | _ => none

def absolute (p : Printer) (e : Operand) : String :=
  match p.dialect with
  | .rust => e.within p.dialect 14 ++ ".abs()"
  | .typescript => "Math.abs(" ++ e.text ++ ")"
  | .go => p.intType ++ "(math.Abs(float64(" ++ e.text ++ ")))"
  | .csharp => "Math.Abs(" ++ e.text ++ ")"
  | .sqlite | .postgres => "ABS(" ++ e.text ++ ")"
  | .julia | .juliaBroadcast => "abs" ++ p.dialect.dot ++ "(" ++ e.text ++ ")"

def length (p : Printer) (e : Operand) : String :=
  match p.dialect with
  | .rust => e.within p.dialect 14 ++ ".len()"
  | .typescript => e.within p.dialect 14 ++ ".length"
  | .go => "len(" ++ e.text ++ ")"
  | .csharp => e.within p.dialect 14 ++ ".Count()"
  | .sqlite | .postgres => "LENGTH(" ++ e.text ++ ")"
  | .julia | .juliaBroadcast => "length" ++ p.dialect.dot ++ "(" ++ e.text ++ ")"

def extremum (p : Printer) (least : Bool) (first : Operand) (rest : List Operand) : String :=
  let name := if least then "min" else "max"
  let all := Operand.join (first :: rest)
  match p.dialect with
  | .rust =>
    rest.foldl (fun out e => out ++ "." ++ name ++ "(" ++ e.text ++ ")") (first.within p.dialect 14)
  | .csharp =>
    let method := if least then "Math.Min" else "Math.Max"
    rest.foldl (fun out e => method ++ "(" ++ out ++ ", " ++ e.text ++ ")") first.text
  | .typescript => "Math." ++ name ++ "(" ++ all ++ ")"
  | .go | .julia => name ++ "(" ++ all ++ ")"
  | .juliaBroadcast => name ++ ".(" ++ all ++ ")"
  | .sqlite => (if least then "MIN(" else "MAX(") ++ all ++ ")"
  | .postgres => (if least then "LEAST(" else "GREATEST(") ++ all ++ ")"

/-- The text of a call of a builtin, for as many arguments as that takes. -/
def builtin? (p : Printer) (f : Expr) (args : List Operand) : Option String :=
  match f with
  | .name n =>
    match Builtin.ofName? n, args with
    | some .abs, [e] => some (p.absolute e)
    | some .len, [e] => some (p.length e)
    | some .min, first :: second :: rest => some (p.extremum true first (second :: rest))
    | some .max, first :: second :: rest => some (p.extremum false first (second :: rest))
    | _, _ => none
  | _ => none

def call (p : Printer) (f : Operand) (args : List Operand) : String :=
  match p.builtin? f.expr args with
  | some s => s
  | none => f.within p.dialect 14 ++ p.dialect.dot ++ "(" ++ Operand.join args ++ ")"

/-- The first element has index one in Julia and index zero elsewhere. The index behind a constant is
a 64-bit sum, and the one behind the greatest constant is the least integer. -/
def subscript (p : Printer) (e index : Operand) : String :=
  let target := e.within p.dialect 14
  match p.dialect with
  | .julia | .juliaBroadcast =>
    match index.expr.natural? with
    | some n => target ++ "[" ++ toString (n + 1).toInt ++ "]"
    | none => target ++ "[" ++ index.within p.dialect 10 ++ " + 1]"
  | .rust =>
    match index.expr.natural? with
    | some n => target ++ "[" ++ toString n.toInt ++ "]"
    | none => target ++ "[" ++ index.within p.dialect 14 ++ " as usize]"
  | _ => target ++ "[" ++ index.text ++ "]"

def tuple (p : Printer) (items : List Operand) : String :=
  let inner := Operand.join items
  match p.dialect with
  | .typescript => "[" ++ inner ++ "]"
  | .go => "[" ++ toString items.length ++ "]" ++ p.intType ++ "\x7b" ++ inner ++ "\x7d"
  | .rust | .julia | .juliaBroadcast =>
    if items.length = 1 then "(" ++ inner ++ ",)" else round inner
  | _ => round inner

def list (p : Printer) (items : List Operand) : String :=
  let inner := Operand.join items
  match p.dialect with
  | .rust => "vec![" ++ inner ++ "]"
  | .go => "[]" ++ p.intType ++ "\x7b" ++ inner ++ "\x7d"
  | .csharp => "new[] \x7b " ++ inner ++ " \x7d"
  | .sqlite | .postgres => round inner
  | .typescript | .julia | .juliaBroadcast => "[" ++ inner ++ "]"

/-! The whole expression -/

mutual

def print (p : Printer) : Expr → String
  | .const l => p.dialect.literal l
  | .name n => n
  | .unary op e => p.unary op ⟨e, print p e⟩
  | .binary l op r => p.binary ⟨l, print p l⟩ op ⟨r, print p r⟩
  | .boolOp op l r => p.boolOp op ⟨l, print p l⟩ ⟨r, print p r⟩
  | .compare l op r => p.compare ⟨l, print p l⟩ op ⟨r, print p r⟩ (parts p r)
  | .ternary c y n => p.ternary ⟨c, print p c⟩ ⟨y, print p y⟩ ⟨n, print p n⟩
  | .call f args => p.call ⟨f, print p f⟩ (operands p args)
  | .member e field =>
    Operand.within ⟨e, print p e⟩ p.dialect 14 ++ "." ++ field
  | .subscript e index => p.subscript ⟨e, print p e⟩ ⟨index, print p index⟩
  | .tuple items => p.tuple (operands p items)
  | .list items => p.list (operands p items)

def parts (p : Printer) : Expr → List Operand
  | .tuple items => operands p items
  | .list items => operands p items
  | _ => []

def operands (p : Printer) : List Expr → List Operand
  | [] => []
  | e :: es => ⟨e, print p e⟩ :: operands p es

end

/-- The word that stands for a word of the source language. -/
def replaceWord (d : Dialect) (word : List Char) : List Char :=
  match String.ofList word with
  | "and" => (if d.isSql then "AND" else "&&").toList
  | "or" => (if d.isSql then "OR" else "||").toList
  | "not" => (if d.isSql then "NOT" else "!").toList
  | "True" => (d.truth true).toList
  | "False" => (d.truth false).toList
  | "None" => d.nothing.toList
  | _ => word

/-- A text that is no expression, word by word. -/
def replaceWords (d : Dialect) (s : String) : String :=
  let replaced := Text.mapWords (replaceWord d) [] s.toList
  String.ofList (if d.isJulia then Text.caretForStars replaced else replaced)

/-- The text of an expression in the target language. -/
def printText (p : Printer) (s : String) : String :=
  match Expr.parse? s with
  | some e => p.print e
  | none => replaceWords p.dialect s

end Printer

/-! Packages -/

/-- The packages that the Go texts of expressions refer to. -/
structure Packages where
  math : Bool := false
  slices : Bool := false
deriving DecidableEq

namespace Packages

def union (a b : Packages) : Packages :=
  ⟨a.math || b.math, a.slices || b.slices⟩

def names (a : Packages) : List String :=
  (if a.math then ["math"] else []) ++ (if a.slices then ["slices"] else [])

/-- Powers are a function of a package. -/
def ofBinary (d : Dialect) (op : BinOp) : Packages :=
  { math := d = .go && op = .pow }

/-- Membership is a function of a package. -/
def ofCompare (d : Dialect) (op : CmpOp) : Packages :=
  { slices := d = .go && (op = .isIn || op = .notIn) }

/-- Of the builtins, absolute values are a function of a package. -/
def ofCall (d : Dialect) (f : Expr) (args : List Expr) : Packages :=
  match f with
  | .name n => { math := d = .go && Printer.Builtin.ofName? n = some .abs && args.length = 1 }
  | _ => {}

mutual

/-- The packages that come up while the text of an expression is put together. -/
def ofExpr (d : Dialect) : Expr → Packages
  | .const _ => {}
  | .name _ => {}
  | .unary _ e => ofExpr d e
  | .binary l op r => (ofBinary d op).union ((ofExpr d l).union (ofExpr d r))
  | .boolOp _ l r => (ofExpr d l).union (ofExpr d r)
  | .compare l op r => (ofCompare d op).union ((ofExpr d l).union (ofExpr d r))
  | .ternary c y n => (ofExpr d c).union ((ofExpr d y).union (ofExpr d n))
  | .call f args => (ofCall d f args).union ((ofExpr d f).union (ofExprs d args))
  | .member e _ => ofExpr d e
  | .subscript e i => (ofExpr d e).union (ofExpr d i)
  | .tuple items => ofExprs d items
  | .list items => ofExprs d items

def ofExprs (d : Dialect) : List Expr → Packages
  | [] => {}
  | e :: es => (ofExpr d e).union (ofExprs d es)

end

/-- The packages of a text; a text that is no expression refers to none. -/
def ofText (d : Dialect) (s : String) : Packages :=
  match Expr.parse? s with
  | some e => ofExpr d e
  | none => {}

end Packages

end Comprehend
