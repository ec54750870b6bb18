import Comprehend.FreshName
import Comprehend.Strategy.Choice
import Comprehend.Target.JuliaLiteral
import Comprehend.Target.Walk
import Comprehend.Text.Trim

/-! Julia: loops or operations on whole arrays, as the strategy decides. A parallel fold has one part
for each thread, and a parallel dictionary has one shard for each thread. -/
namespace Comprehend.Target.Julia

open Strategy (Decision Flavor Mode Note RequestedMode Request)

structure Settings where
  element : ScalarType
  key : ScalarType
  value : ScalarType
  mode : RequestedMode
  unchecked : Bool
  funcName : String
  explain : Bool
  parallel : Bool

def requestedMode (o : Options) : Except OptionFault RequestedMode := do
  let name ← o.strOr "mode" "auto"
  match RequestedMode.ofName? name with
  | some mode => return mode
  | none => Options.fault "mode" (.unknownMode name)

/-- The first literal of a comprehension that cannot be written. -/
def literalFault? (c : Comprehension) : Option LiteralFault :=
  c.expressions.findSome? fun s => (Expr.parse? s).bind fault?

/-- Reads the options. The literals are looked at between two of them. -/
def Settings.ofOptions (c : Comprehension) (o : Options) : Except RenderError Settings := do
  let types ← o.typeInfo.mapError .option
  let element ← (Options.scalarType (.unknownField "element_type") types.element).mapError .option
  let mode ← (requestedMode o).mapError .option
  let unchecked ← (o.boolOr "unsafe" false).mapError .option
  let funcName ← o.funcName.mapError .option
  let explain ← (o.boolOr "explain" true).mapError .option
  if let some fault := literalFault? c then throw (.literal fault)
  let parallel ← (o.boolOr "parallel" false).mapError .option
  let key ← (Options.scalarType (.unknownField "key_type") types.key).mapError .option
  let value ← (Options.scalarType (.unknownField "value_type") types.value).mapError .option
  return { element, key, value, mode, unchecked, funcName, explain, parallel }

def typeName : ScalarType → String
  | .int => "Int"
  | .float => "Float64"
  | .str => "String"
  | .bool => "Bool"

/-- The type of numbers in which a fold starts. -/
def numericType : ScalarType → NumericType
  | .float => .float
  | _ => .int

def typeOf (text : String) (scalar : ScalarType) : String :=
  match tupleArity? text with
  | some n => "Tuple\x7b" ++ commas (List.replicate n (typeName scalar)) ++ "\x7d"
  | none => typeName scalar

def itemType (c : Comprehension) (s : Settings) : String :=
  typeOf c.elementText s.element

def dictType (c : Comprehension) (s : Settings) : String :=
  "Dict\x7b" ++ typeOf c.keyText s.key ++ ", " ++ typeOf c.valueText s.value ++ "\x7d"

def returnType (c : Comprehension) (s : Settings) : String :=
  match c.reducer? with
  | some k => if k.isBoolean then "Bool" else typeName s.element
  | none =>
    match c.shape with
    | .set => "Set\x7b" ++ itemType c s ++ "\x7d"
    | .dict => dictType c s
    | .list | .generator => "Vector\x7b" ++ itemType c s ++ "\x7d"

def walkText (w : ClosedWalk) : String :=
  if w.step = 1 then toString w.start ++ ":" ++ toString w.last
  else toString w.start ++ ":" ++ toString w.step ++ ":" ++ toString w.last

def source (scalar : Printer) : Source → String
  | .range r => walkText r.exactWalk
  | .text s => scalar.printText s

/-- The loops; `mark` stands in front of the outer one. -/
def loops (scalar : Printer) (mark : String) : List Generator → List Loop
  | [] => []
  | g :: rest => loop mark g :: rest.map (loop "")
where
  loop (mark : String) (g : Generator) : Loop :=
    ⟨mark ++ "for " ++ g.var ++ " in " ++ source scalar g.source,
      g.filters.map fun f =>
        .block ("if !(" ++ scalar.printText f ++ ")") "end" [.line "continue"]⟩

def fold (target value : String) : Reducer → String
  | .sum => target ++ " += " ++ value
  | .prod => target ++ " *= " ++ value
  | .max => target ++ " = max(" ++ target ++ ", " ++ value ++ ")"
  | .min => target ++ " = min(" ++ target ++ ", " ++ value ++ ")"
  | .any => target ++ " = " ++ target ++ " || " ++ value
  | .all => target ++ " = " ++ target ++ " && " ++ value

/-- An item goes into a collection. -/
def store (scalar : Printer) (c : Comprehension) (target : String) : Layout :=
  if c.shape = .dict then
    .line (target ++ "[" ++ scalar.printText c.keyText ++ "] = " ++ scalar.printText c.valueText)
  else .line ("push!(" ++ target ++ ", " ++ scalar.printText c.elementText ++ ")")

def neutral (s : Settings) (op : AssocOp) : String :=
  op.neutral.literal (numericType s.element)

def foldOp? : Reducer → Option AssocOp
  | .sum => some .sum
  | .prod => some .prod
  | .max => some .max
  | .min => some .min
  | .any | .all => none

/-- The accumulator of a fold or the empty collection; a test needs neither. -/
def start (c : Comprehension) (s : Settings) : List String :=
  match c.reducer? with
  | some k =>
    match foldOp? k with
    | some op => ["acc = " ++ neutral s op]
    | none => []
  | none =>
    match c.shape with
    | .set => ["result = Set\x7b" ++ itemType c s ++ "\x7d()"]
    | .dict => ["result = " ++ dictType c s ++ "()"]
    | .list | .generator => ["result = " ++ itemType c s ++ "[]"]

/-- Without checks the bounds of arrays are not tested, and a plain sum or product may be taken in
any order. -/
def loopMark (c : Comprehension) (s : Settings) : String :=
  let isPlain := c.generators.length = 1 && !c.hasFilters &&
    (c.reducer? = some .sum || c.reducer? = some .prod)
  if s.unchecked then (if isPlain then "@inbounds @simd " else "@inbounds ") else ""

def sequential (scalar : Printer) (c : Comprehension) (s : Settings) : List Layout :=
  let element := scalar.printText c.elementText
  let leaf : Layout := match c.reducer? with
    | some .any => .block ("if " ++ element) "end" [.line "return true"]
    | some .all => .block ("if !(" ++ element ++ ")") "end" [.line "return false"]
    | some k => .line (fold "acc" element k)
    | none => store scalar c "result"
  let answer := match c.reducer? with
    | some .any => "return false"
    | some .all => "return true"
    | some _ => "return acc"
    | none => "return result"
  .lines (start c s) :: nest "end" [leaf] (loops scalar (loopMark c s) c.generators) ++
    [.line answer]

def threads : String :=
  "@threads :static "

/-- Each thread folds into a part of its own; the parts start from the neutral element. -/
def partials (scalar : Printer) (c : Comprehension) (g : Grant) (names : NameSource) :
    List Layout × NameSource :=
  let (parts, names) := names.fresh "parts"
  let slot := parts ++ "[threadid()]"
  let element := scalar.printText c.elementText
  let leaf := match c.reducer? with
    | some k => fold slot element k
    | none => slot ++ " = " ++ g.op.combineText slot element
  (.line (parts ++ " = fill(" ++ g.neutralLiteral ++ ", nthreads())") ::
    nest "end" [.line leaf] (loops scalar threads c.generators) ++
    [.line ("return reduce(" ++ g.op.reducer ++ ", " ++ parts ++ ")")], names)

/-- Each thread has a dictionary of its own; they are merged in the order of the threads. -/
def sharded (scalar : Printer) (c : Comprehension) (s : Settings) (names : NameSource) :
    List Layout × NameSource :=
  let (shards, names) := names.fresh "shards"
  (.line (shards ++ " = [" ++ dictType c s ++ "() for _ in 1:nthreads()]") ::
    nest "end" [store scalar c (shards ++ "[threadid()]")] (loops scalar threads c.generators) ++
    [.line ("result = " ++ dictType c s ++ "()"),
      .block ("for shard in " ++ shards) "end" [.line "merge!(result, shard)"],
      .line "return result"], names)

/-- The two printers of a function: for single values and for whole arrays. -/
structure Printers where
  scalar : Printer
  dotted : Printer

namespace Printers

def ofComprehension (c : Comprehension) : Printers :=
  ⟨printerFor .julia c, printerFor .juliaBroadcast c⟩

/-- An expression over the array that the variable stands for. One without the variable has the same
value everywhere. -/
def spread (p : Printers) (var : String) (e : Expr) : String :=
  if e.mentions var then p.dotted.print e
  else "fill(" ++ p.scalar.print e ++ ", length(" ++ var ++ "))"

def spreadText (p : Printers) (var text : String) : String :=
  match Expr.parse? text with
  | some (.tuple items) => "tuple.(" ++ commas (items.map (p.spread var)) ++ ")"
  | some e => p.spread var e
  | none => p.dotted.printText text

end Printers

/-- A filter is a mask that the array is cut by. -/
def masks (p : Printers) (var : String) : List String → NameSource → List String × NameSource
  | [], names => ([], names)
  | f :: fs, names =>
    let (mask, names) := names.fresh "mask"
    let (rest, names) := masks p var fs names
    ((mask ++ " = " ++ p.spreadText var f) :: (var ++ " = " ++ var ++ "[" ++ mask ++ "]") :: rest,
      names)

/-- The result over the array that the variable stands for. -/
def gathered (p : Printers) (c : Comprehension) (s : Settings) (var : String) : String :=
  let element := p.spreadText var c.elementText
  match c.reducer? with
  | some .sum => "sum(" ++ element ++ ")"
  | some .prod => "prod(" ++ element ++ ")"
  | some .max => "maximum(" ++ element ++ "; init = " ++ neutral s .max ++ ")"
  | some .min => "minimum(" ++ element ++ "; init = " ++ neutral s .min ++ ")"
  | some .any => "any(" ++ element ++ ")"
  | some .all => "all(" ++ element ++ ")"
  | none =>
    match c.shape with
    | .dict => "Dict(zip(" ++ p.spreadText var c.keyText ++ ", " ++ p.spreadText var c.valueText ++
        "))"
    | .set => "Set(" ++ element ++ ")"
    | .list | .generator =>
      if isVariable c.elementText var then "collect(" ++ var ++ ")" else element

def broadcast (p : Printers) (c : Comprehension) (s : Settings) (names : NameSource) :
    List Layout × NameSource :=
  match c.generators with
  | [] => ([.line ("return " ++ returnType c s ++ "()")], names)
  | g :: _ =>
    let (cuts, names) := masks p g.var g.filters names
    ([.line (g.var ++ " = " ++ source p.scalar g.source), .lines cuts,
      .line ("return " ++ gathered p c s g.var)], names)

def request (c : Comprehension) (s : Settings) : Request :=
  { Request.ofComprehension c with
    mode := s.mode
    elementType := typeName s.element
    parallel := s.parallel
    unchecked := s.unchecked }

/-- Operations on whole arrays need a single generator. -/
def decision (c : Comprehension) (s : Settings) : Decision :=
  let d := Strategy.decide c (request c s)
  if d.mode = .broadcast && c.isNested then
    { d with mode := .loops, notes := d.notes ++ [.singleGenerator] }
  else d

/-- The body of the function by given printers, and the names that were made up for it. -/
def bodyBy (p : Printers) (c : Comprehension) (s : Settings) (d : Decision) :
    List Layout × NameSource :=
  match d.mode, d.flavor with
  | .broadcast, _ => broadcast p c s {}
  | .loops, .sequential => (sequential p.scalar c s, {})
  | .loops, .partials g => partials p.scalar c g {}
  | .loops, .sharded => sharded p.scalar c s {}

def body (c : Comprehension) (s : Settings) (d : Decision) : List Layout × NameSource :=
  bodyBy (Printers.ofComprehension c) c s d

/-- The function is laid out by itself, and its lines are put below the notes. -/
def layout (c : Comprehension) (s : Settings) : List Layout :=
  let d := decision c s
  let function : Layout :=
    .block ("function " ++ s.funcName ++ "()::" ++ returnType c s) "end" (body c s d).1
  (if d.flavor.isParallel then [.line "using Base.Threads", .blank] else []) ++
    [.lines (if s.explain then d.notes.map fun n => "# NOTE: " ++ n.text else []),
      .lines (Text.lines (Layout.render Layout.fourBlanks [function]))]

def render (c : Comprehension) (o : Options) : Except RenderError String := do
  return Layout.render Layout.fourBlanks (layout c (← Settings.ofOptions c o))

end Comprehend.Target.Julia

namespace Comprehend.Target

def julia : Target where
  name := "julia"
  accepted := ["func_name", "parallel", "mode", "explain", "unsafe", "type_info"]
  render := Julia.render

end Comprehend.Target
