import Comprehend.Target.Basic
import Comprehend.Target.Walk
import Comprehend.Text.Trim

/-! Go: loops. In parallel each worker walks a chunk of the positions of the outer generator, and the
parts are merged in order. -/
namespace Comprehend.Target.Go

structure Settings where
  element : ScalarType
  key : ScalarType
  value : ScalarType
  funcName : String
  parallel : Bool

def Settings.ofOptions (o : Options) : Except OptionFault Settings := do
  let types ← o.typeInfo
  let element ← Options.scalarType (.unknownField "element_type") types.element
  let key ← Options.scalarType (.unknownField "key_type") types.key
  let value ← Options.scalarType (.unknownField "value_type") types.value
  let funcName ← o.funcName
  let parallel ← o.boolOr "parallel" false
  return ⟨element, key, value, funcName, parallel⟩

def typeName : ScalarType → String
  | .int => "int"
  | .float => "float64"
  | .str => "string"
  | .bool => "bool"

/-- A tuple is an array of integers. -/
def typeOf (text : String) (scalar : ScalarType) : String :=
  match tupleArity? text with
  | some n => "[" ++ toString n ++ "]int"
  | none => typeName scalar

def itemType (c : Comprehension) (s : Settings) : String :=
  typeOf c.elementText s.element

def returnType (c : Comprehension) (s : Settings) : String :=
  match c.reducer? with
  | some k => if k.isBoolean then "bool" else typeName s.element
  | none =>
    match c.shape with
    | .set => "map[" ++ itemType c s ++ "]struct\x7b\x7d"
    | .dict => "map[" ++ typeOf c.keyText s.key ++ "]" ++ typeOf c.valueText s.value
    | .list | .generator => "[]" ++ itemType c s

def neutral (element : ScalarType) : Reducer → String
  | .sum => if element = .float then "0.0" else "0"
  | .prod => if element = .float then "1.0" else "1"
  | .max => if element = .float then "math.Inf(-1)" else "math.MinInt"
  | .min => if element = .float then "math.Inf(1)" else "math.MaxInt"
  | .any | .all => "0"

def combine (value : String) : Reducer → String
  | .sum => "acc += " ++ value
  | .prod => "acc *= " ++ value
  | .max => "acc = max(acc, " ++ value ++ ")"
  | .min => "acc = min(acc, " ++ value ++ ")"
  | .any => "acc = acc || " ++ value
  | .all => "acc = acc && " ++ value

/-- The accumulator of a fold or the empty collection; a test needs neither. -/
def start (c : Comprehension) (s : Settings) : List String :=
  match c.reducer? with
  | some .any | some .all => []
  | some k => ["acc := " ++ neutral s.element k]
  | none =>
    match c.shape with
    | .set => ["result := make(map[" ++ itemType c s ++ "]struct\x7b\x7d)"]
    | .dict => ["result := make(" ++ returnType c s ++ ")"]
    | .list | .generator => ["result := make([]" ++ itemType c s ++ ", 0)"]

/-- Some expression uses the variable; a text that is no expression may use any. -/
def isUsed (c : Comprehension) (var : String) : Bool :=
  let sources := c.generators.filterMap fun g =>
    match g.source with
    | .text s => some s
    | .range _ => none
  (c.expressions ++ sources).any fun s =>
    match Expr.parse? s with
    | some e => e.mentions var
    | none => true

def walkHeader (var : String) (w : OpenWalk) : String :=
  let next :=
    if w.stride = 1 then var ++ (if w.upward then "++" else "--")
    else var ++ (if w.upward then " += " else " -= ") ++ toString w.stride
  "for " ++ var ++ " := " ++ toString w.start ++ "; " ++ var ++
    (if w.upward then " < " else " > ") ++ toString w.stop ++ "; " ++ next ++ " \x7b"

def header (p : Printer) (c : Comprehension) (g : Generator) : String :=
  match g.source with
  | .range r => walkHeader g.var r.openWalk
  | .text s =>
    (if isUsed c g.var then "for _, " ++ g.var ++ " := range " else "for range ") ++
      p.printText s ++ " \x7b"

/-- Items that do not pass are skipped. -/
def skips (p : Printer) (g : Generator) : List Layout :=
  g.filters.map fun f => .block ("if !(" ++ p.printText f ++ ") \x7b") "\x7d" [.line "continue"]

def loop (p : Printer) (c : Comprehension) (g : Generator) : Loop :=
  ⟨header p c g, skips p g⟩

/-- The outer loop of a worker walks positions, and the variable is the value at a position. -/
def chunkLoop (p : Printer) (c : Comprehension) (g : Generator) : Loop :=
  let value := match g.source with
    | .range r => r.affine "idx"
    | .text s => p.printText s ++ "[idx]"
  ⟨"for idx := worker * chunk; idx < min((worker+1)*chunk, n); idx++ \x7b",
    (if isUsed c g.var then [.line (g.var ++ " := " ++ value)] else []) ++ skips p g⟩

/-- What is done with an item. A test that is decided leaves with `leave`. -/
def leaf (p : Printer) (c : Comprehension) (leave : String → List String) : Layout :=
  let element := p.printText c.elementText
  match c.reducer? with
  | some .any => .block ("if " ++ element ++ " \x7b") "\x7d" [.lines (leave "true")]
  | some .all => .block ("if !(" ++ element ++ ") \x7b") "\x7d" [.lines (leave "false")]
  | some k => .line (combine element k)
  | none =>
    match c.shape with
    | .dict => .line ("result[" ++ p.printText c.keyText ++ "] = " ++ p.printText c.valueText)
    | .set => .line ("result[" ++ element ++ "] = struct\x7b\x7d\x7b\x7d")
    | .list | .generator => .line ("result = append(result, " ++ element ++ ")")

def sequential (p : Printer) (c : Comprehension) (s : Settings) : List Layout :=
  let answer := match c.reducer? with
    | some .any => "return false"
    | some .all => "return true"
    | some _ => "return acc"
    | none => "return result"
  .lines (start c s) ::
    nest "\x7d" [leaf p c fun b => ["return " ++ b]] (c.generators.map (loop p c)) ++
    [.line answer]

def count (p : Printer) (c : Comprehension) : String :=
  match c.generators with
  | [] => "0"
  | g :: _ =>
    match g.source with
    | .range r => toString r.len
    | .text s => "len(" ++ p.printText s ++ ")"

def chunkLoops (p : Printer) (c : Comprehension) : List Loop :=
  match c.generators with
  | [] => []
  | g :: rest => chunkLoop p c g :: rest.map (loop p c)

/-- How the parts become the result. -/
def merge (c : Comprehension) (s : Settings) : List Layout :=
  let each (body : Layout) : Layout := .block "for _, part := range partials \x7b" "\x7d" [body]
  let decided (test hit miss : String) : List Layout :=
    [each (.block ("if " ++ test ++ " \x7b") "\x7d" [.line ("return " ++ hit)]),
      .line ("return " ++ miss)]
  match c.reducer? with
  | some .any => decided "part" "true" "false"
  | some .all => decided "!part" "false" "true"
  | some k => [.lines (start c s), each (.line (combine "part" k)), .line "return acc"]
  | none =>
    let body : Layout := match c.shape with
      | .set => .block "for k := range part \x7b" "\x7d"
          [.line "result[k] = struct\x7b\x7d\x7b\x7d"]
      | .dict => .block "for k, v := range part \x7b" "\x7d" [.line "result[k] = v"]
      | .list | .generator => .line "result = append(result, part...)"
    [.lines (start c s), each body, .line "return result"]

def parallel (p : Printer) (c : Comprehension) (s : Settings) : List Layout :=
  let leave (b : String) : List String := ["partials[worker] = " ++ b, "return"]
  let store := match c.reducer? with
    | some .any => []
    | some .all => ["partials[worker] = true"]
    | some _ => ["partials[worker] = acc"]
    | none => ["partials[worker] = result"]
  let task : List Layout :=
    .line "defer wg.Done()" :: .lines (start c s) ::
      nest "\x7d" [leaf p c leave] (chunkLoops p c) ++ [.lines store]
  [.line ("n := " ++ count p c), .line "workers := runtime.NumCPU()",
    .line "chunk := (n + workers - 1) / workers",
    .line ("partials := make([]" ++ returnType c s ++ ", workers)"), .line "var wg sync.WaitGroup",
    .block "for worker := 0; worker < workers; worker++ \x7b" "\x7d"
      [.line "wg.Add(1)", .block "go func(worker int) \x7b" "\x7d(worker)" task],
    .line "wg.Wait()"] ++ merge c s

/-- The texts of which the loops and the leaf are made. -/
def texts (c : Comprehension) : List String :=
  let loops := c.generators.flatMap fun g =>
    (match g.source with
      | .text s => [s]
      | .range _ => []) ++ g.filters
  let pair := if c.shape = .dict && c.reduction.isNone then [c.keyText, c.valueText] else []
  loops ++ c.elementText :: pair

/-- The packages that the function needs, in order of their names. -/
def imports (c : Comprehension) (s : Settings) : List String :=
  let used := ((texts c).map (Packages.ofText .go)).foldl Packages.union {}
  let bounds := c.reducer? = some .max || c.reducer? = some .min
  (if used.math || bounds then ["math"] else []) ++ (if s.parallel then ["runtime"] else []) ++
    (if used.slices then ["slices"] else []) ++ (if s.parallel then ["sync"] else [])

def importLines (packages : List String) : List Layout :=
  let quoted (name : String) : String := "\"" ++ name ++ "\""
  match packages with
  | [] => []
  | [name] => [.line ("import " ++ quoted name), .blank]
  | names => [.block "import (" ")" [.lines (names.map quoted)], .blank]

def function (c : Comprehension) (s : Settings) : Layout :=
  let p := printerFor .go c
  .block ("func " ++ s.funcName ++ "() " ++ returnType c s ++ " \x7b") "\x7d"
    (if s.parallel then parallel p c s else sequential p c s)

/-- The function is laid out by itself, and its lines are put below the imports. -/
def layout (c : Comprehension) (s : Settings) : List Layout :=
  [.line "package main", .blank] ++ importLines (imports c s) ++
    [.lines (Text.lines (Layout.render Layout.tab [function c s]))]

def render (c : Comprehension) (o : Options) : Except OptionFault String := do
  return Layout.render Layout.tab (layout c (← Settings.ofOptions o))

end Comprehend.Target.Go

namespace Comprehend.Target

def go : Target where
  name := "go"
  accepted := ["func_name", "parallel", "type_info"]
  render c o := (Go.render c o).mapError .option

end Comprehend.Target
