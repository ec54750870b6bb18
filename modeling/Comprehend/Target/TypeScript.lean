import Comprehend.Target.Basic
import Comprehend.Target.Walk

/-! TypeScript: a chain of array methods. In parallel the outer range is cut into chunks, one for
each worker; the workers run the chain as a text of its own, and the parts are merged in order. -/
namespace Comprehend.Target.TypeScript

structure Settings where
  funcName : String
  parallel : Bool

def Settings.ofOptions (o : Options) : Except OptionFault Settings := do
  let funcName ← o.funcName
  let parallel ← o.boolOr "parallel" false
  return ⟨funcName, parallel⟩

def typeOf (text : String) : String :=
  match tupleArity? text with
  | some n => "[" ++ commas (List.replicate n "number") ++ "]"
  | none => "number"

def pairTypes (c : Comprehension) : String :=
  typeOf c.keyText ++ ", " ++ typeOf c.valueText

/-- The type of one item; a dictionary has pairs. -/
def itemType (c : Comprehension) : String :=
  if c.shape = .dict then "[" ++ pairTypes c ++ "]" else typeOf c.elementText

def returnType (c : Comprehension) : String :=
  match c.reducer? with
  | some k => if k.isBoolean then "boolean" else "number"
  | none =>
    match c.shape with
    | .set => "Set<" ++ typeOf c.elementText ++ ">"
    | .dict => "Map<" ++ pairTypes c ++ ">"
    | .list | .generator => typeOf c.elementText ++ "[]"

def partType (c : Comprehension) : String :=
  match c.reducer? with
  | some k => if k.isBoolean then "boolean" else "number"
  | none => itemType c ++ "[]"

/-- The class that is built from the items, if they do not stay an array. -/
def collection? (c : Comprehension) : Option String :=
  match c.reduction, c.shape with
  | none, .set => some ("new Set<" ++ typeOf c.elementText ++ ">")
  | none, .dict => some ("new Map<" ++ pairTypes c ++ ">")
  | _, _ => none

def arrayOf (length : String) (item : String) : String :=
  "Array.from(\x7b length: " ++ length ++ " \x7d, (_, k) => " ++ item ++ ")"

def source (p : Printer) : Source → String
  | .range r => arrayOf (toString r.len) (r.affine "k")
  | .text s => "Array.from(" ++ p.printText s ++ ")"

def filterStep (p : Printer) (var filter : String) : String :=
  ".filter((" ++ var ++ ") => " ++ p.printText filter ++ ")"

/-- The text with its type, where types are written at all. -/
def ascribe (typed : Bool) (text type : String) : String :=
  if typed then text ++ " as " ++ type else text

/-- What an item is made of, unless it is the variable itself. A test over a single generator is
made by the last step. -/
def projection? (p : Printer) (c : Comprehension) (typed : Bool) (var : String) : Option String :=
  if c.shape = .dict then
    some (ascribe typed ("[" ++ p.printText c.keyText ++ ", " ++ p.printText c.valueText ++ "]")
      (itemType c))
  else if c.reducer?.any Reducer.isBoolean && c.generators.length = 1 then none
  else if isVariable c.elementText var then none
  else some (ascribe (typed && (tupleArity? c.elementText).isSome) (p.printText c.elementText)
    (itemType c))

def mapSteps (p : Printer) (c : Comprehension) (typed : Bool) (var : String) : List String :=
  match projection? p c typed var with
  | some body => [".map((" ++ var ++ ") => " ++ body ++ ")"]
  | none => []

/-- The chain of an inner generator and of all that are inside it. -/
def nested (p : Printer) (c : Comprehension) (typed : Bool) : Generator → List Generator → String
  | g, rest =>
    let steps := source p g.source :: g.filters.map (filterStep p g.var)
    String.join steps ++
      match rest with
      | [] => String.join (mapSteps p c typed g.var)
      | h :: rest => ".flatMap((" ++ g.var ++ ") => " ++ nested p c typed h rest ++ ")"

def lastSteps (p : Printer) (c : Comprehension) (var : String) : List String :=
  let test (method : String) : String :=
    if c.generators.length = 1 then
      "." ++ method ++ "((" ++ var ++ ") => " ++ p.printText c.elementText ++ ")"
    else "." ++ method ++ "((v) => v)"
  match c.reducer? with
  | none => []
  | some .sum => [".reduce((acc, v) => acc + v, 0)"]
  | some .prod => [".reduce((acc, v) => acc * v, 1)"]
  | some .max => [".reduce((acc, v) => Math.max(acc, v), -Infinity)"]
  | some .min => [".reduce((acc, v) => Math.min(acc, v), Infinity)"]
  | some .any => [test "some"]
  | some .all => [test "every"]

/-- The chain over the given outer items. -/
def steps (p : Printer) (c : Comprehension) (typed : Bool) (outer : String) : List String :=
  match c.generators with
  | [] => [outer]
  | g :: rest =>
    let items := match rest with
      | [] => mapSteps p c typed g.var
      | h :: rest => [".flatMap((" ++ g.var ++ ") => " ++ nested p c typed h rest ++ ")"]
    outer :: g.filters.map (filterStep p g.var) ++ items ++ lastSteps p c g.var

def sequential (p : Printer) (c : Comprehension) (funcName : String) : Layout :=
  let outer := match c.generators with
    | g :: _ => source p g.source
    | [] => "[]"
  let body := match collection? c with
    | some new =>
      chain "const items = " ";" (steps p c true outer) ++ [.line ("return " ++ new ++ "(items);")]
    | none => chain "return " ";" (steps p c true outer)
  .block ("function " ++ funcName ++ "(): " ++ returnType c ++ " \x7b") "\x7d" body

/-- Inside a template, a backslash, a backtick and the start of a placeholder are escaped. -/
def escapeTemplate : List Char → List Char
  | [] => []
  | '$' :: '\x7b' :: cs => '\\' :: '$' :: '\x7b' :: escapeTemplate cs
  | c :: cs =>
    if c = '\\' || c = '\x60' then '\\' :: c :: escapeTemplate cs else c :: escapeTemplate cs

def templateText (s : String) : String :=
  String.ofList (escapeTemplate s.toList)

def merge (c : Comprehension) : String :=
  match c.reducer? with
  | some .sum => "parts.reduce((acc, v) => acc + v, 0)"
  | some .prod => "parts.reduce((acc, v) => acc * v, 1)"
  | some .max => "Math.max(...parts)"
  | some .min => "Math.min(...parts)"
  | some .any => "parts.some((v) => v)"
  | some .all => "parts.every((v) => v)"
  | none =>
    match collection? c with
    | some new => new ++ "(parts.flat())"
    | none => "parts.flat()"

/-- The handler that runs the chain over the positions from `lo` up to `hi`. -/
def worker (p : Printer) (c : Comprehension) (r : Range) : Layout :=
  let chunk := steps p c false (arrayOf "hi - lo" (r.affine "lo + k"))
  .block "self.onmessage = (e) => \x7b" "\x7d;"
    (.line "const \x7b lo, hi \x7d = e.data;" ::
      chain "const partial = " ";" (chunk.map templateText) ++
      [.line "self.postMessage(partial);"])

def parallel (p : Printer) (c : Comprehension) (r : Range) (funcName : String) : List Layout :=
  let answer : Layout := .block "worker.onmessage = (e) => \x7b" "\x7d;"
    [.line "worker.terminate();", .line "resolve(e.data);"]
  let promise : Layout := .block ("new Promise<" ++ partType c ++ ">((resolve) => \x7b") "\x7d)"
    [.line "const worker = new Worker(url);", answer,
      .line ("worker.postMessage(\x7b lo: w * chunk, " ++
        "hi: Math.min(total, (w + 1) * chunk) \x7d);")]
  let parts : Layout := .block "const parts = await Promise.all(" ");"
    [.block "Array.from(\x7b length: workers \x7d, (_, w) =>" ")" [promise]]
  [.line "const workerSource = \x60", worker p c r, .line "\x60;", .blank,
    .block ("async function " ++ funcName ++ "(): Promise<" ++ returnType c ++ "> \x7b") "\x7d"
      [.line ("const total = " ++ toString r.len ++ ";"),
        .line ("const workers = Math.max(1, Math.min(navigator.hardwareConcurrency || 4, " ++
          "total));"),
        .line "const chunk = Math.ceil(total / workers);",
        .line ("const url = URL.createObjectURL(new Blob([workerSource], " ++
          "\x7b type: \"application/javascript\" \x7d));"),
        parts, .line "URL.revokeObjectURL(url);", .line ("return " ++ merge c ++ ";")]]

/-- Only a range can be cut into chunks. -/
def layout (c : Comprehension) (s : Settings) : List Layout :=
  let p := printerFor .typescript c
  if s.parallel then
    match c.generators.head?.bind Generator.range? with
    | some r => parallel p c r s.funcName
    | none =>
      [.line "// simplified: workers cannot see caller bindings, so this runs sequentially",
        sequential p c s.funcName]
  else [sequential p c s.funcName]

def render (c : Comprehension) (o : Options) : Except OptionFault String := do
  return Layout.render Layout.fourBlanks (layout c (← Settings.ofOptions o))

end Comprehend.Target.TypeScript

namespace Comprehend.Target

def typescript : Target where
  name := "ts"
  accepted := ["func_name", "parallel"]
  render c o := (TypeScript.render c o).mapError .option

end Comprehend.Target
