import Comprehend.Target.Basic
import Comprehend.Target.Walk

/-! C#: a query over enumerable values, in parallel if that is asked for. -/
namespace Comprehend.Target.CSharp

structure Settings where
  intType : String
  /-- The types of elements, keys and values. -/
  element : String
  key : String
  value : String
  parallel : Bool
  funcName : String

def typeName (intType : String) : ScalarType → String
  | .int => intType
  | .float => "double"
  | .str => "string"
  | .bool => "bool"

def Settings.ofOptions (o : Options) : Except OptionFault Settings := do
  let width ← o.intWidth
  let types ← o.typeInfo
  let element ← Options.scalarType .unknownType types.element
  let key ← Options.scalarType .unknownType types.key
  let value ← Options.scalarType .unknownType types.value
  let parallel ← o.boolOr "parallel" false
  let funcName ← o.funcName
  return ⟨width.word, typeName width.word element, typeName width.word key,
    typeName width.word value, parallel, funcName⟩

/-- The name of a class: the parts between the underscores, each with a capital letter. -/
def className (funcName : String) : String :=
  let parts := (funcName.toList.splitOn '_').flatMap fun
    | [] => []
    | c :: cs => c.toUpper :: cs
  if parts.isEmpty then "Program" else String.ofList parts

def typeOf (s : Settings) (text scalar : String) : String :=
  match tupleArity? text with
  | some n => if 1 < n then round (commas (List.replicate n s.intType)) else scalar
  | none => scalar

def returnType (c : Comprehension) (s : Settings) : String :=
  match c.reducer? with
  | some k => if k.isBoolean then "bool" else s.element
  | none =>
    match c.shape with
    | .dict => "Dictionary<" ++ typeOf s c.keyText s.key ++ ", " ++ typeOf s c.valueText s.value ++
        ">"
    | .set => "HashSet<" ++ typeOf s c.elementText s.element ++ ">"
    | .list | .generator => "List<" ++ typeOf s c.elementText s.element ++ ">"

def source (p : Printer) : Source → String
  | .range r =>
    let numbers :=
      if r.step = 1 then
        "Enumerable.Range(" ++ toString r.start.toInt ++ ", " ++ toString r.len ++ ")"
      else
        "Enumerable.Range(0, " ++ toString r.len ++ ").Select(k => " ++ r.affine "k" ++ ")"
    if p.intType = "int" then numbers else numbers ++ ".Select(k => (" ++ p.intType ++ ")k)"
  | .text s => p.printText s

def filterStep (p : Printer) (var filter : String) : String :=
  ".Where(" ++ var ++ " => " ++ p.printText filter ++ ")"

/-- The chain of an inner generator and of all that are inside it. -/
def nested (p : Printer) (c : Comprehension) : Generator → List Generator → String
  | g, rest =>
    let steps := source p g.source :: g.filters.map (filterStep p g.var)
    String.join steps ++
      match rest with
      | [] =>
        let item :=
          if c.shape = .dict then round (p.printText c.keyText ++ ", " ++ p.printText c.valueText)
          else p.printText c.elementText
        if isVariable item g.var then "" else ".Select(" ++ g.var ++ " => " ++ item ++ ")"
      | h :: rest => ".SelectMany(" ++ g.var ++ " => " ++ nested p c h rest ++ ")"

/-- The factor from which a product starts. -/
def one (s : Settings) : String :=
  if s.element = "long" then "1L" else if s.element = "double" then "1.0" else "1"

def collect : Shape → String
  | .set => ".ToHashSet()"
  | _ => ".ToList()"

/-- A key that occurs twice keeps its last value. -/
def lastWins : String :=
  ".ToDictionary(g => g.Key, g => g.Last())"

/-- The steps after the filters of a single generator. A reduction takes the element as its
argument. -/
def singleSteps (p : Printer) (c : Comprehension) (s : Settings) (var : String) : List String :=
  let isVar := isVariable c.elementText var
  let element := p.printText c.elementText
  let apply (method : String) : String := "." ++ method ++ "(" ++ var ++ " => " ++ element ++ ")"
  let select (method : String) : String := if isVar then "." ++ method ++ "()" else apply method
  match c.reducer? with
  | some .sum => [select "Sum"]
  | some .max => [select "Max"]
  | some .min => [select "Min"]
  | some .prod => [".Aggregate(" ++ one s ++ ", (acc, " ++ var ++ ") => acc * (" ++ element ++ "))"]
  | some .any => [apply "Any"]
  | some .all => [apply "All"]
  | none =>
    if c.shape = .dict then
      [".GroupBy(" ++ var ++ " => " ++ p.printText c.keyText ++ ", " ++ var ++ " => " ++
        p.printText c.valueText ++ ")", lastWins]
    else (if isVar then [] else [apply "Select"]) ++ [collect c.shape]

/-- The steps after the items of several generators. -/
def nestedSteps (c : Comprehension) (s : Settings) : List String :=
  match c.reducer? with
  | some .sum => [".Sum()"]
  | some .max => [".Max()"]
  | some .min => [".Min()"]
  | some .prod => [".Aggregate(" ++ one s ++ ", (acc, v) => acc * v)"]
  | some .any => [".Any(v => v)"]
  | some .all => [".All(v => v)"]
  | none =>
    if c.shape = .dict then [".GroupBy(p => p.Item1, p => p.Item2)", lastWins]
    else [collect c.shape]

/-- What makes a query parallel; the order of a list or of a dictionary is kept. -/
def parallelSteps (c : Comprehension) (s : Settings) : List String :=
  if s.parallel then
    ".AsParallel()" :: if c.shape ≠ .set && c.reduction.isNone then [".AsOrdered()"] else []
  else []

def steps (p : Printer) (c : Comprehension) (s : Settings) : List String :=
  match c.generators with
  | [] => ["new " ++ returnType c s ++ "()"]
  | g :: rest =>
    let items := match rest with
      | [] => singleSteps p c s g.var
      | h :: rest =>
        (".SelectMany(" ++ g.var ++ " => " ++ nested p c h rest ++ ")") :: nestedSteps c s
    source p g.source :: parallelSteps c s ++ g.filters.map (filterStep p g.var) ++ items

def layout (c : Comprehension) (s : Settings) : List Layout :=
  let p := { printerFor .csharp c with intType := s.intType }
  [.lines ["using System;", "using System.Collections.Generic;", "using System.Linq;"], .blank,
    .line ("public static class " ++ className s.funcName),
    .block "\x7b" "\x7d"
      [.line ("public static " ++ returnType c s ++ " Execute()"),
        .block "\x7b" "\x7d" (chain "return " ";" (steps p c s))]]

def render (c : Comprehension) (o : Options) : Except OptionFault String := do
  return Layout.render Layout.fourBlanks (layout c (← Settings.ofOptions o))

end Comprehend.Target.CSharp

namespace Comprehend.Target

def csharp : Target where
  name := "csharp"
  accepted := ["func_name", "parallel", "int_type", "type_info"]
  render c o := (CSharp.render c o).mapError .option

end Comprehend.Target
