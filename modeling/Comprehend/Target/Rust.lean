import Comprehend.Target.Basic
import Comprehend.Target.Walk

/-! Rust: a chain of iterators, over threads if that is asked for. -/
namespace Comprehend.Target.Rust

structure Settings where
  intType : String
  parallel : Bool
  funcName : String

def Settings.ofOptions (o : Options) : Except OptionFault Settings := do
  let width ← o.intWidth
  let parallel ← o.boolOr "parallel" false
  let funcName ← o.funcName
  return ⟨width.brief, parallel, funcName⟩

/-- The type of a tuple of integers, or of an integer. -/
def typeOf (intType text : String) : String :=
  match tupleArity? text with
  | some 1 => "(" ++ intType ++ ",)"
  | some n => round (commas (List.replicate n intType))
  | none => intType

def returnType (c : Comprehension) (intType : String) : String :=
  match c.reducer? with
  | some k => if k.isBoolean then "bool" else intType
  | none =>
    match c.shape with
    | .dict => "HashMap<" ++ typeOf intType c.keyText ++ ", " ++ typeOf intType c.valueText ++ ">"
    | .set => "HashSet<" ++ typeOf intType c.elementText ++ ">"
    | .list | .generator => "Vec<" ++ typeOf intType c.elementText ++ ">"

def stepBy (stride : Nat) : String :=
  if stride = 1 then "" else ".step_by(" ++ toString stride ++ ")"

def openText (w : OpenWalk) (intType threads : String) : String :=
  "(" ++ toString w.start ++ intType ++ ".." ++ toString w.stop ++ ")" ++ threads ++
    stepBy w.stride

def reverseText (w : ReverseWalk) (intType threads : String) : String :=
  "(" ++ toString w.low ++ intType ++ "..=" ++ toString w.high ++ ")" ++ threads ++ ".rev()" ++
    stepBy w.stride

def rangeText (r : Range) (intType : String) (parallel : Bool) : String :=
  let threads := if parallel then ".into_par_iter()" else ""
  if r.isUpward then openText r.openWalk intType threads
  else reverseText r.reverseWalk intType threads

/-- Closures inside another closure take the variables over. -/
def capture (inner : Bool) : String :=
  if inner then "move " else ""

def source (p : Printer) (parallel inner : Bool) : Source → String
  | .range r => rangeText r p.intType parallel
  | .text s =>
    p.printText s ++
      if parallel then ".par_iter().copied()"
      else if inner then ".clone().into_iter()"
      else ".iter().copied()"

def filterStep (p : Printer) (inner : Bool) (var filter : String) : String :=
  ".filter(" ++ capture inner ++ "|&" ++ var ++ "| " ++ p.printText filter ++ ")"

/-- What an item is made of, unless it is the variable itself. A test over a single generator is
made by the last step. -/
def projection? (p : Printer) (c : Comprehension) (var : String) : Option String :=
  if c.shape = .dict then
    some (round (p.printText c.keyText ++ ", " ++ p.printText c.valueText))
  else if c.reducer?.any Reducer.isBoolean && c.generators.length = 1 then none
  else if isVariable c.elementText var then none
  else some (p.printText c.elementText)

def mapSteps (p : Printer) (c : Comprehension) (inner : Bool) (var : String) : List String :=
  match projection? p c var with
  | some body => [".map(" ++ capture inner ++ "|" ++ var ++ "| " ++ body ++ ")"]
  | none => []

/-- The chain of an inner generator and of all that are inside it. -/
def nested (p : Printer) (c : Comprehension) : Generator → List Generator → String
  | g, rest =>
    let steps := source p false true g.source :: g.filters.map (filterStep p true g.var)
    String.join steps ++
      match rest with
      | [] => String.join (mapSteps p c true g.var)
      | h :: rest => ".flat_map(move |" ++ g.var ++ "| " ++ nested p c h rest ++ ")"

def lastStep (p : Printer) (c : Comprehension) (var : String) : String :=
  match c.reducer? with
  | none => ".collect()"
  | some .sum => ".sum()"
  | some .prod => ".product()"
  | some .max => ".max().unwrap_or_default()"
  | some .min => ".min().unwrap_or_default()"
  | some k =>
    if c.generators.length = 1 then
      "." ++ k.name ++ "(|" ++ var ++ "| " ++ p.printText c.elementText ++ ")"
    else "." ++ k.name ++ "(|hit| hit)"

def steps (p : Printer) (c : Comprehension) (parallel : Bool) : List String :=
  match c.generators with
  | [] => ["Default::default()"]
  | g :: rest =>
    let items := match rest with
      | [] => mapSteps p c false g.var
      | h :: rest =>
        let adapter := if parallel then "flat_map_iter" else "flat_map"
        ["." ++ adapter ++ "(|" ++ g.var ++ "| " ++ nested p c h rest ++ ")"]
    source p parallel false g.source :: g.filters.map (filterStep p false g.var) ++ items ++
      [lastStep p c g.var]

def imports (c : Comprehension) (parallel : Bool) : List String :=
  let collections := match c.reduction, c.shape with
    | none, .set => ["use std::collections::HashSet;"]
    | none, .dict => ["use std::collections::HashMap;"]
    | _, _ => []
  collections ++ if parallel then ["use rayon::prelude::*;"] else []

def layout (c : Comprehension) (s : Settings) : List Layout :=
  let p := { printerFor .rust c with intType := s.intType }
  [.lines (imports c s.parallel), .blank,
    .block ("fn " ++ s.funcName ++ "() -> " ++ returnType c s.intType ++ " \x7b") "\x7d"
      (chain "" "" (steps p c s.parallel))]

def render (c : Comprehension) (o : Options) : Except OptionFault String := do
  return Layout.render Layout.fourBlanks (layout c (← Settings.ofOptions o))

end Comprehend.Target.Rust

namespace Comprehend.Target

def rust : Target where
  name := "rust"
  accepted := ["func_name", "parallel", "int_type"]
  render c o := (Rust.render c o).mapError .option

end Comprehend.Target
