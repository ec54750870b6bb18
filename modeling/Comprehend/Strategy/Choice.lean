import Comprehend.Comprehension.Basic
import Comprehend.Expr.Parser
import Comprehend.Strategy.Associativity
import Comprehend.Text.Words

/-! How a comprehension is run: as loops or as operations on whole arrays, in sequence or in
parallel. A request that is not granted is answered with the reason. -/
namespace Comprehend.Strategy

/-- Up to this many elements, operations on whole arrays are preferred. -/
def broadcastThreshold : Nat := 10000

inductive RequestedMode where
  | auto | loops | broadcast
deriving DecidableEq

def RequestedMode.ofName? : String → Option RequestedMode
  | "auto" => some auto
  | "loops" => some loops
  | "broadcast" => some broadcast
  | _ => none

inductive Mode where
  | loops | broadcast
deriving DecidableEq

def Mode.name : Mode → String
  | loops => "loops"
  | broadcast => "broadcast"

/-- How the work is divided: not at all, as parts of a fold, or as shards of a dictionary. -/
inductive Flavor where
  | sequential
  | partials (g : Grant)
  | sharded
deriving DecidableEq

namespace Flavor

def isParallel : Flavor → Bool
  | sequential => false
  | _ => true

def name : Flavor → String
  | sequential => "sequential"
  | partials _ => "thread-local-partials"
  | sharded => "sharded"

end Flavor

structure Request where
  mode : RequestedMode := .auto
  /-- The number of elements, where the caller knows it. -/
  count : Option Nat := none
  /-- The name of the operator that folds the elements. -/
  op : Option String := none
  elementType : String := "Int"
  parallel : Bool := false
  /-- Dependencies between the elements are not looked for. -/
  unchecked : Bool := false

/-- The plain request for a comprehension: its operator is its reducer. -/
def Request.ofComprehension (c : Comprehension) : Request :=
  { op := c.reducer?.map Reducer.name }

inductive Refusal where
  | dependencies
  | noOperator (shape : Shape)
  | denied (d : Denial)
deriving DecidableEq

def Refusal.message : Refusal → String
  | dependencies => "cross-iteration dependencies detected"
  | noOperator shape => "no reduction operator for " ++ shape.name ++ " comprehension"
  | denied d => d.message

inductive Note where
  | smallBroadcast (count : Nat)
  | autoLoops (shape : Shape)
  | unchecked
  | refused (r : Refusal)
  | shardedDict
  | partials (g : Grant)
  | overridden (f : Flavor)
  | singleGenerator
deriving DecidableEq

def Note.text : Note → String
  | smallBroadcast count => "auto-selected broadcast mode for small N=" ++ toString count
  | autoLoops shape => "auto-selected loops mode for " ++ shape.name ++ " operation"
  | unchecked => "unsafe mode: cross-iteration dependency check skipped"
  | refused r => "parallel fallback -> sequential: " ++ r.message
  | shardedDict => "dict parallelized with shard-then-merge pattern (thread-local writes)"
  | partials g =>
    "parallelized with thread-local partials (op '" ++ g.op.name ++ "', identity " ++
      g.neutralLiteral ++ ", type " ++ g.type.name ++ ")"
  | overridden f => f.name ++ " parallelization requires loops; broadcast mode overridden"
  | singleGenerator => "broadcast mode needs a single generator; using loops"

structure Decision where
  mode : Mode
  flavor : Flavor
  notes : List Note

def Decision.explanation (d : Decision) : String :=
  "\n".intercalate (d.notes.map fun n => "NOTE: " ++ n.text)

/-- The number of elements to expect: what the caller says, or for a single range the distance of
its bounds, half of that behind a filter. -/
def estimate (c : Comprehension) (count : Option Nat) : Option Nat :=
  match count, c.generators with
  | some n, _ => some n
  | none, [g] =>
    g.range?.map fun r =>
      let distance := min (r.stop.toInt - r.start.toInt).toNat 0x7fffffffffffffff
      if g.filters.isEmpty then distance else distance / 2
  | none, _ => none

def conditionalWords : List String :=
  ["if", "else", "and", "or"]

/-- A text is conditional if its tree is, or if it has no tree and one of its words is. -/
def isConditional (s : String) : Bool :=
  match Expr.parse? s with
  | some e => e.hasConditional
  | none => (Text.words [] s.toList).any fun w => conditionalWords.contains (String.ofList w)

/-- Some expression is conditional, so that elements may depend on one another. -/
def hasDependencies (c : Comprehension) : Bool :=
  c.expressions.any isConditional

def chooseMode (c : Comprehension) (r : Request) : Mode × List Note :=
  match r.mode with
  | .loops => (.loops, [])
  | .broadcast => (.broadcast, [])
  | .auto =>
    let fits := c.shape = .list || c.shape = .set || c.reduction.isSome
    match estimate c r.count with
    | some n =>
      if n ≤ broadcastThreshold && fits && !c.hasFilters then (.broadcast, [.smallBroadcast n])
      else (.loops, [.autoLoops c.shape])
    | none => (.loops, [.autoLoops c.shape])

/-- The flavor of a parallel run, or why there is none. `dependent` says that elements may depend
on one another. -/
def grantFlavor (c : Comprehension) (r : Request) (dependent : Bool) : Except Refusal Flavor :=
  if c.shape = .dict then
    if dependent then .error .dependencies else .ok .sharded
  else
    match r.op with
    | none => .error (.noOperator c.shape)
    | some op =>
      match Grant.check op r.elementType with
      | .error d => .error (.denied d)
      | .ok g => if dependent then .error .dependencies else .ok (.partials g)

def flavorNote : Flavor → List Note
  | .sequential => []
  | .partials g => [.partials g]
  | .sharded => [.shardedDict]

def chooseFlavor (c : Comprehension) (r : Request) : Flavor × List Note :=
  if r.parallel then
    let lead : List Note := if r.unchecked then [.unchecked] else []
    match grantFlavor c r (!r.unchecked && hasDependencies c) with
    | .ok f => (f, lead ++ flavorNote f)
    | .error why => (.sequential, lead ++ [.refused why])
  else (.sequential, [])

/-- A parallel run is written as loops, whatever mode was chosen. -/
def decide (c : Comprehension) (r : Request) : Decision :=
  let (mode, modeNotes) := chooseMode c r
  let (flavor, flavorNotes) := chooseFlavor c r
  if flavor.isParallel && mode = .broadcast then
    ⟨.loops, flavor, modeNotes ++ flavorNotes ++ [.overridden flavor]⟩
  else ⟨mode, flavor, modeNotes ++ flavorNotes⟩

end Comprehend.Strategy
