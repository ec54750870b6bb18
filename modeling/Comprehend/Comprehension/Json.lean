import Comprehend.Comprehension.Flaw
import Comprehend.Json.Reader

/-! Comprehensions as JSON. Every object names its type first. A reader ignores that name and all
members that it does not know, and refuses a member that it knows twice. -/
namespace Comprehend

namespace Json

/-- The member under a key, if there is one; two are refused. -/
def member? (key : String) (members : List (String × Json)) : Option (Option Json) :=
  match lookup key members with
  | [] => some none
  | [v] => some (some v)
  | _ => none

def asString? : Json → Option String
  | .str s => some s
  | _ => none

def asInt64? : Json → Option Int64
  | .int n => Number.int64? n
  | _ => none

def asArray? : Json → Option (List Json)
  | .arr vs => some vs
  | _ => none

def asObject? : Json → Option (List (String × Json))
  | .obj ms => some ms
  | _ => none

def required {α : Type} (read : Json → Option α) (key : String) (members : List (String × Json)) :
    Option α := do
  let v ← member? key members
  read (← v)

/-- A member with a default for its absence. -/
def withDefault {α : Type} (default : α) (read : Json → Option α) (key : String)
    (members : List (String × Json)) : Option α := do
  match ← member? key members with
  | none => some default
  | some v => read v

def nullable {α : Type} (read : Json → Option α) (key : String) (members : List (String × Json)) :
    Option (Option α) := do
  match ← member? key members with
  | none => some none
  | some .null => some none
  | some v => (read v).map some

def ofOption {α : Type} (write : α → Json) : Option α → Json
  | none => .null
  | some a => write a

end Json

open Json

namespace Range

def toJson (r : Range) : Json :=
  .obj [("__type__", .str "IRRange"), ("start", .int r.start.toInt), ("stop", .int r.stop.toInt),
    ("step", .int r.step.toInt)]

def ofJson? (v : Json) : Option Range := do
  let ms ← v.asObject?
  return ⟨← required asInt64? "start" ms, ← required asInt64? "stop" ms,
    ← withDefault 1 asInt64? "step" ms⟩

end Range

namespace Source

def toJson : Source → Json
  | .range r => r.toJson
  | .text s => .str s

/-- A source is read as a whole before it is told what it is, so that no part of it is hollow. -/
def ofJson? (v : Json) : Option Source :=
  if v.isSolid then
    match v with
    | .str s => some (.text s)
    | v => (Range.ofJson? v).map .range
  else none

end Source

namespace Generator

def toJson (g : Generator) : Json :=
  .obj [("__type__", .str "IRGenerator"), ("var", .str g.var), ("source", g.source.toJson),
    ("filters", .arr (g.filters.map .str))]

def ofJson? (v : Json) : Option Generator := do
  let ms ← v.asObject?
  return {
    var := ← required asString? "var" ms
    source := ← required Source.ofJson? "source" ms
    filters := ← withDefault [] (fun v => do (← v.asArray?).mapM asString?) "filters" ms }

end Generator

namespace Reduction

def toJson (r : Reduction) : Json :=
  .obj [("__type__", .str "IRReduce"), ("kind", .str r.reducer.name), ("op", ofOption .str r.op),
    ("initial", ofOption .str r.initial)]

def ofJson? (v : Json) : Option Reduction := do
  let ms ← v.asObject?
  return {
    reducer := ← required (fun v => v.asString?.bind Reducer.ofName?) "kind" ms
    op := ← nullable asString? "op" ms
    initial := ← nullable asString? "initial" ms }

end Reduction

namespace Comprehension

def provenanceOfJson? (v : Json) : Option (Table String) := do
  let entries ← (← v.asObject?).mapM fun m => m.2.asString?.map (m.1, ·)
  return .ofList entries

def toJson (c : Comprehension) : Json :=
  .obj [("__type__", .str "IRComp"), ("kind", .str c.shape.name),
    ("generators", .arr (c.generators.map Generator.toJson)),
    ("element", ofOption .str c.element), ("key_expr", ofOption .str c.key),
    ("val_expr", ofOption .str c.value), ("reduce", ofOption Reduction.toJson c.reduction),
    ("provenance", .obj (c.provenance.entries.map fun e => (e.1, .str e.2)))]

def ofJson? (v : Json) : Option Comprehension := do
  let ms ← v.asObject?
  return {
    shape := ← required (fun v => v.asString?.bind Shape.ofName?) "kind" ms
    generators := ← required (fun v => do (← v.asArray?).mapM Generator.ofJson?) "generators" ms
    element := ← nullable asString? "element" ms
    key := ← nullable asString? "key_expr" ms
    value := ← nullable asString? "val_expr" ms
    reduction := ← nullable Reduction.ofJson? "reduce" ms
    provenance := ← withDefault .empty provenanceOfJson? "provenance" ms }

/-- The text of a comprehension, over several lines. -/
def jsonText (c : Comprehension) : String :=
  c.toJson.text

inductive LoadError where
  | notJson
  | flawed (flaw : Flaw)
deriving DecidableEq

/-- The well-formed comprehension that a text describes. -/
def ofJsonText (s : String) : Except LoadError Comprehension :=
  match (Json.ofText? s).bind ofJson? with
  | none => .error .notJson
  | some c =>
    match c.flaw? with
    | some flaw => .error (.flawed flaw)
    | none => .ok c

end Comprehension

end Comprehend
