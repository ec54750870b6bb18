import Comprehend.Range
import Comprehend.Table

/-! Comprehensions and reductions. Expressions are kept as they stand in the source; the loops over
them, their filters and the shape of the result are made explicit. -/
namespace Comprehend

inductive Shape where
  | list | set | dict | generator
deriving DecidableEq

def Shape.name : Shape → String
  | list => "list"
  | set => "set"
  | dict => "dict"
  | generator => "generator"

def Shape.ofName? : String → Option Shape
  | "list" => some list
  | "set" => some set
  | "dict" => some dict
  | "generator" => some generator
  | _ => none

/-- A function that folds the elements of a comprehension into one value. -/
inductive Reducer where
  | sum | prod | max | min | any | all
deriving DecidableEq

namespace Reducer

def name : Reducer → String
  | sum => "sum"
  | prod => "prod"
  | max => "max"
  | min => "min"
  | any => "any"
  | all => "all"

def ofName? : String → Option Reducer
  | "sum" => some sum
  | "prod" => some prod
  | "max" => some max
  | "min" => some min
  | "any" => some any
  | "all" => some all
  | _ => none

/-- The result is a truth value and not a number. -/
def isBoolean : Reducer → Bool
  | any | all => true
  | _ => false

end Reducer

/-- Where a loop takes its values from: a range, or an iterable of which only the text is known. -/
inductive Source where
  | range (r : Range)
  | text (s : String)
deriving DecidableEq

/-- One loop of a comprehension, with the filters behind it. -/
structure Generator where
  var : String
  source : Source
  filters : List String := []
deriving DecidableEq

def Generator.range? (g : Generator) : Option Range :=
  match g.source with
  | .range r => some r
  | .text _ => none

/-- A reduction. The operator and the initial value are carried along and not interpreted. -/
structure Reduction where
  reducer : Reducer
  op : Option String := none
  initial : Option String := none
deriving DecidableEq

structure Comprehension where
  shape : Shape
  generators : List Generator
  element : Option String := none
  key : Option String := none
  value : Option String := none
  reduction : Option Reduction := none
  provenance : Table String := .empty

namespace Comprehension

/-- A list, set or generator of `element`. -/
def ofElement (shape : Shape) (element : String) (generators : List Generator) : Comprehension :=
  { shape, generators, element := some element }

def ofPair (key value : String) (generators : List Generator) : Comprehension :=
  { shape := .dict, generators, key := some key, value := some value }

def ofReducer (reducer : Reducer) (element : String) (generators : List Generator) :
    Comprehension :=
  { shape := .generator, generators, element := some element, reduction := some { reducer } }

def reducer? (c : Comprehension) : Option Reducer :=
  c.reduction.map (·.reducer)

/-- The element, or the first loop variable where there is none. -/
def elementText (c : Comprehension) : String :=
  c.element.getD ((c.generators.head?.map (·.var)).getD "0")

def keyText (c : Comprehension) : String :=
  c.key.getD "0"

def valueText (c : Comprehension) : String :=
  c.value.getD "0"

def hasFilters (c : Comprehension) : Bool :=
  c.generators.any fun g => !g.filters.isEmpty

def isNested (c : Comprehension) : Bool :=
  1 < c.generators.length

/-- The expressions of a comprehension: element, key and value as far as present, then the filters
of all loops. -/
def expressions (c : Comprehension) : List String :=
  [c.element, c.key, c.value].filterMap id ++ c.generators.flatMap (·.filters)

end Comprehension

end Comprehend
