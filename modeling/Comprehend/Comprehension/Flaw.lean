import Comprehend.Comprehension.Basic

/-! What makes a comprehension ill-formed. The rules are tried in a fixed order, and the first one
that is broken is reported. -/
namespace Comprehend

/-- A letter or an underscore of ASCII, and then letters, digits and underscores of ASCII. -/
def isIdentifier (s : String) : Bool :=
  match s.toList with
  | [] => false
  | c :: cs => (c.isAlpha || c == '_') && cs.all fun c => c.isAlphanum || c == '_'

namespace Comprehension

inductive Flaw where
  | noGenerators
  | dictWithoutPair
  | dictWithElement
  | dictReduced
  | noElement (shape : Shape)
  | strayPair (shape : Shape)
  | setReduced
  | notIdentifier (var : String)
  | boundTwice (var : String)
  | zeroStep (var : String)
deriving DecidableEq

def Flaw.message (flaw : Flaw) : String :=
  "invalid IR: " ++ match flaw with
  | noGenerators => "comprehension has no generators"
  | dictWithoutPair => "dict comprehension requires key_expr and val_expr"
  | dictWithElement => "dict comprehension must not carry an element"
  | dictReduced => "a reduction cannot consume a dict comprehension"
  | noElement shape => shape.name ++ " comprehension requires an element"
  | strayPair shape => shape.name ++ " comprehension must not carry key/value expressions"
  | setReduced => "a reduction cannot consume a set comprehension"
  | notIdentifier var => "generator variable '" ++ var ++ "' is not an identifier"
  | boundTwice var => "generator variable '" ++ var ++ "' is bound twice"
  | zeroStep var => "range for '" ++ var ++ "' has a zero step"

/-- A dictionary has a key and a value, other shapes have an element; only lists and generators can
be reduced. -/
def partsFlaw? (c : Comprehension) : Option Flaw :=
  if c.shape = .dict then
    if c.key.isNone || c.value.isNone then some .dictWithoutPair
    else if c.element.isSome then some .dictWithElement
    else if c.reduction.isSome then some .dictReduced
    else none
  else
    if c.element.isNone then some (.noElement c.shape)
    else if c.key.isSome || c.value.isSome then some (.strayPair c.shape)
    else if c.reduction.isSome && c.shape = .set then some .setReduced
    else none

/-- Variables are identifiers, none of them bound before, and no range stands still. -/
def loopsFlaw? (bound : List String) : List Generator → Option Flaw
  | [] => none
  | g :: gs =>
    if !isIdentifier g.var then some (.notIdentifier g.var)
    else if g.var ∈ bound then some (.boundTwice g.var)
    else if g.range?.any (·.step == 0) then some (.zeroStep g.var)
    else loopsFlaw? (g.var :: bound) gs

/-- The first rule that a comprehension breaks. -/
def flaw? (c : Comprehension) : Option Flaw :=
  if c.generators.isEmpty then some .noGenerators
  else c.partsFlaw?.or (loopsFlaw? [] c.generators)

end Comprehension

end Comprehend
