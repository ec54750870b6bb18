import Comprehend.Proofs.Operands
import Comprehend.Target.Registry

/-! Sums that leave the 64-bit integers. A rendering takes its numbers from the comprehension as
they are, but for the ends of some walks and for the indices in Julia. Where such a sum leaves the
64-bit integers, one machine goes on with its lowest 64 bits and another one stops. -/
namespace Comprehend

open Number (Fits)

namespace Expr

/-- The expression is the tree or one of its parts. -/
inductive Within (d : Expr) : Expr → Prop
  | self : Within d d
  | operand {f e : Expr} (hf : f ∈ e.operands) (h : Within d f) : Within d e

/-- A subscript whose constant index is followed by no 64-bit integer. -/
def isRaisedOver : Expr → Bool
  | .subscript _ i => i.natural?.any fun n => !decide (Fits (n.toInt + 1))
  | _ => false

end Expr

/-! Texts and walks that are written -/

def Generator.texts (g : Generator) : List String :=
  match g.source with
  | .range _ => g.filters
  | .text s => s :: g.filters

def Comprehension.ranges (c : Comprehension) : List Range :=
  c.generators.filterMap Generator.range?

namespace Target.Julia

open Strategy (Decision)

def storedTexts (c : Comprehension) : List String :=
  if c.shape = .dict then [c.keyText, c.valueText] else [c.elementText]

def resultTexts (c : Comprehension) : List String :=
  if c.reducer?.isSome then [c.elementText] else storedTexts c

/-- The texts that are translated for the body of the function. -/
def writtenTexts (c : Comprehension) (d : Decision) : List String :=
  match d.mode, d.flavor with
  | .broadcast, _ => c.generators.head?.elim [] fun g => g.texts ++ resultTexts c
  | .loops, .sequential => c.generators.flatMap Generator.texts ++ resultTexts c
  | .loops, .partials _ => c.generators.flatMap Generator.texts ++ [c.elementText]
  | .loops, .sharded => c.generators.flatMap Generator.texts ++ storedTexts c

/-- Two pairs of printers write the text alike, as one value and over an array. -/
structure Printers.Agree (p q : Printers) (text : String) : Prop where
  scalar : p.scalar.printText text = q.scalar.printText text
  spread : ∀ var, p.spreadText var text = q.spreadText var text

variable {p q : Printers} {c : Comprehension} {s : Settings}

/-- Some index of the text has no successor. -/
def raisesOver (text : String) : Bool :=
  (Expr.parse? text).any (Expr.anyNode Expr.isRaisedOver)

def overflows (c : Comprehension) (s : Settings) : Bool :=
  (c.ranges.any fun r => !decide (Fits r.exactWalk.last)) ||
    (writtenTexts c (decision c s)).any raisesOver

end Target.Julia

namespace Target

namespace Sql

def overflows (c : Comprehension) (server : Server) : Bool :=
  server = .postgres && c.ranges.any fun r => !decide (Fits r.closedWalk.last)

end Sql

/-- Some sum leaves the 64-bit integers while the comprehension is rendered. -/
def overflows (t : Target) (c : Comprehension) (o : Options) : Bool :=
  match t.name with
  | "julia" => (Julia.Settings.ofOptions c o).toOption.any (Julia.overflows c)
  | "sql" => (Sql.Server.ofOptions o).toOption.any (Sql.overflows c)
  | _ => false

end Target

def overflows (target : String) (c : Comprehension) (o : Options) : Bool :=
  (Target.ofName? target).any fun t => t.overflows c (o.splitAccepted t.accepted).1

end Comprehend
