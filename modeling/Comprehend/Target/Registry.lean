import Comprehend.Comprehension.Parser
import Comprehend.Target.CSharp
import Comprehend.Target.Go
import Comprehend.Target.Julia
import Comprehend.Target.Rust
import Comprehend.Target.Sql
import Comprehend.Target.TypeScript

/-! The targets by name, and the way from a source text to the text of a target. -/
namespace Comprehend

namespace Target

def all : List Target :=
  [csharp, go, julia, rust, sql, typescript]

def names : List String :=
  all.map name

def ofName? (name : String) : Option Target :=
  all.find? fun t => t.name == name

end Target

/-- Renders for the named target. Options that the target does not accept are left out. -/
def render (target : String) (c : Comprehension) (o : Options) : Except RenderError String :=
  match Target.ofName? target with
  | none => .error (.unknownTarget target Target.names)
  | some t => t.render c (o.splitAccepted t.accepted).1

/-- What may keep a source text from being rendered. -/
inductive CompileError where
  | parse (e : ParseError)
  | render (e : RenderError)

def CompileError.message : CompileError → String
  | parse e => e.message
  | render e => e.message

def compile (source target : String) (o : Options) : Except CompileError String := do
  let c ← (Comprehension.parse source).mapError .parse
  (render target c o).mapError .render

end Comprehend
