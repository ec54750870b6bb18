import Comprehend.CommandLine.Command
import Comprehend.Comprehension.Json
import Comprehend.Config
import Comprehend.Target.Registry

/-! What a command does: it reads texts from files and answers with texts and an exit code. -/
namespace Comprehend.CommandLine

inductive FileState where
  | text (s : String)
  /-- There is no file. -/
  | absent (reason : String)
  /-- There is a file that cannot be read. -/
  | unreadable (reason : String)

abbrev Files := String → FileState

structure Outcome where
  code : UInt32
  out : String := ""
  err : String := ""

inductive Failure where
  | cannotRead (path reason : String)
  | badConfig
  | badJson
  | noInput
  | flawed (flaw : Comprehension.Flaw)
  | parse (e : ParseError)
  | render (e : RenderError)
  | unknownMode (mode : String)

def Failure.message : Failure → String
  | cannotRead path reason => "cannot read '" ++ path ++ "': " ++ reason
  | badConfig => "failed to parse polyglot.toml: not a configuration"
  | badJson => "IR JSON: not a comprehension"
  | noInput => "one of --code or --ir is required"
  | flawed flaw => flaw.message
  | parse e => e.message
  | render e => e.message
  | unknownMode mode => (OptionProblem.unknownMode mode).message

def readFile (files : Files) (path : String) : Except Failure String :=
  match files path with
  | .text s => .ok s
  | .absent reason => .error (.cannotRead path reason)
  | .unreadable reason => .error (.cannotRead path reason)

def readConfig (files : Files) (path : String) : Except Failure Config := do
  match Config.ofText? (← readFile files path) with
  | some config => return config
  | none => throw .badConfig

/-- The named configuration, or that of the current directory if there is one. -/
def configOf (files : Files) : Option String → Except Failure Config
  | some path => readConfig files path
  | none =>
    match files Config.fileName with
    | .absent _ => .ok {}
    | _ => readConfig files Config.fileName

def comprehensionOf (files : Files) : Input → Except Failure Comprehension
  | .code source => (Comprehension.parse source).mapError .parse
  | .file path => do
    match Comprehension.ofJsonText (← readFile files path) with
    | .ok c => return c
    | .error .notJson => throw .badJson
    | .error (.flawed flaw) => throw (.flawed flaw)
  | .missing => .error .noInput

/-- The target is the one that is given, that of the configuration, or Rust. -/
def runRender (files : Files) (r : RenderCommand) : Except Failure String := do
  let config ← configOf files r.config
  let target := (r.target.or config.target).getD "rust"
  let c ← comprehensionOf files r.input
  (Comprehend.render target c (config.options.overlay r.options)).mapError .render

def runExplain (files : Files) (e : ExplainCommand) : Except Failure String := do
  let c ← comprehensionOf files e.input
  match Strategy.RequestedMode.ofName? e.mode with
  | none => throw (.unknownMode e.mode)
  | some mode =>
    let d := Strategy.decide c { Strategy.Request.ofComprehension c with
      mode
      count := e.count
      elementType := e.elementType
      parallel := e.parallel
      unchecked := e.unchecked }
    let notes := if d.notes.isEmpty then "" else d.explanation ++ "\n"
    return "mode: " ++ d.mode.name ++ "\nparallel: " ++ d.flavor.name ++ "\n" ++ notes

def runCommand (files : Files) : Command → Except Failure String
  | .render r => runRender files r
  | .json input => do return (← comprehensionOf files input).jsonText ++ "\n"
  | .explain e => runExplain files e
  | .targets => .ok (String.join (Target.names.map (· ++ "\n")))
  | .version => .ok "polyglot 0.3.0\n"

def usage : String :=
  "Usage: polyglot <render|ir|explain|targets> [OPTIONS]\n"

def run (files : Files) (args : List String) : Outcome :=
  match Command.ofArguments args with
  | .error .help => { code := 0, out := usage }
  | .error .usage => { code := 2, err := usage }
  | .ok command =>
    match runCommand files command with
    | .ok text => { code := 0, out := text }
    | .error failure => { code := 1, err := "error: " ++ failure.message ++ "\n" }

def pathsOf (args : List String) : List String :=
  let fromInput : Input → List String
    | .file path => [path]
    | _ => []
  match Command.ofArguments args with
  | .ok (.render r) => r.config.getD Config.fileName :: fromInput r.input
  | .ok (.json input) => fromInput input
  | .ok (.explain e) => fromInput e.input
  | _ => []

end Comprehend.CommandLine
