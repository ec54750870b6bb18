import Comprehend.CommandLine.Arguments
import Comprehend.Options.Basic

/-! The commands of the program. -/
namespace Comprehend.CommandLine

/-- Where a comprehension comes from: a source text, or a file with its JSON. -/
inductive Input where
  | code (source : String)
  | file (path : String)
  | missing

structure RenderCommand where
  input : Input
  target : Option String
  options : Options
  config : Option String

structure ExplainCommand where
  input : Input
  mode : String
  elementType : String
  count : Option Nat
  parallel : Bool
  unchecked : Bool

inductive Command where
  | render (r : RenderCommand)
  | json (input : Input)
  | explain (e : ExplainCommand)
  | targets
  | version

def inputSpecs : List OptionSpec :=
  [{ name := "code", letter := some 'c' }, { name := "ir" }]

def renderSpecs : List OptionSpec :=
  inputSpecs ++
    [{ name := "target", letter := some 't' }, { name := "parallel", takesValue := false },
      { name := "mode" }, { name := "no-explain", takesValue := false },
      { name := "unsafe", takesValue := false }, { name := "dialect" }, { name := "int-type" },
      { name := "func-name" }, { name := "config" }]

def explainSpecs : List OptionSpec :=
  inputSpecs ++
    [{ name := "parallel", takesValue := false }, { name := "mode" }, { name := "elem-type" },
      { name := "elem-count" }, { name := "unsafe", takesValue := false }]

/-- The path that an option names; it is not empty. -/
def pathOf (g : Given) (name : String) : Except Stop (Option String) :=
  match g.get? name with
  | some path => if path.isEmpty then .error .usage else .ok (some path)
  | none => .ok none

/-- A source text and a file are not given together. -/
def inputOf (g : Given) : Except Stop Input := do
  match g.get? "code", ← pathOf g "ir" with
  | some _, some _ => throw .usage
  | some source, none => return .code source
  | none, some path => return .file path
  | none, none => return .missing

/-- The value of decimal digits behind an optional plus sign, below `2 ^ 64`. -/
def count? (s : String) : Option Nat :=
  let digits := match s.toList with
    | '+' :: cs => cs
    | cs => cs
  let n := digits.foldl (fun n c => n * 10 + (c.toNat - '0'.toNat)) 0
  if !digits.isEmpty && digits.all Char.isDigit && n < 0x10000000000000000 then some n else none

def optionsOf (g : Given) : Options :=
  let flags := [("parallel", "parallel", true), ("no-explain", "explain", false),
    ("unsafe", "unsafe", true)].filterMap fun (flag, name, value) =>
      if g.has flag then some (name, OptionValue.bool value) else none
  let texts := [("mode", "mode"), ("dialect", "dialect"), ("int-type", "int_type"),
    ("func-name", "func_name")].filterMap fun (flag, name) =>
      (g.get? flag).map fun value => (name, OptionValue.str value)
  .ofList (flags ++ texts)

def renderCommand (g : Given) : Except Stop RenderCommand := do
  return ⟨← inputOf g, g.get? "target", optionsOf g, ← pathOf g "config"⟩

def explainCommand (g : Given) : Except Stop ExplainCommand := do
  let count ← match g.get? "elem-count" with
    | none => pure none
    | some s =>
      match count? s with
      | some n => pure (some n)
      | none => throw Stop.usage
  return {
    input := ← inputOf g
    mode := (g.get? "mode").getD "auto"
    elementType := (g.get? "elem-type").getD "Int"
    count
    parallel := g.has "parallel"
    unchecked := g.has "unsafe" }

def Command.ofArguments : List String → Except Stop Command
  | "render" :: args => do return .render (← renderCommand (← readArguments renderSpecs [] args))
  | "ir" :: args => do return .json (← inputOf (← readArguments inputSpecs [] args))
  | "explain" :: args => do
    return .explain (← explainCommand (← readArguments explainSpecs [] args))
  | "targets" :: args => do
    let _ ← readArguments [] [] args
    return .targets
  | "help" :: _ => .error .help
  | arg :: _ =>
    match arg.toList with
    | '-' :: 'V' :: _ => .ok .version
    | '-' :: 'h' :: _ => .error .help
    | cs =>
      if cs = "--version".toList then .ok .version
      else if cs = "--help".toList then .error .help
      else .error .usage
  | [] => .error .usage

end Comprehend.CommandLine
