/-! Arguments of a command: options with a long name, some with a letter too, each at most once. -/
namespace Comprehend.CommandLine

structure OptionSpec where
  name : String
  letter : Option Char := none
  takesValue : Bool := true

/-- Why the arguments name no command that could be run. -/
inductive Stop where
  | usage | help
deriving DecidableEq

/-- The options that are given, each with its value; a flag has an empty one. -/
abbrev Given := List (String × String)

def Given.get? (g : Given) (name : String) : Option String :=
  g.lookup name

def Given.has (g : Given) (name : String) : Bool :=
  (g.get? name).isSome

/-- An argument that starts with a hyphen is no value, unless it is a hyphen and nothing else. -/
def isValue (arg : String) : Bool :=
  match arg.toList with
  | '-' :: _ :: _ => false
  | _ => true

/-- An option is not given twice. -/
def Given.add (name value : String) (g : Given) : Except Stop Given :=
  if g.has name then .error .usage else .ok ((name, value) :: g)

/-- A name and, behind an equals sign, a value. -/
def splitEquals : List Char → List Char × Option (List Char)
  | [] => ([], none)
  | '=' :: cs => ([], some cs)
  | c :: cs => (c :: (splitEquals cs).1, (splitEquals cs).2)

/-- What an argument says: an option with the value that is attached to it. -/
inductive Reading where
  | option (spec : OptionSpec) (attached : Option String)
  /-- No option stands behind it. -/
  | last

/-- Reads one argument that is not the value of an option. -/
def readArgument (specs : List OptionSpec) (arg : String) : Except Stop Reading :=
  match arg.toList with
  | ['-', '-'] => .ok .last
  | '-' :: '-' :: cs =>
    let (name, attached) := splitEquals cs
    match specs.find? fun s => s.name == String.ofList name with
    | some spec => .ok (.option spec (attached.map String.ofList))
    | none => if cs = "help".toList then .error .help else .error .usage
  | '-' :: c :: cs =>
    match specs.find? fun s => s.letter == some c with
    | some spec =>
      let attached := match cs with
        | [] => none
        | '=' :: cs => some (String.ofList cs)
        | cs => some (String.ofList cs)
      .ok (.option spec attached)
    | none => if c = 'h' then .error .help else .error .usage
  | _ => .error .usage

def readArguments (specs : List OptionSpec) : Given → List String → Except Stop Given
  | given, [] => .ok given
  | given, arg :: rest => do
    match ← readArgument specs arg, rest with
    | .last, [] => return given
    | .last, _ => throw .usage
    | .option spec attached, rest =>
      match spec.takesValue, attached, rest with
      | false, none, rest => readArguments specs (← given.add spec.name "") rest
      | false, some _, _ => throw .usage
      | true, some value, rest => readArguments specs (← given.add spec.name value) rest
      | true, none, value :: rest =>
        if isValue value then readArguments specs (← given.add spec.name value) rest
        else throw .usage
      | true, none, [] => throw .usage

end Comprehend.CommandLine
