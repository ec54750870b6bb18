import Comprehend.Comprehension.Flaw

/-! Options of a rendering: a table from names to values, and readings of single options that check
the kind of the value. -/
namespace Comprehend

/-- The names of the types of elements, keys and values. -/
structure TypeInfo where
  element : String := "int"
  key : String := "int"
  value : String := "int"
deriving DecidableEq

inductive OptionValue where
  | bool (b : Bool)
  | str (s : String)
  | types (t : TypeInfo)
deriving DecidableEq

def OptionValue.kind : OptionValue → String
  | bool _ => "a boolean"
  | str _ => "a string"
  | types _ => "type info"

abbrev Options := Table OptionValue

inductive OptionProblem where
  | wrongKind (expected got : String)
  | notIdentifier (value : String)
  | unknownInteger (value : String)
  | notAllowed (value : String) (allowed : List String)
  | unknownMode (value : String)
  | unknownType (value : String)
  | unknownField (field value : String)
deriving DecidableEq

def OptionProblem.message : OptionProblem → String
  | wrongKind expected got => "expected " ++ expected ++ ", got " ++ got
  | notIdentifier value => "'" ++ value ++ "' is not an identifier"
  | unknownInteger value => "'" ++ value ++ "' is not a known integer type"
  | notAllowed value allowed => "'" ++ value ++ "' is not one of " ++ ", ".intercalate allowed
  | unknownMode value => "unknown mode '" ++ value ++ "'; expected auto, loops or broadcast"
  | unknownType value => "unknown type '" ++ value ++ "'; expected int, float, str or bool"
  | unknownField field value => "unknown " ++ field ++ " '" ++ value ++ "'"

structure OptionFault where
  name : String
  problem : OptionProblem
deriving DecidableEq

def OptionFault.message (f : OptionFault) : String :=
  "invalid value for option '" ++ f.name ++ "': " ++ f.problem.message

/-- A width of integers under its two spellings. -/
structure IntWidth where
  brief : String
  word : String
deriving DecidableEq

def intWidths : List IntWidth :=
  [⟨"i8", "sbyte"⟩, ⟨"i16", "short"⟩, ⟨"i32", "int"⟩, ⟨"i64", "long"⟩, ⟨"i128", "Int128"⟩,
   ⟨"isize", "nint"⟩, ⟨"u8", "byte"⟩, ⟨"u16", "ushort"⟩, ⟨"u32", "uint"⟩, ⟨"u64", "ulong"⟩,
   ⟨"u128", "UInt128"⟩, ⟨"usize", "nuint"⟩]

namespace Options

/-- The names that some target understands. -/
def known : List String :=
  ["dialect", "explain", "func_name", "int_type", "mode", "parallel", "type_info", "unsafe"]

def fault {α : Type} (name : String) (problem : OptionProblem) : Except OptionFault α :=
  .error ⟨name, problem⟩

def boolOr (o : Options) (name : String) (default : Bool) : Except OptionFault Bool :=
  match o.get? name with
  | none => .ok default
  | some (.bool b) => .ok b
  | some v => fault name (.wrongKind "a boolean" v.kind)

def strOr (o : Options) (name default : String) : Except OptionFault String :=
  match o.get? name with
  | none => .ok default
  | some (.str s) => .ok s
  | some v => fault name (.wrongKind "a string" v.kind)

def typeInfo (o : Options) : Except OptionFault TypeInfo :=
  match o.get? "type_info" with
  | none => .ok {}
  | some (.types t) => .ok t
  | some v => fault "type_info" (.wrongKind "type info" v.kind)

def funcName (o : Options) : Except OptionFault String := do
  let name ← o.strOr "func_name" "program"
  if isIdentifier name then return name else fault "func_name" (.notIdentifier name)

/-- The width of integers; either spelling will do. -/
def intWidth (o : Options) : Except OptionFault IntWidth := do
  let value ← o.strOr "int_type" "i32"
  match intWidths.find? fun w => w.brief == value || w.word == value with
  | some w => return w
  | none => fault "int_type" (.unknownInteger value)

def choiceOr (o : Options) (name default : String) (allowed : List String) :
    Except OptionFault String := do
  let value ← o.strOr name default
  if value ∈ allowed then return value else fault name (.notAllowed value allowed)

/-- The options with the given names, and the names of the others. -/
def splitAccepted (o : Options) (accepted : List String) : Options × List String :=
  (o.filter fun name => accepted.contains name, o.names.filter fun name => !accepted.contains name)

end Options

end Comprehend
