import Comprehend.Options.Basic
import Comprehend.Toml.Reader

/-! Configuration: a target and options, read from a TOML document. -/
namespace Comprehend

structure Config where
  target : Option String := none
  options : Options := .empty

namespace Config

open Toml (Value)

/-- The name of the file that is read unless another one is named. -/
def fileName : String := "polyglot.toml"

/-- The members of a section. It is a table, or an array with a value for each key in order. -/
def section? (keys : List String) : Value → Option (List (String × Value))
  | .table members => some members
  | .arr items => if keys.length ≤ items.length then some (keys.zip items) else none
  | _ => none

def withTypes (t : TypeInfo) : String × Value → Option TypeInfo
  | ("element_type", .str s) => some { t with element := s }
  | ("key_type", .str s) => some { t with key := s }
  | ("value_type", .str s) => some { t with value := s }
  | _ => none

def typeInfo? (v : Value) : Option TypeInfo := do
  (← section? ["element_type", "key_type", "value_type"] v).foldlM withTypes {}

def renderKeys : List String :=
  ["target", "parallel", "mode", "explain", "unsafe", "dialect", "int_type", "func_name",
    "type_info"]

def isTruthKey (key : String) : Bool :=
  key ∈ ["parallel", "explain", "unsafe"]

def isTextKey (key : String) : Bool :=
  key ∈ ["mode", "dialect", "int_type", "func_name"]

def withOption (c : Config) (name : String) (v : OptionValue) : Config :=
  { c with options := c.options.insert name v }

def withMember (c : Config) : String × Value → Option Config
  | (key, .str s) =>
    if key = "target" then some { c with target := some s }
    else if isTextKey key then some (c.withOption key (.str s))
    else none
  | (key, .bool b) => if isTruthKey key then some (c.withOption key (.bool b)) else none
  | (key, v) =>
    if key = "type_info" then (typeInfo? v).map fun t => c.withOption key (.types t) else none

/-- The configuration that the members of a document describe. No other key is allowed. -/
def ofMembers? : List (String × Value) → Option Config
  | [] => some {}
  | [("render", v)] => do (← section? renderKeys v).foldlM withMember {}
  | _ => none

def ofText? (text : String) : Option Config := do
  ofMembers? (← Toml.ofText? text)

end Config

end Comprehend
