import Comprehend.Dialect.Basic

/-! Literals in the target languages. -/
namespace Comprehend

namespace Dialect

/-- A character of a string between double quotes. A dollar sign has a meaning there in Julia. -/
def escape (d : Dialect) (c : Char) : List Char :=
  if c = '"' then ['\\', '"']
  else if c = '\\' then ['\\', '\\']
  else if c = '\n' then ['\\', 'n']
  else if c = '\t' then ['\\', 't']
  else if c = '$' && d.isJulia then ['\\', '$']
  else [c]

def escapeSql (c : Char) : List Char :=
  if c = '\'' then ['\'', '\''] else [c]

def quote (d : Dialect) (s : String) : String :=
  if d.isSql then "'" ++ String.ofList (s.toList.flatMap escapeSql) ++ "'"
  else "\"" ++ String.ofList (s.toList.flatMap d.escape) ++ "\""

def truth (d : Dialect) (b : Bool) : String :=
  match d.isSql, b with
  | true, true => "TRUE"
  | true, false => "FALSE"
  | false, true => "true"
  | false, false => "false"

/-- The word for no value. -/
def nothing : Dialect → String
  | rust => "None"
  | typescript | csharp => "null"
  | go => "nil"
  | sqlite | postgres => "NULL"
  | julia | juliaBroadcast => "nothing"

def literal (d : Dialect) : Literal → String
  | .int n => toString n.toInt
  | .float x => x.pointed
  | .bool b => d.truth b
  | .str s => d.quote s
  | .none => d.nothing

end Dialect

end Comprehend
