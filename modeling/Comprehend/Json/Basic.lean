/-! JSON values and their texts. -/
namespace Comprehend

/-- A JSON value. `real` is a number that is not written as an integer. `hollow` is a value that is
well written and denotes nothing: a string with an unpaired surrogate, a number beyond the finite
ones, or an object with such a key. -/
inductive Json where
  | null
  | bool (b : Bool)
  | int (n : Int)
  | real
  | str (s : String)
  | arr (items : List Json)
  | obj (members : List (String × Json))
  | hollow
deriving Inhabited

namespace Json

def hexDigit (n : Nat) : Char :=
  if n < 10 then Char.ofNat ('0'.toNat + n) else Char.ofNat ('a'.toNat + (n - 10))

/-- A character inside a quoted text. Quotes, backslashes and control characters are escaped. -/
def escape (c : Char) : List Char :=
  if c = '"' then ['\\', '"']
  else if c = '\\' then ['\\', '\\']
  else if c = '\x08' then ['\\', 'b']
  else if c = '\x0c' then ['\\', 'f']
  else if c = '\n' then ['\\', 'n']
  else if c = '\r' then ['\\', 'r']
  else if c = '\t' then ['\\', 't']
  else if c.toNat < 0x20 then
    ['\\', 'u', '0', '0', hexDigit (c.toNat / 16), hexDigit (c.toNat % 16)]
  else [c]

def quote (s : String) : List Char :=
  '"' :: (s.toList.flatMap escape ++ ['"'])

/-- A line break and the indentation of the given depth, two blanks for each level. -/
def breakTo (depth : Nat) : List Char :=
  '\n' :: List.replicate (2 * depth) ' '

mutual

/-- The text of a value that starts at the given depth; every member and item has its own line. -/
def pretty (depth : Nat) : Json → List Char
  | .null => "null".toList
  | .bool b => (if b then "true" else "false").toList
  | .int n => (toString n).toList
  | .real => "0.0".toList
  | .str s => quote s
  | .arr [] => "[]".toList
  | .arr (v :: vs) =>
    '[' :: (breakTo (depth + 1) ++ pretty (depth + 1) v ++ prettyItems (depth + 1) vs ++
      breakTo depth ++ [']'])
  | .obj [] => ['\x7b', '\x7d']
  | .obj ((k, v) :: ms) =>
    '\x7b' :: (breakTo (depth + 1) ++ quote k ++ [':', ' '] ++ pretty (depth + 1) v ++
      prettyMembers (depth + 1) ms ++ breakTo depth ++ ['\x7d'])
  | .hollow => "null".toList

def prettyItems (depth : Nat) : List Json → List Char
  | [] => []
  | v :: vs => ',' :: (breakTo depth ++ pretty depth v ++ prettyItems depth vs)

def prettyMembers (depth : Nat) : List (String × Json) → List Char
  | [] => []
  | (k, v) :: ms =>
    ',' :: (breakTo depth ++ quote k ++ [':', ' '] ++ pretty depth v ++ prettyMembers depth ms)

end

def text (v : Json) : String :=
  String.ofList (pretty 0 v)

mutual

/-- No part of the value is hollow. -/
def isSolid : Json → Bool
  | .hollow => false
  | .arr vs => solidItems vs
  | .obj ms => solidMembers ms
  | _ => true

def solidItems : List Json → Bool
  | [] => true
  | v :: vs => isSolid v && solidItems vs

def solidMembers : List (String × Json) → Bool
  | [] => true
  | (_, v) :: ms => isSolid v && solidMembers ms

end

/-- The values under a key, in the order of the text. -/
def lookup (key : String) (members : List (String × Json)) : List Json :=
  (members.filter (·.1 == key)).map (·.2)

end Json

end Comprehend
