import Comprehend.Target.Basic

/-! Literals of Julia. There is no value that stands for none. -/
namespace Comprehend.Target.Julia

def escape (c : Char) : List Char :=
  if c = '"' || c = '\\' || c = '$' then ['\\', c]
  else if c = '\n' then ['\\', 'n']
  else if c = '\t' then ['\\', 't']
  else [c]

def quote (s : String) : String :=
  "\"" ++ String.ofList (s.toList.flatMap escape) ++ "\""

def literal : Literal → Except LiteralFault String
  | .int n => .ok (toString n.toInt)
  | .float x => .ok x.explicit
  | .bool b => .ok (if b then "true" else "false")
  | .str s => .ok (quote s)
  | .none => .error .none

/-- An item of a display is a literal. -/
def item : Expr → Except LiteralFault String
  | .const l => literal l
  | _ => .error .nested

/-- A literal, or a tuple or list of literals. -/
def display : Expr → Except LiteralFault String
  | .const l => literal l
  | .tuple [x] => return "(" ++ (← item x) ++ ",)"
  | .tuple xs => return round (commas (← xs.mapM item))
  | .list xs => return "[" ++ commas (← xs.mapM item) ++ "]"
  | _ => .error .expression

mutual

/-- The first literal of an expression that cannot be written. -/
def fault? : Expr → Option LiteralFault
  | .const l =>
    match literal l with
    | .ok _ => none
    | .error f => some f
  | .name _ => none
  | .unary _ e => fault? e
  | .member e _ => fault? e
  | .binary l _ r => (fault? l).or (fault? r)
  | .boolOp _ l r => (fault? l).or (fault? r)
  | .compare l _ r => (fault? l).or (fault? r)
  | .subscript e i => (fault? e).or (fault? i)
  | .ternary cond yes no => ((fault? cond).or (fault? yes)).or (fault? no)
  | .call f args => (fault? f).or (faultIn? args)
  | .tuple items => faultIn? items
  | .list items => faultIn? items

def faultIn? : List Expr → Option LiteralFault
  | [] => none
  | e :: es => (fault? e).or (faultIn? es)

end

end Comprehend.Target.Julia
