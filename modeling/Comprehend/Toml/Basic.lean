/-! Values of TOML documents. -/
namespace Comprehend.Toml

inductive Value where
  | str (s : String)
  | bool (b : Bool)
  /-- A number, a date or a time; what it denotes is not kept. -/
  | scalar
  | arr (items : List Value)
  | table (members : List (String × Value))

/-- How a table came about. -/
inductive Origin where
  /-- By a header of its own. -/
  | header
  /-- By a header of a table inside it. -/
  | implied
  /-- By a dotted key. -/
  | dotted
deriving DecidableEq

/-- A part of a document that is still being read: values are fixed, tables may grow. -/
inductive Node where
  | value (v : Value)
  | table (origin : Origin) (entries : List (String × Node))
  /-- An array of tables, the last one first. -/
  | tables (items : List (List (String × Node)))

abbrev Entries := List (String × Node)

/-- Changes the node under a key, or adds one; the change may refuse. -/
def alter (key : String) (f : Option Node → Option Node) : Entries → Option Entries
  | [] => (f none).map fun n => [(key, n)]
  | (k, n) :: rest =>
    if k = key then (f (some n)).map fun n => (k, n) :: rest
    else (alter key f rest).map ((k, n) :: ·)

/-- Acts on the table that a header path leads to. Tables on the way come about if they are missing,
and in an array of tables the last one is taken. -/
def alterUnder (act : Entries → Option Entries) : (path : List String) → Entries → Option Entries
  | [], es => act es
  | key :: path, es =>
    alter key (fun
      | none => (alterUnder act path []).map (.table .implied)
      | some (.table origin inner) => (alterUnder act path inner).map (.table origin)
      | some (.tables (last :: others)) => (alterUnder act path last).map (.tables <| · :: others)
      | some _ => none) es

/-- Acts on the table that the start of a dotted key leads to. No table with a header of its own is
entered, and the last one came about by a dotted key. -/
def alterDotted (act : Entries → Option Entries) : (path : List String) → Entries → Option Entries
  | [], es => act es
  | key :: path, es =>
    alter key (fun
      | none => (alterDotted act path []).map (.table .dotted)
      | some (.table .dotted inner) => (alterDotted act path inner).map (.table .dotted)
      | some (.table .implied inner) =>
        if path.isEmpty then none else (alterDotted act path inner).map (.table .implied)
      | some (.tables (last :: others)) =>
        if path.isEmpty then none
        else (alterDotted act path last).map (.tables <| · :: others)
      | some _ => none) es

def insertNew (key : String) (v : Value) : Entries → Option Entries :=
  alter key fun
    | none => some (.value v)
    | some _ => none

/-- The table of a header. It may have come about by the header of a table inside it. -/
def openTable (key : String) : Entries → Option Entries :=
  alter key fun
    | none => some (.table .header [])
    | some (.table .implied inner) => some (.table .header inner)
    | some _ => none

def appendTable (key : String) : Entries → Option Entries :=
  alter key fun
    | none => some (.tables [[]])
    | some (.tables items) => some (.tables ([] :: items))
    | some _ => none

mutual

def Node.toValue : Node → Value
  | .value v => v
  | .table _ entries => .table (membersOf entries)
  | .tables items => .arr (tablesOf items).reverse

def membersOf : List (String × Node) → List (String × Value)
  | [] => []
  | (k, n) :: rest => (k, n.toValue) :: membersOf rest

def tablesOf : List (List (String × Node)) → List Value
  | [] => []
  | es :: rest => .table (membersOf es) :: tablesOf rest

end

end Comprehend.Toml
