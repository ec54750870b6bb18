import Comprehend.Target.Basic
import Comprehend.Target.Walk
import Comprehend.Text.Words

/-! SQL: a query over the ranges as tables. SQLite counts with recursive definitions, PostgreSQL with
a series; several generators are joined. -/
namespace Comprehend.Target.Sql

inductive Server where
  | sqlite | postgres
deriving DecidableEq

def Server.dialect : Server → Dialect
  | sqlite => .sqlite
  | postgres => .postgres

def Server.ofOptions (o : Options) : Except OptionFault Server := do
  let name ← o.choiceOr "dialect" "sqlite" ["sqlite", "postgresql"]
  return if name = "postgresql" then .postgres else .sqlite

/-- What the query cannot say as it is meant. -/
def remarks (c : Comprehension) : List String :=
  (if c.reducer? = some .prod then
    ["-- simplified: no portable product aggregate; " ++
      "EXP(SUM(LN(x))) holds for positive values only"]
  else []) ++
  c.generators.filterMap fun g =>
    match g.source with
    | .text s => some ("-- simplified: '" ++ s ++ "' is read as a table with a single 'value' column")
    | .range _ => none

/-- The first row, unless there is none, and each next row as long as it lies before the stop. -/
def recursion (var : String) (r : Range) : List String :=
  let w := r.openWalk
  let next := var ++ (if w.upward then " + " else " - ") ++ toString w.stride
  ["SELECT " ++ toString w.start ++ (if r.isEmpty then " WHERE 0" else ""),
    "UNION ALL",
    "SELECT " ++ next ++ " FROM range_" ++ var ++ " WHERE " ++ next ++
      (if w.upward then " < " else " > ") ++ toString w.stop]

/-- The definitions of the ranges, with a comma after all but the last one. -/
def definitions (lead : String) : List (String × Range) → List Layout
  | [] => []
  | (var, r) :: rest =>
    .block (lead ++ "range_" ++ var ++ "(" ++ var ++ ") AS (") (if rest.isEmpty then ")" else "),")
      [.lines (recursion var r)] :: definitions "" rest

def ranges (c : Comprehension) : List (String × Range) :=
  c.generators.filterMap fun g => g.range?.map (g.var, ·)

def series (w : ClosedWalk) : String :=
  let bounds := toString w.start ++ ", " ++ toString w.last
  "generate_series(" ++ (if w.step = 1 then bounds else bounds ++ ", " ++ toString w.step) ++ ")"

def source (server : Server) (g : Generator) : String :=
  match g.source, server with
  | .range _, .sqlite => "range_" ++ g.var
  | .range r, .postgres => series r.closedWalk ++ " AS " ++ g.var
  | .text s, _ => "(SELECT value AS " ++ g.var ++ " FROM " ++ s ++ ") AS src_" ++ g.var

def fromLines (server : Server) : List Generator → List String
  | [] => []
  | g :: rest => ("FROM " ++ source server g) :: rest.map fun h => "CROSS JOIN " ++ source server h

/-- A condition with a disjunction stands in brackets if it is not alone. -/
def conditions (p : Printer) (c : Comprehension) : List String :=
  let filters := c.generators.flatMap Generator.filters
  filters.map fun f =>
    let text := p.printText f
    if 1 < filters.length && Text.occurs " OR ".toList text.toList then round text else text

def whereLines : List String → List String
  | [] => []
  | s :: rest => ("WHERE " ++ s) :: rest.map ("  AND " ++ ·)

/-- A list keeps the order of its ranges. -/
def orderLines (c : Comprehension) : List String :=
  if c.shape = .list && c.reduction.isNone then
    match (ranges c).map fun (var, r) => if r.isUpward then var else var ++ " DESC" with
    | [] => []
    | keys => ["ORDER BY " ++ commas keys]
  else []

/-- The items of a tuple have a column each. -/
def columns (p : Printer) (element : String) : String :=
  match Expr.parse? element with
  | some (.tuple items) =>
    commas (items.zipIdx.map fun (e, i) => p.print e ++ " AS value_" ++ toString (i + 1))
  | _ => p.printText element ++ " AS value"

def selectLine (p : Printer) (c : Comprehension) : String :=
  let element := p.printText c.elementText
  match c.reducer? with
  | some .sum => "SELECT COALESCE(SUM(" ++ element ++ "), 0) AS result"
  | some .prod => "SELECT COALESCE(EXP(SUM(LN(" ++ element ++ "))), 1) AS result"
  | some .max => "SELECT MAX(" ++ element ++ ") AS result"
  | some .min => "SELECT MIN(" ++ element ++ ") AS result"
  | _ =>
    match c.shape with
    | .dict => "SELECT " ++ p.printText c.keyText ++ " AS key, " ++ p.printText c.valueText ++
        " AS value"
    | .set => "SELECT DISTINCT " ++ columns p c.elementText
    | _ => "SELECT " ++ columns p c.elementText

def terminate : List String → List String
  | [] => []
  | [s] => [s ++ ";"]
  | s :: rest => s :: terminate rest

def existence (p : Printer) (c : Comprehension) (server : Server) (lead test : String) : Layout :=
  .block ("SELECT " ++ lead ++ " (") ") AS result;"
    [.line "SELECT 1", .lines (fromLines server c.generators),
      .lines (whereLines (conditions p c ++ [test]))]

def query (p : Printer) (c : Comprehension) (server : Server) : List Layout :=
  let element := p.printText c.elementText
  match c.reducer? with
  | some .any => [existence p c server "EXISTS" (round element)]
  | some .all => [existence p c server "NOT EXISTS" ("NOT " ++ round element)]
  | _ =>
    [.line (selectLine p c),
      .lines (terminate (fromLines server c.generators ++ whereLines (conditions p c) ++
        orderLines c))]

def layout (c : Comprehension) (server : Server) : List Layout :=
  .lines (remarks c) ::
    (if server = .sqlite then definitions "WITH RECURSIVE " (ranges c) else []) ++
    query (printerFor server.dialect c) c server

def render (c : Comprehension) (o : Options) : Except OptionFault String := do
  return Layout.render Layout.fourBlanks (layout c (← Server.ofOptions o))

end Comprehend.Target.Sql

namespace Comprehend.Target

def sql : Target where
  name := "sql"
  accepted := ["dialect"]
  render c o := (Sql.render c o).mapError .option

end Comprehend.Target
