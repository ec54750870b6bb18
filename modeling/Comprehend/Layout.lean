/-! Indented text. A layout says which lines stand in which block; a sheet collects the lines that
are written so far, together with the depth at which the next one is written. -/
namespace Comprehend

inductive Layout where
  | line (s : String)
  | lines (ss : List String)
  /-- An empty line, unless nothing or an empty line stands before it. -/
  | blank
  /-- A header, a body one level deeper, and a footer unless that is empty. -/
  | block (header footer : String) (body : List Layout)
  | indented (body : List Layout)

structure Sheet where
  indent : Nat := 0
  /-- The lines in reverse order. -/
  written : List String := []

namespace Sheet

/-- `unit` repeated once for each level of depth. -/
def margin (unit : String) (depth : Nat) : String :=
  String.join (List.replicate depth unit)

/-- An empty line has no margin. -/
def writeLine (unit : String) (s : String) (sheet : Sheet) : Sheet :=
  let line := if s.isEmpty then "" else margin unit sheet.indent ++ s
  { sheet with written := line :: sheet.written }

def writeBlank (sheet : Sheet) : Sheet :=
  match sheet.written with
  | [] => sheet
  | last :: _ => if last.isEmpty then sheet else { sheet with written := "" :: sheet.written }

def deeper (sheet : Sheet) : Sheet :=
  { sheet with indent := sheet.indent + 1 }

def shallower (sheet : Sheet) : Sheet :=
  { sheet with indent := sheet.indent - 1 }

def writeFooter (unit : String) (footer : String) (sheet : Sheet) : Sheet :=
  if footer.isEmpty then sheet else sheet.writeLine unit footer

mutual

def write (unit : String) : Layout → Sheet → Sheet
  | .line s, sheet => sheet.writeLine unit s
  | .lines ss, sheet => ss.foldl (fun sheet s => sheet.writeLine unit s) sheet
  | .blank, sheet => sheet.writeBlank
  | .block header footer body, sheet =>
    (writeAll unit body (sheet.writeLine unit header).deeper).shallower.writeFooter unit footer
  | .indented body, sheet => (writeAll unit body sheet.deeper).shallower

def writeAll (unit : String) : List Layout → Sheet → Sheet
  | [], sheet => sheet
  | l :: ls, sheet => writeAll unit ls (write unit l sheet)

end

/-- The lines in order, with a line feed between two of them and at the end. -/
def finish (sheet : Sheet) : String :=
  "\n".intercalate sheet.written.reverse ++ "\n"

end Sheet

namespace Layout

def fourBlanks : String := "    "

def tab : String := "\t"

def render (unit : String) (layouts : List Layout) : String :=
  (Sheet.writeAll unit layouts {}).finish

end Layout

end Comprehend
