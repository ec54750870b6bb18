import Comprehend.Proofs.Occurrences

/-! Layouts as outlines. A sheet keeps one depth for all blocks that are open, and looks back at the
last line for a blank. The outline of a layout has neither: each text is given the depth of the
blocks around it, and the blanks are settled afterwards, along the lines. Both ways end in the same
text. -/
namespace Comprehend

namespace Layout

/-- An entry of an outline: a text at its depth, or a blank. -/
inductive Entry where
  | text (depth : Nat) (s : String)
  | gap

/-- A footer takes a line unless it is empty. -/
def closing (depth : Nat) (footer : String) : List Entry :=
  if footer.isEmpty then [] else [.text depth footer]

mutual

def outline (depth : Nat) : Layout → List Entry
  | .line s => [.text depth s]
  | .lines ss => ss.map (.text depth)
  | .blank => [.gap]
  | .block header footer body =>
    .text depth header :: outlines (depth + 1) body ++ closing depth footer
  | .indented body => outlines (depth + 1) body

def outlines (depth : Nat) : List Layout → List Entry
  | [] => []
  | l :: ls => outline depth l ++ outlines depth ls

end

/-- The lines of an outline, behind the line `last` if there is one. A gap is an empty line if the
line before it exists and is not empty, and nothing otherwise. -/
def settle (unit : String) : (last : Option String) → List Entry → List String
  | _, [] => []
  | _, .text depth s :: entries =>
    let line := if s.isEmpty then "" else String.join (List.replicate depth unit) ++ s
    line :: settle unit (some line) entries
  | some last, .gap :: entries =>
    if last.isEmpty then settle unit (some last) entries else "" :: settle unit (some "") entries
  | none, .gap :: entries => settle unit none entries

/-- The text of layouts by their outline: every line ends with a line feed, and a text without lines
is one empty line. -/
def outlineText (unit : String) (ls : List Layout) : String :=
  "\n".intercalate (settle unit none (outlines 0 ls)) ++ "\n"

/-! Entries one by one -/

/-- The lines after an outline, the last one first, where `written` are those before it. -/
def settled (unit : String) (entries : List Entry) (written : List String) : List String :=
  (settle unit written.head? entries).reverse ++ written

variable {unit : String}

@[simp] theorem settled_nil (written : List String) : settled unit [] written = written := rfl

theorem settled_cons (e : Entry) (es : List Entry) (written : List String) :
    settled unit (e :: es) written = settled unit es (settled unit [e] written) := by
  cases e with
  | text depth s => simp [settled, settle]
  | gap =>
    cases written with
    | nil => simp [settled, settle]
    | cons last written =>
      by_cases hlast : last.isEmpty = true
      · simp [settled, settle, hlast]
      · simp [settled, settle, hlast]

theorem settled_append (es fs : List Entry) (written : List String) :
    settled unit (es ++ fs) written = settled unit fs (settled unit es written) := by
  induction es generalizing written with
  | nil => rfl
  | cons e es ih => rw [List.cons_append, settled_cons, ih, ← settled_cons]

end Layout

namespace Sheet

open Layout

variable {unit : String}

/-- The entry of a text is what is written for it, at the depth of the sheet. -/
theorem writeLine_eq (s : String) (sheet : Sheet) :
    sheet.writeLine unit s =
      { sheet with written := settled unit [.text sheet.indent s] sheet.written } :=
  rfl

theorem writeBlank_eq (sheet : Sheet) :
    sheet.writeBlank = { sheet with written := settled unit [.gap] sheet.written } := by
  obtain ⟨indent, written⟩ := sheet
  cases written with
  | nil => rfl
  | cons last written =>
    by_cases hlast : last.isEmpty = true
    · simp [writeBlank, settled, settle, hlast]
    · simp [writeBlank, settled, settle, hlast]

theorem foldl_writeLine_eq (ss : List String) (sheet : Sheet) :
    ss.foldl (fun sheet s => sheet.writeLine unit s) sheet =
      { sheet with written := settled unit (ss.map (.text sheet.indent)) sheet.written } := by
  induction ss generalizing sheet with
  | nil => rfl
  | cons s ss ih => rw [List.foldl_cons, ih, List.map_cons, settled_cons, writeLine_eq]

theorem writeFooter_eq (footer : String) (sheet : Sheet) :
    sheet.writeFooter unit footer =
      { sheet with written := settled unit (closing sheet.indent footer) sheet.written } := by
  unfold writeFooter closing
  split
  · rfl
  · exact writeLine_eq footer sheet

-- by induction over the tree; the sheet has any depth and any lines on it, so that a body is
-- written on a sheet one level deeper and the rest of the layouts behind the first
mutual

theorem write_eq : (l : Layout) → (sheet : Sheet) →
    write unit l sheet =
      { sheet with written := settled unit (outline sheet.indent l) sheet.written }
  | .line s, sheet => writeLine_eq s sheet
  | .lines ss, sheet => foldl_writeLine_eq ss sheet
  | .blank, sheet => writeBlank_eq sheet
  | .block header footer body, sheet => by
    rw [write, writeAll_eq body, writeFooter_eq, outline, List.cons_append, settled_cons,
      settled_append, writeLine_eq]
    rfl
  | .indented body, sheet => by
    rw [write, writeAll_eq body, outline]
    rfl

theorem writeAll_eq : (ls : List Layout) → (sheet : Sheet) →
    writeAll unit ls sheet =
      { sheet with written := settled unit (outlines sheet.indent ls) sheet.written }
  | [], _ => rfl
  | l :: ls, sheet => by rw [writeAll, writeAll_eq ls, write_eq l, outlines, settled_append]

end

end Sheet

/-- Layouts are rendered as their outline says, and whatever is written on a sheet leaves it at the
depth it had. -/
theorem Layout.render_eq_outlineText (unit : String) (ls : List Layout) :
    render unit ls = outlineText unit ls ∧
      ∀ sheet, (Sheet.writeAll unit ls sheet).indent = sheet.indent := by
  refine ⟨?_, fun sheet => by rw [Sheet.writeAll_eq]⟩
  rw [render, Sheet.writeAll_eq, Sheet.finish, outlineText]
  simp [settled]

-- a blank right behind a header, two in a row, and one behind an empty line
example : Layout.render "\t" [.blank, .block "f \x7b" "\x7d" [.blank, .line "a", .blank, .blank,
      .indented [.lines ["b", ""]], .blank], .blank, .line "c"] =
    "f \x7b\n\n\ta\n\n\t\tb\n\n\x7d\n\nc\n" := by decide

end Comprehend
