import Comprehend.Layout

/-! Layouts with their texts rewritten. Some rewritings can be done on every text before it is laid
out, or on the finished page. -/
namespace Comprehend

namespace Layout

mutual

def mapText (f : String → String) : Layout → Layout
  | .line s => .line (f s)
  | .lines ss => .lines (ss.map f)
  | .blank => .blank
  | .block header footer body => .block (f header) (f footer) (mapTexts f body)
  | .indented body => .indented (mapTexts f body)

def mapTexts (f : String → String) : List Layout → List Layout
  | [] => []
  | l :: ls => mapText f l :: mapTexts f ls

end

theorem mapTexts_append (f : String → String) (ls ms : List Layout) :
    mapTexts f (ls ++ ms) = mapTexts f ls ++ mapTexts f ms := by
  induction ls with
  | nil => rfl
  | cons l ls ih => rw [List.cons_append, mapTexts, ih, mapTexts, List.cons_append]

end Layout

namespace Sheet

/-- It makes no difference whether texts are rewritten line by line, before their margins are
written, or all together. -/
structure Tolerates (unit : String) (f : String → String) : Prop where
  margin (depth : Nat) (s : String) : f (margin unit depth ++ s) = margin unit depth ++ f s
  isEmpty (s : String) : (f s).isEmpty = s.isEmpty
  lineFeed (s t : String) : f (s ++ "\n" ++ t) = f s ++ "\n" ++ f t

def map (f : String → String) (sheet : Sheet) : Sheet :=
  { sheet with written := sheet.written.map f }

variable {unit : String} {f : String → String}

theorem Tolerates.empty (hf : Tolerates unit f) : f "" = "" :=
  String.isEmpty_iff.mp (hf.isEmpty "")

theorem Tolerates.writeLine (hf : Tolerates unit f) (s : String) (sheet : Sheet) :
    (sheet.map f).writeLine unit (f s) = (sheet.writeLine unit s).map f := by
  by_cases hs : s.isEmpty = true
  · simp [Sheet.writeLine, Sheet.map, hf.isEmpty, hs, hf.empty]
  · simp [Sheet.writeLine, Sheet.map, hf.isEmpty, hs, hf.margin]

theorem Tolerates.writeBlank (hf : Tolerates unit f) (sheet : Sheet) :
    (sheet.map f).writeBlank = (sheet.writeBlank).map f := by
  obtain ⟨indent, written⟩ := sheet
  cases written with
  | nil => rfl
  | cons last written =>
    by_cases hlast : last.isEmpty = true
    · simp [Sheet.writeBlank, Sheet.map, hf.isEmpty, hlast]
    · simp [Sheet.writeBlank, Sheet.map, hf.isEmpty, hlast, hf.empty]

theorem Tolerates.writeFooter (hf : Tolerates unit f) (s : String) (sheet : Sheet) :
    (sheet.map f).writeFooter unit (f s) = (sheet.writeFooter unit s).map f := by
  rw [Sheet.writeFooter, Sheet.writeFooter, hf.isEmpty, hf.writeLine]
  split <;> rfl

mutual

theorem Tolerates.write (hf : Tolerates unit f) : (l : Layout) → (sheet : Sheet) →
    Sheet.write unit (l.mapText f) (sheet.map f) = (Sheet.write unit l sheet).map f
  | .line s, sheet => hf.writeLine s sheet
  | .lines ss, sheet => by
    rw [Layout.mapText, Sheet.write, Sheet.write]
    induction ss generalizing sheet with
    | nil => rfl
    | cons s ss ih => rw [List.map_cons, List.foldl_cons, List.foldl_cons, hf.writeLine, ih]
  | .blank, sheet => hf.writeBlank sheet
  | .block header footer body, sheet => by
    rw [Layout.mapText, Sheet.write, Sheet.write, hf.writeLine, ← hf.writeFooter]
    exact congrArg (fun s => (shallower s).writeFooter unit (f footer))
      (hf.writeAll body (sheet.writeLine unit header).deeper)
  | .indented body, sheet => congrArg shallower (hf.writeAll body sheet.deeper)

theorem Tolerates.writeAll (hf : Tolerates unit f) : (ls : List Layout) → (sheet : Sheet) →
    Sheet.writeAll unit (Layout.mapTexts f ls) (sheet.map f) = (Sheet.writeAll unit ls sheet).map f
  | [], _ => rfl
  | l :: ls, sheet => by
    rw [Layout.mapTexts, Sheet.writeAll, hf.write l, hf.writeAll ls, Sheet.writeAll]

end

theorem Tolerates.finish (hf : Tolerates unit f) (lines : List String) :
    f ("\n".intercalate lines ++ "\n") = "\n".intercalate (lines.map f) ++ "\n" := by
  induction lines with
  | nil =>
    have hline := hf.lineFeed "" ""
    simpa [hf.empty] using hline
  | cons s lines ih =>
    cases lines with
    | nil =>
      have hline := hf.lineFeed s ""
      simpa [hf.empty] using hline
    | cons t lines =>
      rw [String.intercalate_cons_cons, String.append_assoc, hf.lineFeed, ih, List.map_cons,
        List.map_cons, List.map_cons, String.intercalate_cons_cons]
      simp only [String.append_assoc]

theorem Tolerates.render (hf : Tolerates unit f) (ls : List Layout) :
    Layout.render unit (Layout.mapTexts f ls) = f (Layout.render unit ls) := by
  have hwritten := hf.writeAll ls {}
  rw [Layout.render, Layout.render, Sheet.finish, Sheet.finish, hf.finish, List.map_reverse]
  exact congrArg (fun sheet : Sheet => "\n".intercalate sheet.written.reverse ++ "\n") hwritten

end Sheet

end Comprehend
