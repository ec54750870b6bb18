import Mathlib.Data.List.Infix
import Comprehend.Target.Basic
import Comprehend.Text.Trim

/-! Words in a text that is laid out. A word of a line is a word of the text, and it stays whole
when the text is taken apart into lines again. -/
namespace Comprehend

/-- The characters of the word stand in the text, one next to the other. -/
def Occurs (word text : String) : Prop :=
  word.toList <:+: text.toList

instance (word text : String) : Decidable (Occurs word text) :=
  inferInstanceAs (Decidable (_ <:+: _))

namespace Occurs

variable {word s t : String}

@[grind .] theorem refl (s : String) : Occurs s s :=
  List.infix_rfl

theorem trans (h : Occurs word s) (hs : Occurs s t) : Occurs word t :=
  List.IsInfix.trans h hs

@[grind ←] theorem before (h : Occurs word s) (t : String) : Occurs word (s ++ t) := by
  rw [Occurs, String.toList_append]
  exact List.IsInfix.trans h (List.prefix_append ..).isInfix

@[grind ←] theorem behind (h : Occurs word t) (s : String) : Occurs word (s ++ t) := by
  rw [Occurs, String.toList_append]
  exact List.IsInfix.trans h (List.suffix_append ..).isInfix

theorem intercalate {ss : List String} (hs : s ∈ ss) (between : String) :
    Occurs s (between.intercalate ss) := by
  induction ss with
  | nil => cases hs
  | cons t ss ih =>
    cases ss with
    | nil => rw [List.mem_singleton.mp hs, String.intercalate_singleton]; exact refl t
    | cons u us =>
      rw [String.intercalate_cons_cons]
      rcases List.mem_cons.mp hs with rfl | hs
      · exact ((refl s).before between).before _
      · exact (ih hs).behind _

end Occurs

/-! Layouts -/

namespace Layout

mutual

/-- The word occurs in a line of the layout, footers apart. -/
@[simp] def Shows (word : String) : Layout → Prop
  | .line s => Occurs word s
  | .lines ss => ∃ s ∈ ss, Occurs word s
  | .blank => False
  | .block header _ body => Occurs word header ∨ AnyShows word body
  | .indented body => AnyShows word body

@[simp] def AnyShows (word : String) : List Layout → Prop
  | [] => False
  | l :: ls => Shows word l ∨ AnyShows word ls

end

variable {word : String}

theorem anyShows_iff {ls : List Layout} : AnyShows word ls ↔ ∃ l ∈ ls, Shows word l := by
  induction ls with
  | nil => simp
  | cons l ls ih => simp [ih]

@[simp] theorem anyShows_append (ls ms : List Layout) :
    AnyShows word (ls ++ ms) ↔ AnyShows word ls ∨ AnyShows word ms := by
  induction ls with
  | nil => simp
  | cons l ls ih => simp [ih, or_assoc]

/-- A word of nested loops stands in a header, in front of the next loop or in the leaf. -/
@[simp] theorem anyShows_nest (footer : String) (leaf : List Layout) (loops : List Target.Loop) :
    AnyShows word (Target.nest footer leaf loops) ↔
      (∃ l ∈ loops, Occurs word l.header ∨ AnyShows word l.opening) ∨ AnyShows word leaf := by
  induction loops with
  | nil => simp [Target.nest]
  | cons l loops ih => simp [Target.nest, ih, or_assoc]

end Layout

def Text.unlines (ss : List String) : String :=
  String.join (ss.map (· ++ "\n"))

theorem Text.unlines_append (ss ts : List String) :
    unlines (ss ++ ts) = unlines ss ++ unlines ts := by
  simp [unlines]

theorem Text.occurs_unlines {s : String} {ss : List String} (h : s ∈ ss) :
    Occurs s (unlines ss) := by
  induction ss with
  | nil => cases h
  | cons t ss ih =>
    rw [unlines, List.map_cons, String.join_cons]
    rcases List.mem_cons.mp h with rfl | h
    · exact ((Occurs.refl s).before "\n").before _
    · exact (ih h).behind _

/-! Sheets -/

namespace Sheet

variable {word unit : String}

/-- What is written stays, the depth is as before, and a word that is shown has a place. -/
structure Keeps (word : String) (shown : Prop) (sheet sheet' : Sheet) : Prop where
  indent : sheet'.indent = sheet.indent
  written : sheet.written <:+ sheet'.written
  exists_line : shown → ∃ line ∈ sheet'.written, Occurs word line

theorem keeps_rfl (sheet : Sheet) : Keeps word False sheet sheet :=
  ⟨rfl, List.suffix_rfl, False.elim⟩

theorem Keeps.trans {shown shown' : Prop} {a b c : Sheet} (h : Keeps word shown a b)
    (h' : Keeps word shown' b c) : Keeps word (shown ∨ shown') a c where
  indent := h'.indent.trans h.indent
  written := h.written.trans h'.written
  exists_line := by
    rintro (hshown | hshown)
    · obtain ⟨line, hline, hoccurs⟩ := h.exists_line hshown
      exact ⟨line, h'.written.subset hline, hoccurs⟩
    · exact h'.exists_line hshown

theorem keeps_writeLine (s : String) (sheet : Sheet) :
    Keeps word (Occurs word s) sheet (sheet.writeLine unit s) where
  indent := rfl
  written := List.suffix_cons ..
  exists_line := by
    intro hword
    refine ⟨_, List.mem_cons_self, ?_⟩
    split
    next hempty => rwa [String.isEmpty_iff.mp hempty] at hword
    next => exact hword.behind _

theorem keeps_writeLines (ss : List String) (sheet : Sheet) :
    Keeps word (∃ s ∈ ss, Occurs word s) sheet
      (ss.foldl (fun sheet s => sheet.writeLine unit s) sheet) := by
  induction ss generalizing sheet with
  | nil => simpa using keeps_rfl sheet
  | cons s ss ih => simpa using (keeps_writeLine s sheet).trans (ih _)

theorem keeps_writeBlank (sheet : Sheet) : Keeps word False sheet sheet.writeBlank := by
  unfold writeBlank
  split
  next => exact keeps_rfl sheet
  next =>
    split
    · exact keeps_rfl sheet
    · exact ⟨rfl, List.suffix_cons .., False.elim⟩

theorem keeps_writeFooter (unit footer : String) (sheet : Sheet) :
    Keeps word False sheet (sheet.writeFooter unit footer) := by
  unfold writeFooter
  split
  · exact keeps_rfl sheet
  · exact ⟨rfl, List.suffix_cons .., False.elim⟩

/-- A body one level deeper ends at the depth at which it began. -/
theorem Keeps.shallower {shown : Prop} {sheet sheet' : Sheet}
    (h : Keeps word shown sheet.deeper sheet') : Keeps word shown sheet sheet'.shallower where
  indent := by simp [Sheet.shallower, h.indent, deeper]
  written := h.written
  exists_line := h.exists_line

mutual

theorem keeps_write : (l : Layout) → (sheet : Sheet) →
    Keeps word (l.Shows word) sheet (write unit l sheet)
  | .line s, sheet => keeps_writeLine s sheet
  | .lines ss, sheet => keeps_writeLines ss sheet
  | .blank, sheet => keeps_writeBlank sheet
  | .block header footer body, sheet => by
    have hbody := (keeps_writeAll body (sheet.writeLine unit header).deeper).shallower
    have h := ((keeps_writeLine header sheet).trans hbody).trans (keeps_writeFooter unit footer _)
    rwa [or_false] at h
  | .indented body, sheet => (keeps_writeAll body sheet.deeper).shallower

theorem keeps_writeAll : (ls : List Layout) → (sheet : Sheet) →
    Keeps word (Layout.AnyShows word ls) sheet (writeAll unit ls sheet)
  | [], sheet => keeps_rfl sheet
  | l :: ls, sheet => (keeps_write l sheet).trans (keeps_writeAll ls _)

end

theorem occurs_finish {line : String} {sheet : Sheet} (h : line ∈ sheet.written) :
    Occurs line sheet.finish :=
  (Occurs.intercalate (List.mem_reverse.mpr h) "\n").before "\n"

def row (unit : String) (depth : Nat) (s : String) : String :=
  if s.isEmpty then "" else margin unit depth ++ s

@[simp] theorem row_zero (unit : String) : row unit 0 = id := by
  funext s
  unfold row
  split
  next hempty => rw [String.isEmpty_iff.mp hempty]; rfl
  next => simp [margin]

theorem row_of_ne {s : String} (h : s ≠ "") (unit : String) (depth : Nat) :
    row unit depth s = margin unit depth ++ s :=
  if_neg (mt String.isEmpty_iff.mp h)

theorem writeLines_eq (unit : String) (ss : List String) (sheet : Sheet) :
    ss.foldl (fun sheet s => sheet.writeLine unit s) sheet =
      { sheet with written := (ss.map (row unit sheet.indent)).reverse ++ sheet.written } := by
  induction ss generalizing sheet with
  | nil => rfl
  | cons s ss ih =>
    rw [List.foldl_cons, ih, List.map_cons, List.reverse_cons, List.append_assoc]
    rfl

theorem writeAll_append (unit : String) (ls ms : List Layout) (sheet : Sheet) :
    writeAll unit (ls ++ ms) sheet = writeAll unit ms (writeAll unit ls sheet) := by
  induction ls generalizing sheet with
  | nil => rfl
  | cons l ls ih => rw [List.cons_append, writeAll, writeAll, ih]

theorem finish_eq {sheet : Sheet} (h : sheet.written ≠ []) :
    sheet.finish = Text.unlines sheet.written.reverse := by
  have hjoin (ss : List String) (s : String) :
      "\n".intercalate (s :: ss) ++ "\n" = Text.unlines (s :: ss) := by
    induction ss generalizing s with
    | nil => simp [Text.unlines]
    | cons t ss ih =>
      rw [String.intercalate_cons_cons, String.append_assoc, ih]
      simp [Text.unlines, String.append_assoc]
  obtain ⟨s, ss, hreverse⟩ := List.exists_cons_of_ne_nil (List.reverse_ne_nil_iff.mpr h)
  rw [finish, hreverse, hjoin]

end Sheet

/-- A word that layouts show occurs in their text. -/
theorem Layout.AnyShows.occurs {word : String} {ls : List Layout} (h : Layout.AnyShows word ls)
    (unit : String) : Occurs word (Layout.render unit ls) := by
  obtain ⟨line, hline, hoccurs⟩ := (Sheet.keeps_writeAll ls {}).exists_line h
  exact hoccurs.trans (Sheet.occurs_finish hline)

/-! Lines -/

namespace Text

variable {word cs : List Char}

theorem splitLines_ne_nil (cs : List Char) : splitLines cs ≠ [] := by
  fun_cases splitLines cs <;> simp_all

/-- A character other than a line feed goes to the first piece. -/
theorem splitLines_cons {c : Char} (hc : c ≠ '\n') (cs : List Char) :
    ∃ piece pieces, splitLines cs = piece :: pieces ∧
      splitLines (c :: cs) = (c :: piece) :: pieces := by
  obtain ⟨piece, pieces, hsplit⟩ := List.exists_cons_of_ne_nil (splitLines_ne_nil cs)
  exact ⟨piece, pieces, hsplit, by rw [splitLines, hsplit]; exact hc⟩

/-- What the characters begin with, the first piece begins with. -/
theorem prefix_splitLines (hword : '\n' ∉ word) (h : word <+: cs) :
    ∃ piece pieces, splitLines cs = piece :: pieces ∧ word <+: piece := by
  induction word generalizing cs with
  | nil =>
    obtain ⟨piece, pieces, hsplit⟩ := List.exists_cons_of_ne_nil (splitLines_ne_nil cs)
    exact ⟨piece, pieces, hsplit, List.nil_prefix⟩
  | cons c word ih =>
    obtain ⟨rest, rfl⟩ := h
    rw [List.mem_cons, not_or] at hword
    obtain ⟨piece, pieces, hsplit, hcons⟩ := splitLines_cons (Ne.symm hword.1) (word ++ rest)
    obtain ⟨first, rest', hfirst, hprefix⟩ := ih hword.2 (List.prefix_append word rest)
    obtain ⟨rfl, -⟩ := List.cons.inj (hsplit.symm.trans hfirst)
    exact ⟨c :: piece, pieces, hcons, (List.prefix_cons_inj c).mpr hprefix⟩

theorem infix_splitLines (hword : '\n' ∉ word) (h : word <:+: cs) :
    ∃ piece ∈ splitLines cs, word <:+: piece := by
  induction cs with
  | nil => exact ⟨[], List.mem_cons_self, h⟩
  | cons c cs ih =>
    rcases List.infix_cons_iff.mp h with h | h
    · obtain ⟨piece, pieces, hsplit, hpiece⟩ := prefix_splitLines hword h
      exact ⟨piece, hsplit ▸ List.mem_cons_self, hpiece.isInfix⟩
    · obtain ⟨piece, hpiece, hinfix⟩ := ih h
      by_cases hc : c = '\n'
      · subst hc
        exact ⟨piece, List.mem_cons_of_mem _ hpiece, hinfix⟩
      · obtain ⟨first, pieces, hsplit, hcons⟩ := splitLines_cons hc cs
        rw [hcons]
        rcases List.mem_cons.mp (hsplit ▸ hpiece) with rfl | hpiece
        · exact ⟨c :: piece, List.mem_cons_self, List.infix_cons hinfix⟩
        · exact ⟨piece, List.mem_cons_of_mem _ hpiece, hinfix⟩

theorem infix_dropReturn (hword : '\r' ∉ word) (h : word <:+: cs) : word <:+: dropReturn cs := by
  unfold dropReturn
  split
  next ds hreverse =>
    obtain rfl : cs = ds.reverse ++ ['\r'] := by simpa using congrArg List.reverse hreverse
    rcases List.infix_concat_iff.mp h with h | h
    · rcases List.suffix_concat_iff.mp h with rfl | ⟨us, rfl, -⟩
      · exact List.nil_infix
      · simp at hword
    · exact h
  next => exact h

def IsUnbroken (word : String) : Prop :=
  word.toList ≠ [] ∧ '\n' ∉ word.toList ∧ '\r' ∉ word.toList

instance (word : String) : Decidable (IsUnbroken word) :=
  inferInstanceAs (Decidable (_ ∧ _))

/-- Such a word occurs in a line wherever it occurs in a text. -/
theorem IsUnbroken.exists_line {word text : String} (hword : IsUnbroken word)
    (h : Occurs word text) : ∃ line ∈ lines text, Occurs word line := by
  obtain ⟨hempty, hfeed, hreturn⟩ := hword
  obtain ⟨piece, hpiece, hinfix⟩ := infix_splitLines hfeed h
  obtain ⟨pieces, last, hsplit⟩ : ∃ pieces last, splitLines text.toList = pieces ++ [last] :=
    (List.eq_nil_or_concat' _).resolve_left (splitLines_ne_nil _)
  have hended : piece ∈ pieces →
      ∃ line ∈ pieces.map fun ps => String.ofList (dropReturn ps), Occurs word line := by
    intro hmem
    refine ⟨_, List.mem_map_of_mem hmem, ?_⟩
    rw [Occurs, String.toList_ofList]
    exact infix_dropReturn hreturn hinfix
  rw [hsplit, List.mem_append, List.mem_singleton] at hpiece
  simp only [lines, hsplit, List.dropLast_concat, List.getLast?_concat]
  cases last with
  | nil =>
    rcases hpiece with hmem | rfl
    · exact hended hmem
    · exact absurd (List.infix_nil.mp hinfix) hempty
  | cons c cs =>
    rcases hpiece with hmem | rfl
    · obtain ⟨line, hline, hoccurs⟩ := hended hmem
      exact ⟨line, List.mem_append_left _ hline, hoccurs⟩
    · refine ⟨_, List.mem_append_right _ (List.mem_singleton_self _), ?_⟩
      rwa [Occurs, String.toList_ofList]

end Text

/-- An unbroken word that layouts show is shown by the lines of their text. -/
theorem Layout.AnyShows.relined {word : String} {ls : List Layout} (h : Layout.AnyShows word ls)
    (hword : Text.IsUnbroken word) (unit : String) :
    Layout.Shows word (.lines (Text.lines (Layout.render unit ls))) :=
  hword.exists_line (h.occurs unit)

end Comprehend
