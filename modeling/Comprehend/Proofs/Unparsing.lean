import Mathlib
import Comprehend.Proofs.Readings

/-! Comprehensions written back. The canonical text of a comprehension gives all that was read from
its source: whatever a source states, its canonical text states the same. -/
namespace Comprehend

theorem Table.lookup_place {α : Type} (name : String) (value : α) (es : List (String × α)) :
    (place name value es).lookup name = some value := by
  induction es with
  | nil => simp [place]
  | cons e es ih =>
    simp only [place]
    split
    · simp
    split
    · simp
    next hne => rw [List.lookup_cons, beq_eq_false_iff_ne.mpr hne, ih]

namespace Comprehension

open Token Parse

/-! The canonical text -/

def brackets : Shape → String × String
  | .list => ("[", "]")
  | .generator => ("(", ")")
  | .set | .dict => ("\x7b", "\x7d")

def itemText (c : Comprehension) : String :=
  if c.shape = .dict then c.keyText ++ ": " ++ c.valueText else c.elementText

def bracketedText (c : Comprehension) : String :=
  (brackets c.shape).1 ++ c.itemText ++ String.join (c.generators.map Generator.written) ++
    (brackets c.shape).2

def valueSource (c : Comprehension) : String :=
  match c.reduction with
  | some r => r.reducer.name ++ "(" ++ c.bracketedText ++ ")"
  | none => c.bracketedText

def unparse (c : Comprehension) : String :=
  targetText (c.provenance.get? "target") ++ c.valueSource

/-! Statements that are read -/

/-- Statements in the form in which they are written back. -/
inductive Canonical : Statement → Prop
  | bracketed {shape hshape f L} : Canonical (.bracketed shape hshape f L)
  | set {f L} : Canonical (.set f L)
  | dict {key value L} : Canonical (.dict key value L)
  | call {r shape hshape f L} : Canonical (.call (.plain r) (.bracketed shape hshape f L))

variable {s : Statement} {source : List Char} {c : Comprehension}

theorem Canonical.text_eq (h : Canonical s) : s.text = s.comprehension.valueSource := by
  rw [← String.toList_inj]
  cases h with
  | @bracketed shape hshape f L =>
    rcases hshape with rfl | rfl <;>
      simp [Statement.text, Statement.bracketed, valueSource, bracketedText, itemText, elementText,
        ofElement, enclosed, opener, closer, brackets, L.text_pieces]
  | @set f L =>
    simp [Statement.text, Statement.set, valueSource, bracketedText, itemText, elementText,
      ofElement, enclosed, opener, closer, brackets, L.text_pieces]
  | @dict key value L =>
    simp [Statement.text, Statement.dict, valueSource, bracketedText, itemText, keyText, valueText,
      ofPair, pairPieces, enclosed, opener, closer, brackets, L.text_pieces]
  | @call r shape hshape f L =>
    have hcallee := (Callee.plain r).text_pieces
    rcases hshape with rfl | rfl <;>
      simp [Statement.text, Statement.call, Argument.bracketed, valueSource, bracketedText,
        itemText, elementText, ofElement, enclosed, opener, closer, brackets, L.text_pieces,
        hcallee, Callee.written]

theorem Canonical.provenance_eq (h : Canonical s) :
    ∃ name, s.comprehension.provenance = origin name := by
  cases h <;> exact ⟨_, rfl⟩

theorem get?_target_assigned {name : String} (h : c.provenance = origin name)
    (target : Option String) : (assigned target c).provenance.get? "target" = target := by
  cases target with
  | none =>
    rw [assigned, h]
    rfl
  | some n => exact Table.lookup_place _ _ _

theorem valueSource_assigned (target : Option String) (c : Comprehension) :
    (assigned target c).valueSource = c.valueSource := by
  cases target <;> rfl

theorem Canonical.unparse_eq (h : Canonical s) (target : Option String) :
    (assigned target s.comprehension).unparse = targetText target ++ s.text := by
  obtain ⟨name, hname⟩ := h.provenance_eq
  rw [unparse, get?_target_assigned hname, valueSource_assigned, h.text_eq]

theorem Captured.exists_fragment {all : List Token} {stop : TokenKind → Bool} {text : String}
    (h : Captured source all stop text) : ∃ f : Fragment stop, f.text = text := by
  obtain ⟨depth, ts, rest, hdepth, hahead, hread⟩ := h
  exact hahead.stream.capture hdepth hread

theorem LoopRead.exists_loop {all : List Token} {g : Generator} (h : LoopRead source all g) :
    ∃ l : Loop, l.generator = g := by
  obtain ⟨depth, ts, rest, hdepth, hahead, -, hread⟩ := h.items
  obtain ⟨i, hi⟩ := hahead.stream.iterable hdepth hread
  obtain ⟨fs, hfs⟩ := exists_map_eq fun s hs => (h.filters s hs).exists_fragment
  exact ⟨⟨g.var, h.name, i, fs⟩, by rw [Loop.generator, hi, hfs]⟩

theorem LoopsRead.exists_loops {all : List Token} {gs : List Generator}
    (h : LoopsRead source all gs) : ∃ L : Loops, L.generators = gs :=
  Comprehension.exists_loops (fun g hg => (h.each g hg).exists_loop) h.ne_nil h.nodup

theorem Reading.exists_canonical {all : List Token} (h : Reading source all c) :
    ∃ s, Canonical s ∧ s.comprehension = c := by
  cases h with
  | bracketed hshape helement hloops =>
    obtain ⟨f, rfl⟩ := helement.exists_fragment
    obtain ⟨L, rfl⟩ := hloops.exists_loops
    exact ⟨.bracketed _ hshape f L, .bracketed, rfl⟩
  | set helement hloops =>
    obtain ⟨f, rfl⟩ := helement.exists_fragment
    obtain ⟨L, rfl⟩ := hloops.exists_loops
    exact ⟨.set f L, .set, rfl⟩
  | dict hkey hvalue hloops =>
    obtain ⟨key, rfl⟩ := hkey.exists_fragment
    obtain ⟨value, rfl⟩ := hvalue.exists_fragment
    obtain ⟨L, rfl⟩ := hloops.exists_loops
    exact ⟨.dict key value L, .dict, rfl⟩
  | @call r shape stop element gs hshape hstop helement hloops =>
    obtain ⟨f, rfl⟩ := helement.exists_fragment
    obtain ⟨L, rfl⟩ := hloops.exists_loops
    exact ⟨.call (.plain r) (.bracketed shape hshape (f.weaken hstop) L), .call, rfl⟩

/-- Whatever a source states, the canonical text of it states the same. -/
theorem parse_unparse {source : String} {c : Comprehension} (h : parse source = .ok c) :
    parse c.unparse = .ok c := by
  obtain ⟨ts, -, c', target, hreading, htarget, rfl⟩ := reading_of_parse h
  obtain ⟨s, hs, rfl⟩ := hreading.exists_canonical
  rw [hs.unparse_eq]
  exact s.parse_text htarget

theorem parse_unparse_max :
    parse "import m\nt = max((x,\n y)  for x in range(-3) if x for y in s)" =
        .ok (assigned (some "t") { ofReducer .max "(x,\n y)"
            [⟨"x", .range ⟨0, -3, 1⟩, ["x"]⟩, ⟨"y", .text "s", []⟩] with
          provenance := origin "call_max" }) ∧
      parse "t = max(((x,\n y) for x in range(0, -3, 1) if x for y in s))" =
        .ok (assigned (some "t") { ofReducer .max "(x,\n y)"
            [⟨"x", .range ⟨0, -3, 1⟩, ["x"]⟩, ⟨"y", .text "s", []⟩] with
          provenance := origin "call_max" }) := by
  have hsource : parse "import m\nt = max((x,\n y)  for x in range(-3) if x for y in s)" =
      .ok (assigned (some "t") { ofReducer .max "(x,\n y)"
          [⟨"x", .range ⟨0, -3, 1⟩, ["x"]⟩, ⟨"y", .text "s", []⟩] with
        provenance := origin "call_max" }) := by cbv
  have htext : "t = max(((x,\n y) for x in range(0, -3, 1) if x for y in s))" =
      unparse (assigned (some "t") { ofReducer .max "(x,\n y)"
          [⟨"x", .range ⟨0, -3, 1⟩, ["x"]⟩, ⟨"y", .text "s", []⟩] with
        provenance := origin "call_max" }) := by cbv
  rw [htext]
  exact ⟨hsource, parse_unparse hsource⟩

end Comprehension

end Comprehend
