import Mathlib
import Comprehend.Proofs.Readings

/-! Texts that the reader of comprehensions keeps. Each is kept as it stands in the source, from the
first character of some tokens to the last, and scanned alone it makes these tokens again. -/
namespace Comprehend

def Source.texts : Source → List String
  | range _ => []
  | text s => [s]

namespace Comprehension

open Token Parse

/-- All texts that a comprehension keeps: its expressions, and what its loops run over. -/
def texts (c : Comprehension) : List String :=
  c.expressions ++ c.generators.flatMap (·.source.texts)

/-- The text is the stretch of the source from the first character of some tokens in a row to the
last, and scanned alone it makes the same tokens, line feeds apart. -/
def Excerpt (source : List Char) (ts : List Token) (s : String) : Prop :=
  ∃ (run : List Token) (hne : run ≠ []), run <:+: ts ∧
    s.toList = (source.take (run.getLast hne).span.stop).drop (run.head hne).span.start ∧
    ∃ us, scan s.toList = .ok us ∧ kinds (us.filter (·.kind != .newline)) = kinds run ++ [.eof]

/-! Fragments scanned alone -/

section

variable {stop : TokenKind → Bool} {source : List Char} {ts : List Token}

/-- A fragment outside all brackets makes the tokens it makes inside of them, and one for each line
feed that stands outside its own brackets. -/
theorem Fragment.scan_text (f : Fragment stop) :
    ∃ us, scan f.text.toList = .ok us ∧
      kinds (us.filter (·.kind != .newline)) = Piece.kinds f.pieces ++ [.eof] := by
  have htiles := f.tiles 1 [] (by decide) (by simp)
  obtain ⟨rs, hsunk, hrs⟩ := htiles.rise (by decide) rfl f.sealed
  have htext : Piece.text rs = f.text.toList := by
    rw [f.toList_text, ← hsunk, text_sunk]
  refine ⟨_, scan_eq_ok_iff.mpr ⟨rs, htext, hrs, rfl⟩, ?_⟩
  rw [List.filter_append, kinds_append, Expr.kinds_filter_tokens, ← kinds_sunk, hsunk]
  rfl

theorem Fragment.excerpt {f : Fragment stop} {p : Place} {first : Token} {run : List Token}
    (htokens : Piece.tokens p f.pieces = first :: run)
    (hsource : Located source p (Piece.text f.pieces)) (hrun : first :: run <:+: ts) :
    Excerpt source ts f.text := by
  obtain ⟨first', run', htokens', hstart, hstop, hspan⟩ := runSpan_tokens p f.starts f.ends
  obtain ⟨rfl, rfl⟩ := List.cons.inj (htokens.symm.trans htokens')
  have hslice := hsource.slice hspan.1 hspan.2
  rw [Span.slice, hspan.1, hspan.2, ← hstop, ← hstart] at hslice
  obtain ⟨us, hscan, hkinds⟩ := f.scan_text
  have hlast : (first :: run).getLast (by simp) = run.getLast?.getD first := by
    rw [List.getLast_eq_iff_getLast?_eq_some, List.getLast?_cons]
  refine ⟨first :: run, by simp, hrun, ?_, us, hscan, ?_⟩
  · rw [f.toList_text, hlast, List.head_cons, hslice]
  · rw [hkinds, ← htokens, Piece.kinds_tokens]

end

/-! Parts of a reading -/

variable {stop : TokenKind → Bool} {source : List Char} {all ts rest : List Token} {depth : Nat}
  {c : Comprehension}

theorem Ahead.excerpt (h : Ahead source all depth ts) (hdepth : 0 < depth) {first : Token}
    {run : List Token} (hread : Comprehension.captureRun stop ts = .ok ((first, run), rest)) :
    Excerpt source all ((runSpan first run).text source) := by
  obtain ⟨hts, -, -⟩ := captureRun_eq_ok hread
  obtain ⟨⟨f, p, htokens, hsource⟩, -⟩ := h.stream.captureRun hdepth hread
  have hinfix : first :: run <:+: all := by
    refine List.IsInfix.trans ?_ h.suffix.isInfix
    exact hts ▸ (List.prefix_append _ rest).isInfix
  rw [Fragment.text_of_tokens htokens hsource]
  exact Fragment.excerpt htokens hsource hinfix

theorem Captured.excerpt {s : String} (h : Captured source all stop s) : Excerpt source all s := by
  obtain ⟨depth, ts, rest, hdepth, hahead, hread⟩ := h
  obtain ⟨first, run, hrun, rfl⟩ := capture_eq_ok hread
  exact hahead.excerpt hdepth hrun

theorem ReadBehind.excerpts {g : Generator} (h : ReadBehind source all g) :
    ∀ s ∈ g.source.texts, Excerpt source all s := by
  obtain ⟨depth, ts, rest, hdepth, hahead, -, hread⟩ := h
  obtain ⟨first, run, hrun, ⟨inside, r, -, -, hitems⟩ | ⟨-, hitems⟩⟩ := iterable_eq_ok hread
  · simp [hitems, Source.texts]
  · simpa [hitems, Source.texts] using hahead.excerpt hdepth hrun

theorem LoopsRead.excerpts (h : LoopsRead source all c.generators)
    (hparts : ∀ s ∈ [c.element, c.key, c.value].filterMap id, Excerpt source all s) :
    ∀ s ∈ c.texts, Excerpt source all s := by
  intro s hs
  simp only [texts, expressions, List.mem_append, List.mem_flatMap] at hs
  rcases hs with (hs | ⟨g, hg, hs⟩) | ⟨g, hg, hs⟩
  · exact hparts s hs
  · exact ((h.each g hg).filters s hs).excerpt
  · exact (h.each g hg).items.excerpts s hs

theorem Reading.excerpts (h : Reading source all c) : ∀ s ∈ c.texts, Excerpt source all s := by
  cases h with
  | bracketed _ helement hloops =>
    exact LoopsRead.excerpts hloops (by simpa [ofElement] using helement.excerpt)
  | set helement hloops =>
    exact LoopsRead.excerpts hloops (by simpa [ofElement] using helement.excerpt)
  | dict hkey hvalue hloops =>
    exact LoopsRead.excerpts hloops (by simpa [ofPair] using ⟨hkey.excerpt, hvalue.excerpt⟩)
  | call _ _ helement hloops =>
    exact LoopsRead.excerpts hloops (by simpa [ofElement] using helement.excerpt)

theorem texts_assigned (target : Option String) (c : Comprehension) :
    (assigned target c).texts = c.texts := by
  cases target <;> rfl

/-- Every text that is kept of a source is an excerpt of it. -/
theorem parse_excerpts {source : String} {c : Comprehension} (h : parse source = .ok c) :
    ∃ ts, scan source.toList = .ok ts ∧ ∀ s ∈ c.texts, Excerpt source.toList ts s := by
  obtain ⟨ts, hscan, c', target, hreading, -, rfl⟩ := reading_of_parse h
  rw [texts_assigned]
  exact ⟨ts, hscan, hreading.excerpts⟩

theorem parse_excerpts_sum :
    parse "t = sum(f(x] # one\n + \\\n 'a' for x in \x7by) if x)" =
        .ok (assigned (some "t") { ofReducer .sum "f(x] # one\n + \\\n 'a'"
            [⟨"x", .text "\x7by)", ["x"]⟩] with provenance := origin "call_sum" }) ∧
      ∃ ts, scan "t = sum(f(x] # one\n + \\\n 'a' for x in \x7by) if x)".toList = .ok ts ∧
        ∀ s ∈ ["f(x] # one\n + \\\n 'a'", "x", "\x7by)"],
          Excerpt "t = sum(f(x] # one\n + \\\n 'a' for x in \x7by) if x)".toList ts s := by
  have hparse : parse "t = sum(f(x] # one\n + \\\n 'a' for x in \x7by) if x)" =
      .ok (assigned (some "t") { ofReducer .sum "f(x] # one\n + \\\n 'a'"
          [⟨"x", .text "\x7by)", ["x"]⟩] with provenance := origin "call_sum" }) := by cbv
  exact ⟨hparse, parse_excerpts hparse⟩

end Comprehension

end Comprehend
