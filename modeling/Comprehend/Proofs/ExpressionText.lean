import Comprehend.Proofs.GrammarComplete
import Comprehend.Proofs.Pieces

/-! Texts that spell expressions. A text is an expression if and only if it can be scanned and the
grammar derives its tokens, line feeds left out. -/
namespace Comprehend

namespace Token

open Piece

def endOf (cs : List Char) : Token :=
  ⟨.eof, (Place.over {} cs).span 0⟩

theorem scan_eq_ok_iff {cs : List Char} {ts : List Token} :
    scan cs = .ok ts ↔ ∃ qs, text qs = cs ∧ Tiles [] 0 qs ∧ ts = tokens {} qs ++ [endOf cs] := by
  constructor
  · exact exists_tiles
  · rintro ⟨qs, rfl, htiles, rfl⟩
    have hscan := scanFrom_tiles htiles {}
    rwa [List.append_nil] at hscan

theorem Tiles.kinds_ne_eof {rest : List Char} {depth : Nat} {qs : List Piece}
    (h : Tiles rest depth qs) : ∀ k ∈ Piece.kinds qs, k ≠ .eof := by
  induction h with
  | done => simp
  | gap _ _ ih => exact ih
  | line _ ih => simpa using ih
  | word hword _ ih =>
    have hk := isWordKind_of_lexeme hword
    simp only [isWordKind, Bool.and_eq_true, bne_iff_ne] at hk
    simpa [hk] using ih

theorem Tiles.isWordKind_of_mem {rest : List Char} {depth : Nat} {qs : List Piece}
    (h : Tiles rest depth qs) {k : TokenKind} (hk : k ∈ Piece.kinds qs) (hline : k ≠ .newline) :
    isWordKind k = true := by
  simpa [isWordKind, hline] using h.kinds_ne_eof k hk

end Token

namespace Expr

open Parse Grammar Token

def parseWith (read : Nat → List Token → Attempt (Expr × List Token)) (text : String) :
    Attempt Expr :=
  match scan text.toList with
  | .error e => .error (.ofScan e)
  | .ok ts => do
    let (e, rest) ← read (16 * ((ts.filter (·.kind != .newline)).length + 1))
      (ts.filter (·.kind != .newline))
    if peek rest = .eof then return e
    else failAt (.afterExpression (peek rest)) rest

theorem parse_eq (text : String) : parse text = parseWith expression text := rfl

/-- The reader accepts just the phrases of one sort. -/
structure Recognizes (read : Nat → List Token → Attempt (Expr × List Token))
    (Phrase : List TokenKind → Expr → Prop) : Prop where
  sound {fuel ts e rest} : read fuel ts = .ok (e, rest) → Reads Phrase ts e rest
  complete {ks e} : Phrase ks e → Completes read 14 1 ks e
  native {ks e} : Phrase ks e → Native ks

theorem recognizes_expression : Recognizes expression Expression where
  sound h := (sound _).expression h
  complete h := expression_complete h
  native h := h.native

theorem recognizes_disjunction : Recognizes disjunction Disjunction where
  sound h := (sound _).disjunction h
  complete h := fun fuel ts rest hts hrest hfuel =>
    disjunction_completes (disjunction_complete h) fuel ts rest hts (by omega)
      (by unfold Enough at *; omega)
  native h := h.native

/-- The first end mark is where a native phrase ends. -/
theorem eq_of_append_eof {ks ls ms : List TokenKind} (hks : Native ks) (hms : ∀ k ∈ ms, k ≠ .eof)
    (h : ms ++ [.eof] = ks ++ .eof :: ls) : ks = ms := by
  induction ks generalizing ms with
  | nil =>
    cases ms with
    | nil => rfl
    | cons m ms =>
      obtain ⟨rfl, -⟩ := List.cons.inj h
      exact absurd rfl (hms _ (by simp))
  | cons k ks ih =>
    cases ms with
    | nil =>
      obtain ⟨rfl, -⟩ := List.cons.inj h
      simp [isForeign] at hks
    | cons m ms =>
      obtain ⟨rfl, htail⟩ := List.cons.inj h
      rw [ih (native_cons.mp hks).2 (fun k hk => hms k (by simp [hk])) htail]

section

variable {read : Nat → List Token → Attempt (Expr × List Token)}
  {Phrase : List TokenKind → Expr → Prop}

/-- A reader of phrases takes all tokens up to the end, if and only if they are a phrase. -/
theorem Recognizes.read_iff (h : Recognizes read Phrase) {us : List Token} {last : Token}
    (hus : ∀ k ∈ kinds us, k ≠ .eof) (hlast : last.kind = .eof) {fuel : Nat} {e : Expr}
    (hfuel : Enough fuel 14 (us ++ [last])) :
    (∃ rest, read fuel (us ++ [last]) = .ok (e, rest) ∧ peek rest = .eof) ↔
      Phrase (kinds us) e := by
  constructor
  · rintro ⟨rest, hread, hrest⟩
    obtain ⟨ks, hkinds, hphrase⟩ := h.sound hread
    simp only [kinds_append, kinds_cons, hlast, kinds_nil] at hkinds
    have hrest' : ∃ ls, kinds rest = .eof :: ls := by
      cases rest with
      | nil =>
        rw [kinds_nil, List.append_nil] at hkinds
        have heof := h.native hphrase .eof (by simp [← hkinds])
        simp [isForeign] at heof
      | cons t rest => exact ⟨kinds rest, by simpa [peek] using hrest⟩
    obtain ⟨ls, hls⟩ := hrest'
    rw [hls] at hkinds
    exact eq_of_append_eof (h.native hphrase) hus hkinds ▸ hphrase
  · intro hphrase
    have hjoins : joins (peek [last]) < 1 := by simp [peek, hlast, joins]
    exact ⟨[last], h.complete hphrase fuel us [last] rfl hjoins hfuel, hlast⟩

theorem kinds_filter_tokens (p : Place) (qs : List Piece) :
    kinds ((Piece.tokens p qs).filter (·.kind != .newline)) =
      (Piece.kinds qs).filter (· != .newline) := by
  rw [← Piece.kinds_tokens p qs, kinds, kinds, List.filter_map]
  rfl

/-- A text in pieces is a phrase to the reader, if and only if its tokens are. -/
theorem Recognizes.parseWith_tiles (h : Recognizes read Phrase) {qs : List Piece}
    (htiles : Tiles [] 0 qs) {text : String} (htext : text.toList = Piece.text qs) (e : Expr) :
    parseWith read text = .ok e ↔ Phrase ((Piece.kinds qs).filter (· != .newline)) e := by
  have hscan : scan text.toList = .ok (Piece.tokens {} qs ++ [endOf text.toList]) :=
    scan_eq_ok_iff.mpr ⟨qs, htext.symm, htiles, rfl⟩
  have hfilter : (Piece.tokens {} qs ++ [endOf text.toList]).filter (·.kind != .newline) =
      (Piece.tokens {} qs).filter (·.kind != .newline) ++ [endOf text.toList] := by
    simp [endOf]
  have hwords : ∀ k ∈ (Piece.kinds qs).filter (· != .newline), k ≠ .eof :=
    fun k hk => htiles.kinds_ne_eof k (List.mem_filter.mp hk).1
  rw [← kinds_filter_tokens {}] at hwords ⊢
  have hfuel (ts : List Token) : Enough (16 * (ts.length + 1)) 14 ts := by
    unfold Enough
    omega
  have hlast : (endOf text.toList).kind = .eof := rfl
  rw [← h.read_iff hwords hlast (hfuel _)]
  simp only [parseWith, hscan, hfilter, bind_eq_ok]
  constructor
  · rintro ⟨⟨e', rest⟩, hread, hrest⟩
    split at hrest
    next hpeek =>
      obtain rfl := pure_eq_ok.mp hrest
      exact ⟨rest, hread, hpeek⟩
    next => simp at hrest
  · rintro ⟨rest, hread, hpeek⟩
    exact ⟨(e, rest), hread, by simp [hpeek, pure_eq_ok]⟩

end

/-- A text is an expression if and only if it can be scanned and its tokens before the end, line
feeds left out, are a phrase of the grammar; and then the tree is that of the phrase. -/
theorem parse_eq_ok_iff (text : String) (e : Expr) :
    parse text = .ok e ↔
      ∃ ts last, scan text.toList = .ok (ts ++ [last]) ∧ last.kind = .eof ∧
        Expression ((kinds ts).filter (· != .newline)) e := by
  rw [parse_eq]
  constructor
  · intro h
    cases hscan : scan text.toList with
    | error fault => simp [parseWith, hscan] at h
    | ok ts =>
      obtain ⟨qs, htext, htiles, rfl⟩ := scan_eq_ok_iff.mp hscan
      refine ⟨_, _, rfl, rfl, ?_⟩
      rw [Piece.kinds_tokens]
      exact (recognizes_expression.parseWith_tiles htiles htext.symm e).mp h
  · rintro ⟨ts, last, hscan, -, hphrase⟩
    obtain ⟨qs, htext, htiles, hts⟩ := scan_eq_ok_iff.mp hscan
    obtain ⟨rfl, -⟩ := List.append_inj' hts rfl
    rw [Piece.kinds_tokens] at hphrase
    exact (recognizes_expression.parseWith_tiles htiles htext.symm e).mpr hphrase

end Expr

end Comprehend
