import Mathlib
import Comprehend.Proofs.Statements

/-! Comprehensions made of expressions. Whatever expressions are put into the places of a
comprehension, it is read, and it is split into just these expressions. -/
namespace Comprehend

namespace Comprehension

open Token Parse

/-! Texts that are put into a comprehension -/

/-- The tokens of a text before its end, line feeds left out. -/
def tokenKinds (text : String) : List TokenKind :=
  match scan text.toList with
  | .ok ts => (kinds ts.dropLast).filter (· != .newline)
  | .error _ => []

/-- The text begins and ends with a token, and not with a blank, a line feed or a comment. -/
def isBare (text : String) : Bool :=
  match scan text.toList with
  | .ok ts =>
    ts.dropLast.head?.any (fun t => t.kind != .newline && t.span.start == 0) &&
      ts.dropLast.getLast?.any fun t => t.kind != .newline && t.span.stop == text.length
  | .error _ => false

def IsExpression (text : String) : Prop :=
  isBare text = true ∧ (Expr.parse text).isOk = true

/-- The text of an iterable or a filter: outside brackets, it has no conditional expression. -/
def IsOperand (text : String) : Prop :=
  isBare text = true ∧ (Expr.parseWith Expr.disjunction text).isOk = true

/-- A loop over something other than a range. -/
structure IsClause (g : Generator) : Prop where
  var : isName g.var = true
  source : ∃ s, g.source = .text s ∧ IsOperand s ∧ ¬IsRangeCall (tokenKinds s)
  filters : ∀ f ∈ g.filters, IsOperand f

/-! Where the tokens of pieces stand -/

theorem span_of_mem_tokens {p : Place} {qs : List Piece} {t : Token}
    (h : t ∈ Piece.tokens p qs) :
    p.offset ≤ t.span.start ∧ t.span.stop ≤ p.offset + (Piece.text qs).length := by
  induction qs generalizing p with
  | nil => simp at h
  | cons q qs ih =>
    obtain ⟨cs, _ | k⟩ := q
    · have hspan := ih h
      simp only [Place.offset_over, Piece.text_cons, List.length_append] at hspan ⊢
      omega
    · rcases List.mem_cons.mp h with rfl | h
      · simp [Place.span]
      · have hspan := ih h
        simp only [Place.offset_over, Piece.text_cons, List.length_append] at hspan ⊢
        omega

theorem startsInWord_of_token {depth : Nat} {qs : List Piece} (h : Tiles [] depth qs) {t : Token}
    (ht : (Piece.tokens {} qs).head? = some t) (hline : t.kind ≠ .newline)
    (hstart : t.span.start = 0) : StartsInWord qs := by
  cases h with
  | done => simp at ht
  | @gap _ c cs qs _ _ =>
    -- a token behind a gap starts later
    have hmem : t ∈ Piece.tokens (Place.over {} (c :: cs)) qs := List.mem_of_mem_head? ht
    have hspan := (span_of_mem_tokens hmem).1
    simp [hstart] at hspan
  | line _ =>
    simp at ht
    simp [← ht] at hline
  | @word _ c cs k qs hword _ => exact ⟨_, _, _, rfl, isWordKind_of_lexeme hword⟩

theorem endsInWord_of_token {depth : Nat} {qs : List Piece} (h : Tiles [] depth qs) {t : Token}
    (ht : (Piece.tokens {} qs).getLast? = some t) (hline : t.kind ≠ .newline)
    (hstop : t.span.stop = (Piece.text qs).length) : EndsInWord qs := by
  intro q hq
  obtain ⟨rs, rfl⟩ := List.getLast?_eq_some_iff.mp hq
  obtain ⟨cs, _ | k⟩ := q
  · -- a token before a gap stops earlier
    have hmem : t ∈ Piece.tokens {} rs := by
      simpa using List.mem_of_mem_getLast? ht
    have hspan := (span_of_mem_tokens hmem).2
    have hgap := (tiles_append.mp h).2
    generalize Piece.depthOver depth rs = d at hgap
    cases hgap
    simp only [hstop, Piece.text_append, Piece.text_cons, List.length_append,
      List.length_cons] at hspan
    omega
  · obtain rfl : t = ⟨k, _⟩ := by simpa [eq_comm] using ht
    exact ⟨k, rfl, h.isWordKind_of_mem (by simp) hline⟩

/-! Texts as fragments -/

theorem exists_ok {α : Type} {x : Attempt α} (h : x.isOk = true) : ∃ a, x = .ok a := by
  cases x with
  | error e => simp [Except.isOk, Except.toBool] at h
  | ok a => exact ⟨a, rfl⟩

variable {read : Nat → List Token → Attempt (Expr × List Token)}
  {Phrase : List TokenKind → Expr → Prop} {stop : TokenKind → Bool}

/-- A text that a reader accepts makes a fragment, if the phrases of the reader are sealed. -/
theorem exists_fragment_of_parseWith {text : String} {e : Expr}
    (hread : Expr.Recognizes read Phrase) (hsealed : ∀ {ks}, Phrase ks e → Sealed stop 0 ks)
    (hbare : isBare text = true) (h : Expr.parseWith read text = .ok e) :
    ∃ f : Fragment stop, f.text = text ∧ Piece.kinds f.pieces = tokenKinds text ∧
      Grammar.Native (Piece.kinds f.pieces) := by
  unfold isBare at hbare
  split at hbare
  next ts hscan =>
    obtain ⟨qs, htext, htiles, rfl⟩ := scan_eq_ok_iff.mp hscan
    rw [List.dropLast_concat, Bool.and_eq_true, Option.any_eq_true, Option.any_eq_true] at hbare
    obtain ⟨⟨first, hfirst, hstart⟩, last, hlast, hstop⟩ := hbare
    simp only [Bool.and_eq_true, bne_iff_ne, beq_iff_eq] at hstart hstop
    have hstarts := startsInWord_of_token htiles hfirst hstart.1 hstart.2
    have hends := endsInWord_of_token htiles hlast hstop.1
      (by rw [hstop.2, htext, String.length_toList])
    have hphrase := (hread.parseWith_tiles htiles htext.symm e).mp h
    rw [← kinds_sunk] at hphrase
    have hsunk (depth : Nat) (rest : List Char) (hdepth : 0 < depth) (hrest : Breaks rest) :
        Tiles rest depth (sunk qs) :=
      htiles.sink hrest hdepth rfl hends (hsealed hphrase)
    refine ⟨⟨sunk qs, hstarts.sunk, hends.sunk, hsunk, hsealed hphrase⟩, ?_, ?_,
      hread.native hphrase⟩
    · rw [Fragment.text, text_sunk, htext, String.ofList_toList]
    · rw [tokenKinds, hscan]
      simp [kinds_sunk, Piece.kinds_tokens]
  next => simp at hbare

theorem IsExpression.exists_fragment {text : String} (h : IsExpression text)
    (hstop : StopsAtLoops stop) :
    ∃ f : Fragment stop, f.text = text ∧ Grammar.Native (Piece.kinds f.pieces) := by
  obtain ⟨hbare, hok⟩ := h
  obtain ⟨e, he⟩ := exists_ok hok
  obtain ⟨f, htext, -, hnative⟩ := exists_fragment_of_parseWith Expr.recognizes_expression
    (fun hks => (hks.passes fun _ => hstop).sealed) hbare he
  exact ⟨f, htext, hnative⟩

theorem IsOperand.exists_fragment {text : String} (h : IsOperand text) :
    ∃ f : Fragment endsFilter, f.text = text ∧ Piece.kinds f.pieces = tokenKinds text := by
  obtain ⟨hbare, hok⟩ := h
  obtain ⟨e, he⟩ := exists_ok hok
  obtain ⟨f, htext, hkinds, -⟩ := exists_fragment_of_parseWith Expr.recognizes_disjunction
    (fun hks => (hks.passes fun _ => stopsAtClauses_endsFilter).sealed) hbare he
  exact ⟨f, htext, hkinds⟩

theorem IsClause.exists_loop {g : Generator} (h : IsClause g) : ∃ l : Loop, l.generator = g := by
  obtain ⟨s, hs, hoperand, hrange⟩ := h.source
  obtain ⟨f, htext, hkinds⟩ := hoperand.exists_fragment
  obtain ⟨fs, hfs⟩ := exists_map_eq fun c hc =>
    have ⟨f, hf, _⟩ := (h.filters c hc).exists_fragment
    ⟨f, hf⟩
  refine ⟨⟨g.var, h.var, .text f (hkinds ▸ hrange), fs⟩, ?_⟩
  rw [Loop.generator, hfs, Iterable.values, htext, ← hs]

/-- Expressions put together in any of these ways make a comprehension, which is read as made of
just these expressions. -/
theorem parse_eq_of_expressions {E K V : String} {gs : List Generator} (hE : IsExpression E)
    (hK : IsExpression K) (hV : IsExpression V) (hgs : ∀ g ∈ gs, IsClause g) (hne : gs ≠ [])
    (hvars : (gs.map (·.var)).Nodup) {r : Reducer} {callee : String}
    (hcallee : callee = r.name ∨ r = .prod ∧ callee = "math.prod") :
    let clauses := String.join (gs.map Generator.written)
    parse ("[" ++ E ++ clauses ++ "]") =
        .ok { ofElement .list E gs with provenance := origin "list_comp" } ∧
      parse ("(" ++ E ++ clauses ++ ")") =
        .ok { ofElement .generator E gs with provenance := origin "genexp" } ∧
      parse ("\x7b" ++ E ++ clauses ++ "\x7d") =
        .ok { ofElement .set E gs with provenance := origin "set_comp" } ∧
      parse ("\x7b" ++ K ++ ": " ++ V ++ clauses ++ "\x7d") =
        .ok { ofPair K V gs with provenance := origin "dict_comp" } ∧
      parse (callee ++ "(" ++ E ++ clauses ++ ")") =
        .ok { ofReducer r E gs with provenance := origin ("call_" ++ r.name) } ∧
      parse (callee ++ "([" ++ E ++ clauses ++ "])") =
        .ok { ofElement .list E gs with
          reduction := some { reducer := r }
          provenance := origin ("call_" ++ r.name) } := by
  obtain ⟨L, rfl⟩ := exists_loops (fun g hg => (hgs g hg).exists_loop) hne hvars
  obtain ⟨f, rfl, -⟩ := hE.exists_fragment stopsAtLoops_isFor
  obtain ⟨fset, hfset, -⟩ := hE.exists_fragment stopsAtLoops_endsKey
  obtain ⟨fbare, hfbare, hnative⟩ := hE.exists_fragment stopsAtLoops_endsElement
  obtain ⟨key, rfl, -⟩ := hK.exists_fragment stopsAtLoops_endsKey
  obtain ⟨value, rfl, -⟩ := hV.exists_fragment stopsAtLoops_isFor
  obtain ⟨c, rfl⟩ : ∃ c : Callee r, c.written = callee := by
    rcases hcallee with rfl | ⟨rfl, rfl⟩
    · exact ⟨.plain r, rfl⟩
    · exact ⟨.math, rfl⟩
  have hL := L.text_pieces
  have hc := c.text_pieces
  refine ⟨?_, ?_, ?_, ?_, ?_, ?_⟩
  · refine (Statement.bracketed .list (.inl rfl) f L).parse_eq ?_
    simp [Statement.bracketed, enclosed, opener, closer, hL]
  · refine (Statement.bracketed .generator (.inr rfl) f L).parse_eq ?_
    simp [Statement.bracketed, enclosed, opener, closer, hL]
  · rw [← hfset]
    refine (Statement.set fset L).parse_eq ?_
    simp [Statement.set, enclosed, opener, closer, hL]
  · refine (Statement.dict key value L).parse_eq ?_
    simp [Statement.dict, pairPieces, enclosed, opener, closer, hL]
  · rw [← hfbare]
    refine (Statement.call c (.bare fbare hnative L)).parse_eq ?_
    simp [Statement.call, Argument.bare, enclosed, opener, closer, hL, hc]
  · refine (Statement.call c (.bracketed .list (.inl rfl) f L)).parse_eq ?_
    simp [Statement.call, Argument.bracketed, enclosed, opener, closer, hL, hc]

theorem parse_eq_of_expressions_prod :
    parse "math.prod(y[0] if x else -x for x in range(3) + z if x > 0 if x in ys for y in g(x,\n1))" =
      .ok { ofReducer .prod "y[0] if x else -x"
          [⟨"x", .text "range(3) + z", ["x > 0", "x in ys"]⟩, ⟨"y", .text "g(x,\n1)", []⟩] with
        provenance := origin "call_prod" } := by
  have hE : IsExpression "y[0] if x else -x" := ⟨by cbv, by cbv⟩
  have hx : IsClause ⟨"x", .text "range(3) + z", ["x > 0", "x in ys"]⟩ := by
    refine ⟨by cbv, ⟨_, rfl, ⟨by cbv, by cbv⟩, ?_⟩, ?_⟩
    · have hkinds : tokenKinds "range(3) + z" =
          [.ident "range", .lparen, .int 3, .rparen, .plus, .ident "z"] := by cbv
      rintro ⟨args, close, hcall, hclose, -⟩
      have hlast := congrArg List.reverse hcall
      simp only [hkinds, List.reverse_cons, List.reverse_append, List.reverse_nil, List.nil_append,
        List.cons_append, List.cons.injEq] at hlast
      simp [← hlast.1, TokenKind.isClosing] at hclose
    · simp only [List.mem_cons, List.not_mem_nil, or_false, forall_eq_or_imp, forall_eq]
      exact ⟨⟨by cbv, by cbv⟩, ⟨by cbv, by cbv⟩⟩
  have hy : IsClause ⟨"y", .text "g(x,\n1)", []⟩ := by
    refine ⟨by cbv, ⟨_, rfl, ⟨by cbv, by cbv⟩, ?_⟩, by simp⟩
    have hkinds : (tokenKinds "g(x,\n1)").head? = some (.ident "g") := by cbv
    rintro ⟨args, close, hcall, -, -⟩
    simp [hcall] at hkinds
  have hgs : ∀ g ∈ [⟨"x", .text "range(3) + z", ["x > 0", "x in ys"]⟩,
      ⟨"y", .text "g(x,\n1)", []⟩], IsClause g := by simp [hx, hy]
  have hcallee : "math.prod" = Reducer.prod.name ∨ Reducer.prod = .prod ∧
      "math.prod" = "math.prod" := .inr ⟨rfl, rfl⟩
  have hparse := (parse_eq_of_expressions hE hE hE hgs (by simp) (by decide) hcallee).2.2.2.2.1
  have htext :
      "math.prod(y[0] if x else -x for x in range(3) + z if x > 0 if x in ys for y in g(x,\n1))" =
      "math.prod" ++ "(" ++ "y[0] if x else -x" ++
        String.join ([⟨"x", .text "range(3) + z", ["x > 0", "x in ys"]⟩,
          ⟨"y", .text "g(x,\n1)", []⟩].map Generator.written) ++ ")" := by cbv
  rw [htext]
  exact hparse

end Comprehension

end Comprehend
