import Mathlib
import Comprehend.Proofs.ExpressionText

/-! Conditionals in texts and in trees. A tree is conditional if the text has one of the words `if`,
`else`, `and` and `or`, wherever in brackets that stands. Without such a word it is conditional only
for a chain of comparisons, which stands for the conjunction of its links. -/
namespace Comprehend

namespace Grammar

def isConditional : TokenKind → Bool
  | .kwIf | .kwElse | .kwAnd | .kwOr => true
  | _ => false

/-- One token of each comparison operator; what an operator may have besides is `not`. -/
def isComparison : TokenKind → Bool
  | .eqEq | .notEq | .lt | .gt | .ltEq | .gtEq | .kwIn | .kwIs => true
  | _ => false

/-- Somewhere in the tokens, the right operand of a comparison is the left one of another. -/
def HoldsChain (ks : List TokenKind) : Prop :=
  ∃ ls v ms w ns a op b op' c, Ladder 0 ls a ∧ (v, op) ∈ comparisons ∧ Ladder 0 ms b ∧
    (w, op') ∈ comparisons ∧ Ladder 0 ns c ∧ ls ++ (v ++ (ms ++ (w ++ ns))) <:+: ks

theorem HoldsChain.mono {ks ls : List TokenKind} (h : HoldsChain ks) (hsub : ks <:+: ls) :
    HoldsChain ls := by
  obtain ⟨xs, v, ms, w, ns, a, op, b, op', c, ha, hv, hb, hw, hc, hinfix⟩ := h
  exact ⟨xs, v, ms, w, ns, a, op, b, op', c, ha, hv, hb, hw, hc, hinfix.trans hsub⟩

theorem comparison_facts {w : List TokenKind} {op : CmpOp} (h : (w, op) ∈ comparisons) :
    w.any isConditional = false ∧ w.countP isComparison = 1 := by
  simp only [comparisons, List.mem_cons, Prod.mk.injEq, List.not_mem_nil, or_false] at h
  rcases h with h | h | h | h | h | h | h | h | h | h <;> obtain ⟨rfl, -⟩ := h <;> decide

/-- A chain has two comparison operators at least. -/
theorem HoldsChain.two_le {ks : List TokenKind} (h : HoldsChain ks) :
    2 ≤ ks.countP isComparison := by
  obtain ⟨ls, v, ms, w, ns, a, op, b, op', c, -, hv, -, hw, -, hinfix⟩ := h
  have hle := hinfix.sublist.countP_le (p := isComparison)
  simp only [List.countP_append, (comparison_facts hv).2, (comparison_facts hw).2] at hle
  omega

/-! Trees that tell of their tokens -/

/-- A tree over the tokens is conditional, as far as the tokens give reason to that. -/
structure Tells (ks : List TokenKind) (conditional : Bool) : Prop where
  of_word : ks.any isConditional = true → conditional = true
  word_or_chain : conditional = true → ks.any isConditional = true ∨ HoldsChain ks

theorem tells_plain {ks : List TokenKind} (h : ks.any isConditional = false) : Tells ks false :=
  ⟨fun hword => absurd (hword.symm.trans h) (by simp), fun hfalse => absurd hfalse (by simp)⟩

theorem tells_word {ks : List TokenKind} {k : TokenKind} (hk : isConditional k = true)
    (hmem : k ∈ ks) : Tells ks true :=
  ⟨fun _ => rfl, fun _ => .inl (List.any_eq_true.mpr ⟨k, hmem, hk⟩)⟩

theorem tells_chain {ks : List TokenKind} (h : HoldsChain ks) : Tells ks true :=
  ⟨fun _ => rfl, fun _ => .inr h⟩

theorem Tells.append {ks ls : List TokenKind} {a b : Bool} (hks : Tells ks a) (hls : Tells ls b) :
    Tells (ks ++ ls) (a || b) := by
  constructor
  · rw [List.any_append, Bool.or_eq_true, Bool.or_eq_true]
    exact Or.imp hks.of_word hls.of_word
  · rw [List.any_append, Bool.or_eq_true, Bool.or_eq_true]
    rintro (ha | hb)
    · rcases hks.word_or_chain ha with hword | hchain
      · exact .inl (.inl hword)
      · exact .inr (hchain.mono (List.prefix_append ks ls).isInfix)
    · rcases hls.word_or_chain hb with hword | hchain
      · exact .inl (.inr hword)
      · exact .inr (hchain.mono (List.suffix_append ks ls).isInfix)

theorem Tells.behind {ks ls : List TokenKind} {b : Bool} (hls : Tells ls b)
    (hks : ks.any isConditional = false) : Tells (ks ++ ls) b := by
  simpa using (tells_plain hks).append hls

theorem Tells.before {ks ls : List TokenKind} {b : Bool} (hks : Tells ks b)
    (hls : ls.any isConditional = false) : Tells (ks ++ ls) b := by
  simpa using hks.append (tells_plain hls)

/-- A token that is no such word may stand in front. -/
theorem Tells.cons {ks : List TokenKind} {b : Bool} (hks : Tells ks b) {k : TokenKind}
    (hk : isConditional k = false) : Tells (k :: ks) b := by
  have hsingle : [k].any isConditional = false := by simp [hk]
  exact hks.behind hsingle

theorem rung_facts {n : Nat} {k : TokenKind} {op : BinOp} (h : (k, op) ∈ rung n) :
    isConditional k = false := by
  unfold rung at h
  split at h <;> grind [isConditional]

/-- The last operand of a chain stands at its end. -/
theorem Chain.last_operand {ks : List TokenKind} {e l : Expr} (h : Chain ks e l) :
    ∃ ls ms, ks = ls ++ ms ∧ Ladder 0 ms l := by
  cases h with
  | link _ _ g | more _ _ g => exact ⟨_, _, (List.append_assoc ..).symm, g⟩

/-- A chain that goes on holds two comparisons with an operand in common. -/
theorem holdsChain_more {ks w ls : List TokenKind} {e l r : Expr} {op : CmpOp} (h : Chain ks e l)
    (hw : (w, op) ∈ comparisons) (g : Ladder 0 ls r) : HoldsChain (ks ++ (w ++ ls)) := by
  cases h with
  | link hx hv hy =>
    exact ⟨_, _, _, _, _, _, _, _, _, _, hx, hv, hy, hw, g, by simp [List.append_assoc]⟩
  | more hchain hv hy =>
    -- Only the last link counts: its left operand is the last one of the chain before it.
    obtain ⟨xs, ms, rfl, hx⟩ := hchain.last_operand
    refine ⟨_, _, _, _, _, _, _, _, _, _, hx, hv, hy, hw, g, ?_⟩
    exact ⟨xs, [], by simp⟩

mutual

theorem Expression.tells {ks : List TokenKind} {e : Expr} :
    Expression ks e → Tells ks e.hasConditional
  | .plain h => h.tells
  | .conditional _ _ _ => tells_word (k := .kwIf) rfl (by simp)

theorem Disjunction.tells {ks : List TokenKind} {e : Expr} :
    Disjunction ks e → Tells ks e.hasConditional
  | .one h => h.tells
  | .more _ _ => tells_word (k := .kwOr) rfl (by simp)

theorem Conjunction.tells {ks : List TokenKind} {e : Expr} :
    Conjunction ks e → Tells ks e.hasConditional
  | .one h => h.tells
  | .more _ _ => tells_word (k := .kwAnd) rfl (by simp)

theorem Negation.tells {ks : List TokenKind} {e : Expr} :
    Negation ks e → Tells ks e.hasConditional
  | .plain h => h.tells
  | .not h => h.tells.cons rfl

theorem Comparison.tells {ks : List TokenKind} {e : Expr} :
    Comparison ks e → Tells ks e.hasConditional
  | .plain h => h.tells
  | .chain h => h.tells

theorem Chain.tells {ks : List TokenKind} {e l : Expr} : Chain ks e l → Tells ks e.hasConditional
  | .link h hw g => h.tells.append (g.tells.behind (comparison_facts hw).1)
  | .more h hw g => tells_chain (holdsChain_more h hw g)

theorem Ladder.tells {n : Nat} {ks : List TokenKind} {e : Expr} :
    Ladder n ks e → Tells ks e.hasConditional
  | .sign h => h.tells
  | .tighter h => h.tells
  | .binary h hk g => h.tells.append (g.tells.cons (rung_facts hk))

theorem Sign.tells {ks : List TokenKind} {e : Expr} : Sign ks e → Tells ks e.hasConditional
  | .power h => h.tells
  | .fold h _ => h.tells.cons rfl
  | .minus h _ | .plus h | .tilde h => h.tells.cons rfl

theorem Power.tells {ks : List TokenKind} {e : Expr} : Power ks e → Tells ks e.hasConditional
  | .plain h => h.tells
  | .power h g => h.tells.append (g.tells.cons rfl)

theorem Trailer.tells {ks : List TokenKind} {e : Expr} : Trailer ks e → Tells ks e.hasConditional
  | .primary h => h.tells
  | .call h g => h.tells.append ((g.tells.before rfl).cons rfl)
  | .member h => h.tells.before rfl
  | .subscript h g => h.tells.append ((g.tells.before rfl).cons rfl)

theorem Primary.tells {ks : List TokenKind} {e : Expr} : Primary ks e → Tells ks e.hasConditional
  | .int _ | .float _ | .str _ | .yes | .no | .nothing | .name _ => tells_plain rfl
  | .group h => by
    have hgroup := h.tells
    simp only [Expr.anyConditional, Bool.or_false] at hgroup
    exact (hgroup.before rfl).cons rfl
  | .tuple h _ => (h.tells.before rfl).cons rfl
  | .list h => (h.tells.before rfl).cons rfl

theorem Items.tells {ks : List TokenKind} {es : List Expr} {comma : Bool} :
    Items ks es comma → Tells ks (Expr.anyConditional es)
  | .empty => tells_plain rfl
  | .series h => h.tells

theorem Series.tells {ks : List TokenKind} {es : List Expr} {comma : Bool} :
    Series ks es comma → Tells ks (Expr.anyConditional es)
  | .last h => by simpa [Expr.anyConditional] using h.tells
  | .comma h => by
    simp only [Expr.anyConditional, Bool.or_false]
    exact h.tells.before rfl
  | .more h g => h.tells.append (g.tells.cons rfl)

end

end Grammar

namespace Expr

open Parse Token Grammar

/-- The tokens of a text tell whether its tree is conditional. -/
theorem tells_of_parse {text : String} {e : Expr} (h : parse text = .ok e) :
    ∃ ts, scan text.toList = .ok ts ∧
      Tells ((kinds ts).filter (· != .newline)) e.hasConditional := by
  cases hscan : scan text.toList with
  | error fault => simp [parse, hscan] at h
  | ok ts =>
    obtain ⟨qs, htext, htiles, rfl⟩ := scan_eq_ok_iff.mp hscan
    have hphrase := (recognizes_expression.parseWith_tiles htiles htext.symm e).mp h
    refine ⟨_, rfl, ?_⟩
    rw [kinds_append, Piece.kinds_tokens, List.filter_append]
    exact hphrase.tells.before rfl

/-- A word of a conditional, wherever it stands in a text, makes the tree conditional. A tree that
is conditional without such a word comes from a chain of comparisons. -/
theorem hasConditional_of_parse {text : String} {e : Expr} (h : parse text = .ok e) :
    ∃ ts, scan text.toList = .ok ts ∧
      (∀ t ∈ ts, isConditional t.kind = true → e.hasConditional = true) ∧
      (e.hasConditional = true → (∀ t ∈ ts, isConditional t.kind = false) →
        2 ≤ (kinds ts).countP isComparison ∧
          HoldsChain ((kinds ts).filter (· != .newline))) := by
  obtain ⟨ts, hscan, htells⟩ := tells_of_parse h
  refine ⟨ts, hscan, fun t ht hword => ?_, fun htrue hnone => ?_⟩
  · refine htells.of_word (List.any_eq_true.mpr ⟨t.kind, List.mem_filter.mpr ⟨?_, ?_⟩, hword⟩)
    · exact List.mem_map_of_mem ht
    · cases hk : t.kind <;> simp_all [isConditional]
  · have hchain : HoldsChain ((kinds ts).filter (· != .newline)) := by
      refine (htells.word_or_chain htrue).resolve_left fun hword => ?_
      obtain ⟨k, hk, hword⟩ := List.any_eq_true.mp hword
      obtain ⟨t, ht, rfl⟩ := List.mem_map.mp (List.mem_filter.mp hk).1
      simp [hnone t ht] at hword
    exact ⟨Nat.le_trans hchain.two_le List.filter_sublist.countP_le, hchain⟩

theorem hasConditional_of_parse_chain :
    parse "f(xs[a <= b not in c])" = .ok (.call (.name "f") [.subscript (.name "xs")
        (.boolOp .and (.compare (.name "a") .ltEq (.name "b"))
          (.compare (.name "b") .notIn (.name "c")))]) ∧
      ∃ ts, scan "f(xs[a <= b not in c])".toList = .ok ts ∧
        (∀ t ∈ ts, isConditional t.kind = false) ∧ 2 ≤ (kinds ts).countP isComparison := by
  have hparse : parse "f(xs[a <= b not in c])" = .ok (.call (.name "f") [.subscript (.name "xs")
      (.boolOp .and (.compare (.name "a") .ltEq (.name "b"))
        (.compare (.name "b") .notIn (.name "c")))]) := by cbv
  obtain ⟨ts, hscan, -, hchain⟩ := hasConditional_of_parse hparse
  have hwords : (scan "f(xs[a <= b not in c])".toList).map
      (·.all fun t => !isConditional t.kind) = .ok true := by cbv
  rw [hscan] at hwords
  have hnone : ∀ t ∈ ts, isConditional t.kind = false := by
    simpa [Except.map] using hwords
  exact ⟨hparse, ts, hscan, hnone, (hchain (by decide) hnone).1⟩

end Expr

end Comprehend
