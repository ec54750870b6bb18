import Mathlib
import Comprehend.Proofs.ExpressionText

/-! Names in texts and in trees. A tree mentions a name if and only if the name stands in the text
without a dot before it: behind a dot it is a field. Neither the folding of signs nor the chains of
comparisons, which give an operand to two nodes, lose or add a name. -/
namespace Comprehend

namespace Grammar

/-- The name stands among the tokens, and the token before it, if there is one, is no dot. -/
def OccursFree (n : String) (ks : List TokenKind) : Prop :=
  ∃ ls ms, ks = ls ++ .ident n :: ms ∧ ls.getLast? ≠ some .dot

def isNameless : TokenKind → Bool
  | .ident _ | .dot => false
  | _ => true

section OccursFree

variable {n : String} {ks ls : List TokenKind}

theorem not_occursFree_of_isNameless (h : ks.all isNameless = true) : ¬OccursFree n ks := by
  rintro ⟨xs, ys, rfl, -⟩
  simp [isNameless] at h

theorem OccursFree.left (h : OccursFree n ks) : OccursFree n (ks ++ ls) := by
  obtain ⟨xs, ys, rfl, hdot⟩ := h
  exact ⟨xs, ys ++ ls, by simp, hdot⟩

/-- What stands before tokens is seen by the first of them only. -/
theorem OccursFree.right (h : OccursFree n ls) (hks : ks.getLast? ≠ some .dot) :
    OccursFree n (ks ++ ls) := by
  obtain ⟨xs, ys, rfl, hdot⟩ := h
  refine ⟨ks ++ xs, ys, (List.append_assoc ..).symm, ?_⟩
  rw [List.getLast?_append]
  cases hlast : xs.getLast? with
  | none => exact hks
  | some k => rwa [hlast] at hdot

theorem occursFree_append (hks : ks.getLast? ≠ some .dot) :
    OccursFree n (ks ++ ls) ↔ OccursFree n ks ∨ OccursFree n ls := by
  constructor
  · rintro ⟨xs, ys, heq, hdot⟩
    rcases List.append_eq_append_iff.mp heq with ⟨as, rfl, hls⟩ | ⟨as, rfl, hys⟩
    · refine .inr ⟨as, ys, hls, fun hlast => hdot ?_⟩
      rw [List.getLast?_append, hlast, Option.some_or]
    · cases as with
      | nil => exact .inr ⟨[], ys, hys.symm, by simp⟩
      | cons k as =>
        obtain ⟨rfl, -⟩ := List.cons.inj hys
        exact .inl ⟨xs, as, rfl, hdot⟩
  · rintro (h | h)
    · exact h.left
    · exact h.right hks

theorem not_occursFree_field (field : String) : ¬OccursFree n [.dot, .ident field] := by
  rintro ⟨xs, ys, heq, hdot⟩
  rcases xs with _ | ⟨k, _ | ⟨k', xs⟩⟩
  · simp at heq
  · simp only [List.cons_append, List.nil_append, List.cons.injEq] at heq
    exact hdot (congrArg some heq.1.symm)
  · simp at heq

end OccursFree

/-! Trees that keep the names of their tokens -/

/-- The tokens name `n` just in case the tree over them mentions it, and a field is not left
open at their end. -/
structure Keeps (n : String) (ks : List TokenKind) (mentioned : Bool) : Prop where
  iff : mentioned = true ↔ OccursFree n ks
  closed : ks.getLast? ≠ some .dot

section Keeps

variable {n : String} {ks ls : List TokenKind} {a b : Bool}

theorem keeps_nameless (h : ks.all isNameless = true) : Keeps n ks false := by
  refine ⟨iff_of_false Bool.false_ne_true (not_occursFree_of_isNameless h), fun hlast => ?_⟩
  have hdot := List.all_eq_true.mp h _ (List.mem_of_getLast? hlast)
  cases hdot

theorem keeps_name (m : String) : Keeps n [.ident m] (m == n) := by
  refine ⟨?_, by simp⟩
  rw [beq_iff_eq]
  constructor
  · rintro rfl
    exact ⟨[], [], rfl, by simp⟩
  · rintro ⟨xs, ys, heq, -⟩
    have hmem : .ident n ∈ [TokenKind.ident m] := by simp [heq]
    exact (TokenKind.ident.inj (List.mem_singleton.mp hmem)).symm

theorem keeps_field (field : String) : Keeps n [.dot, .ident field] false :=
  ⟨iff_of_false Bool.false_ne_true (not_occursFree_field field), by simp⟩

theorem Keeps.append (hks : Keeps n ks a) (hls : Keeps n ls b) : Keeps n (ks ++ ls) (a || b) := by
  refine ⟨?_, ?_⟩
  · rw [occursFree_append hks.closed, Bool.or_eq_true, hks.iff, hls.iff]
  · rw [List.getLast?_append]
    cases hlast : ls.getLast? with
    | none => exact hks.closed
    | some k =>
      rw [Option.some_or, ← hlast]
      exact hls.closed

/-- Tokens that are no names may stand in front. -/
theorem Keeps.behind (hls : Keeps n ls b) (hks : ks.all isNameless = true) :
    Keeps n (ks ++ ls) b := by
  simpa using (keeps_nameless hks).append hls

theorem Keeps.before (hks : Keeps n ks b) (hls : ls.all isNameless = true) :
    Keeps n (ks ++ ls) b := by
  simpa using hks.append (keeps_nameless hls)

theorem Keeps.cons (hks : Keeps n ks b) {k : TokenKind} (hk : isNameless k = true) :
    Keeps n (k :: ks) b := by
  have hsingle : [k].all isNameless = true := by simp [hk]
  exact hks.behind hsingle

end Keeps

theorem comparison_nameless {w : List TokenKind} {op : CmpOp} (h : (w, op) ∈ comparisons) :
    w.all isNameless = true := by
  have hall : comparisons.all (·.1.all isNameless) = true := by decide
  exact List.all_eq_true.mp hall _ h

theorem rung_nameless {m : Nat} {k : TokenKind} {op : BinOp} (h : (k, op) ∈ rung m) :
    isNameless k = true := by
  unfold rung at h
  split at h <;> grind [isNameless]

/-- The last operand of a chain is an operand of its last comparison. -/
theorem Chain.mentions_last {n : String} {ks : List TokenKind} {e l : Expr} (h : Chain ks e l)
    (hl : l.mentions n = true) : e.mentions n = true := by
  cases h with
  | link => simp [Expr.mentions, hl]
  | more => simp [Expr.mentions, hl]

mutual

theorem Expression.keeps {n : String} {ks : List TokenKind} {e : Expr} :
    Expression ks e → Keeps n ks (e.mentions n)
  | .plain h => h.keeps
  | .conditional h g f => by
    -- The tokens give the body first, the tree the condition.
    rw [Expr.mentions, Bool.or_comm (Expr.mentions n _) (Expr.mentions n _), Bool.or_assoc]
    exact h.keeps.append ((g.keeps.append (f.keeps.cons rfl)).cons rfl)

theorem Disjunction.keeps {n : String} {ks : List TokenKind} {e : Expr} :
    Disjunction ks e → Keeps n ks (e.mentions n)
  | .one h => h.keeps
  | .more h g => h.keeps.append (g.keeps.cons rfl)

theorem Conjunction.keeps {n : String} {ks : List TokenKind} {e : Expr} :
    Conjunction ks e → Keeps n ks (e.mentions n)
  | .one h => h.keeps
  | .more h g => h.keeps.append (g.keeps.cons rfl)

theorem Negation.keeps {n : String} {ks : List TokenKind} {e : Expr} :
    Negation ks e → Keeps n ks (e.mentions n)
  | .plain h => h.keeps
  | .not h => h.keeps.cons rfl

theorem Comparison.keeps {n : String} {ks : List TokenKind} {e : Expr} :
    Comparison ks e → Keeps n ks (e.mentions n)
  | .plain h => h.keeps
  | .chain h => h.keeps

theorem Chain.keeps {n : String} {ks : List TokenKind} {e l : Expr} :
    Chain ks e l → Keeps n ks (e.mentions n)
  | .link h hw g => h.keeps.append (g.keeps.behind (comparison_nameless hw))
  | .more (e := e) (l := l) (r := r) h hw g => by
    -- The operand that the new comparison shares with the chain stands in the tokens once.
    have hshared : (e.mentions n || (l.mentions n || r.mentions n)) =
        (e.mentions n || r.mentions n) := by
      cases hl : l.mentions n with
      | false => simp
      | true => simp [h.mentions_last hl]
    rw [Expr.mentions, Expr.mentions, hshared]
    exact h.keeps.append (g.keeps.behind (comparison_nameless hw))

theorem Ladder.keeps {n : String} {m : Nat} {ks : List TokenKind} {e : Expr} :
    Ladder m ks e → Keeps n ks (e.mentions n)
  | .sign h => h.keeps
  | .tighter h => h.keeps
  | .binary h hk g => h.keeps.append (g.keeps.cons (rung_nameless hk))

theorem Sign.keeps {n : String} {ks : List TokenKind} {e : Expr} :
    Sign ks e → Keeps n ks (e.mentions n)
  | .power h => h.keeps
  | .fold h _ => h.keeps.cons rfl
  | .minus h _ | .plus h | .tilde h => h.keeps.cons rfl

theorem Power.keeps {n : String} {ks : List TokenKind} {e : Expr} :
    Power ks e → Keeps n ks (e.mentions n)
  | .plain h => h.keeps
  | .power h g => h.keeps.append (g.keeps.cons rfl)

theorem Trailer.keeps {n : String} {ks : List TokenKind} {e : Expr} :
    Trailer ks e → Keeps n ks (e.mentions n)
  | .primary h => h.keeps
  | .call h g => h.keeps.append ((g.keeps.before rfl).cons rfl)
  | .member h => by
    rw [Expr.mentions, ← Bool.or_false (Expr.mentions n _)]
    exact h.keeps.append (keeps_field _)
  | .subscript h g => h.keeps.append ((g.keeps.before rfl).cons rfl)

theorem Primary.keeps {n : String} {ks : List TokenKind} {e : Expr} :
    Primary ks e → Keeps n ks (e.mentions n)
  | .int _ | .float _ | .str _ | .yes | .no | .nothing => keeps_nameless rfl
  | .name m => keeps_name m
  | .group h => by
    have hgroup := h.keeps (n := n)
    simp only [Expr.anyMentions, Bool.or_false] at hgroup
    exact (hgroup.before rfl).cons rfl
  | .tuple h _ => (h.keeps.before rfl).cons rfl
  | .list h => (h.keeps.before rfl).cons rfl

theorem Items.keeps {n : String} {ks : List TokenKind} {es : List Expr} {comma : Bool} :
    Items ks es comma → Keeps n ks (Expr.anyMentions n es)
  | .empty => keeps_nameless rfl
  | .series h => h.keeps

theorem Series.keeps {n : String} {ks : List TokenKind} {es : List Expr} {comma : Bool} :
    Series ks es comma → Keeps n ks (Expr.anyMentions n es)
  | .last h => by simpa [Expr.anyMentions] using h.keeps
  | .comma h => by
    simp only [Expr.anyMentions, Bool.or_false]
    exact h.keeps.before rfl
  | .more h g => h.keeps.append (g.keeps.cons rfl)

end

end Grammar

namespace Expr

open Parse Token Grammar

/-- The tree of a text mentions just the names that stand in the text without a dot before them,
line feeds left out. -/
theorem mentions_of_parse {text : String} {e : Expr} (h : parse text = .ok e) :
    ∃ ts, scan text.toList = .ok ts ∧
      ∀ n, e.mentions n = true ↔ OccursFree n ((kinds ts).filter (· != .newline)) := by
  cases hscan : scan text.toList with
  | error fault => simp [parse, hscan] at h
  | ok ts =>
    obtain ⟨qs, htext, htiles, rfl⟩ := scan_eq_ok_iff.mp hscan
    have hphrase := (recognizes_expression.parseWith_tiles htiles htext.symm e).mp h
    refine ⟨_, rfl, fun n => ?_⟩
    rw [kinds_append, Piece.kinds_tokens, List.filter_append]
    exact (hphrase.keeps.before rfl).iff

/-- A line feed between a dot and a field makes no name of the field. -/
theorem mentions_of_parse_lines :
    parse "a.\nx < y.b < -5" = .ok (.boolOp .and
        (.compare (.member (.name "a") "x") .lt (.member (.name "y") "b"))
        (.compare (.member (.name "y") "b") .lt (.const (.int (-5))))) ∧
      ∃ ts, scan "a.\nx < y.b < -5".toList = .ok ts ∧
        OccursFree "y" ((kinds ts).filter (· != .newline)) ∧
        ¬OccursFree "x" ((kinds ts).filter (· != .newline)) := by
  have hparse : parse "a.\nx < y.b < -5" = .ok (.boolOp .and
      (.compare (.member (.name "a") "x") .lt (.member (.name "y") "b"))
      (.compare (.member (.name "y") "b") .lt (.const (.int (-5))))) := by cbv
  obtain ⟨ts, hscan, hnames⟩ := mentions_of_parse hparse
  refine ⟨hparse, ts, hscan, (hnames "y").mp (by decide), fun hfield => ?_⟩
  exact absurd ((hnames "x").mpr hfield) (by decide)

end Expr

end Comprehend
