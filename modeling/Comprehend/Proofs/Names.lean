import Comprehend.Proofs.Operands
import Comprehend.Proofs.Spelling

/-! Names in expressions. Whatever was read as a name or a field is a name of the source. -/
namespace Comprehend

namespace Grammar

/-- The names of the tree come from the tokens. -/
def Worded (ks : List TokenKind) (e : Expr) : Prop :=
  ∀ n ∈ e.words, .ident n ∈ ks

section Worded

variable {ks ls : List TokenKind} {k : TokenKind} {e : Expr}

theorem Worded.mono (h : Worded ks e) (hsub : ks ⊆ ls) : Worded ls e :=
  fun n hn => hsub (h n hn)

theorem Worded.left (h : Worded ks e) : Worded (ks ++ ls) e :=
  h.mono (List.subset_append_left ks ls)

theorem Worded.right (h : Worded ls e) : Worded (ks ++ ls) e :=
  h.mono (List.subset_append_right ks ls)

theorem Worded.behind (h : Worded ks e) : Worded (k :: ks) e :=
  h.mono (List.subset_cons_self k ks)

/-- The words of a node with two operands. -/
theorem Worded.both {l r : Expr} (hl : Worded ks l) (hr : Worded ks r)
    (he : e.words = l.words ++ r.words) : Worded ks e := by
  intro n hn
  rw [he, List.mem_append] at hn
  exact hn.elim (hl n) (hr n)

/-- The words of a node with any number of operands. -/
theorem Worded.all {es : List Expr} (hes : ∀ d ∈ es, Worded ks d)
    (he : e.words = Expr.allWords es) : Worded ks e := by
  intro n hn
  rw [he, Expr.allWords_eq, List.mem_flatMap] at hn
  obtain ⟨d, hd, hn⟩ := hn
  exact hes d hd n hn

end Worded

mutual

theorem Expression.worded {ks : List TokenKind} {e : Expr} : Expression ks e → Worded ks e
  | .plain h => h.worded
  | .conditional h g f => by
    intro n hn
    rw [Expr.words, List.mem_append, List.mem_append] at hn
    rcases hn with (hn | hn) | hn
    · exact g.worded.left.behind.right n hn
    · exact h.worded.left n hn
    · exact f.worded.behind.right.behind.right n hn

theorem Disjunction.worded {ks : List TokenKind} {e : Expr} : Disjunction ks e → Worded ks e
  | .one h => h.worded
  | .more h g => h.worded.left.both g.worded.behind.right rfl

theorem Conjunction.worded {ks : List TokenKind} {e : Expr} : Conjunction ks e → Worded ks e
  | .one h => h.worded
  | .more h g => h.worded.left.both g.worded.behind.right rfl

theorem Negation.worded {ks : List TokenKind} {e : Expr} : Negation ks e → Worded ks e
  | .plain h => h.worded
  | .not h => h.worded.behind

theorem Comparison.worded {ks : List TokenKind} {e : Expr} : Comparison ks e → Worded ks e
  | .plain h => h.worded
  | .chain h => h.worded.1

theorem Chain.worded {ks : List TokenKind} {e last : Expr} :
    Chain ks e last → Worded ks e ∧ Worded ks last
  | .link h _ g => ⟨h.worded.left.both g.worded.right.right rfl, g.worded.right.right⟩
  | .more h _ g =>
    ⟨h.worded.1.left.both (h.worded.2.left.both g.worded.right.right rfl) rfl,
      g.worded.right.right⟩

theorem Ladder.worded {n : Nat} {ks : List TokenKind} {e : Expr} : Ladder n ks e → Worded ks e
  | .sign h => h.worded
  | .tighter h => h.worded
  | .binary h _ g => h.worded.left.both g.worded.behind.right rfl

theorem Sign.worded {ks : List TokenKind} {e : Expr} : Sign ks e → Worded ks e
  | .power h => h.worded
  | .fold _ _ => fun _ hn => nomatch hn
  | .minus h _ | .plus h | .tilde h => h.worded.behind

theorem Power.worded {ks : List TokenKind} {e : Expr} : Power ks e → Worded ks e
  | .plain h => h.worded
  | .power h g => h.worded.left.both g.worded.behind.right rfl

theorem Trailer.worded {ks : List TokenKind} {e : Expr} : Trailer ks e → Worded ks e
  | .primary h => h.worded
  | .call h g => by
    intro n hn
    rw [Expr.words, Expr.allWords_eq, List.mem_append, List.mem_flatMap] at hn
    rcases hn with hn | ⟨d, hd, hn⟩
    · exact h.worded.left n hn
    · exact (g.worded d hd).left.behind.right n hn
  | .member h => by
    intro n hn
    rw [Expr.words, List.mem_append, List.mem_singleton] at hn
    rcases hn with hn | rfl
    · exact h.worded.left n hn
    · simp
  | .subscript h g => h.worded.left.both g.worded.left.behind.right rfl

theorem Primary.worded {ks : List TokenKind} {e : Expr} : Primary ks e → Worded ks e
  | .name n => fun m hm => by
    rw [Expr.words, List.mem_singleton] at hm
    rw [hm]
    exact List.mem_singleton_self _
  | .int _ | .float _ | .str _ | .yes | .no | .nothing => fun _ hn => nomatch hn
  | .group h => (h.worded _ List.mem_cons_self).left.behind
  | .tuple h _ => Worded.all (fun d hd => (h.worded d hd).left.behind) rfl
  | .list h => Worded.all (fun d hd => (h.worded d hd).left.behind) rfl

theorem Items.worded {ks : List TokenKind} {es : List Expr} {comma : Bool} :
    Items ks es comma → ∀ e ∈ es, Worded ks e
  | .empty => fun _ he => nomatch he
  | .series h => h.worded

theorem Series.worded {ks : List TokenKind} {es : List Expr} {comma : Bool} :
    Series ks es comma → ∀ e ∈ es, Worded ks e
  | .last h => List.forall_mem_singleton.mpr h.worded
  | .comma h => List.forall_mem_singleton.mpr h.worded.left
  | .more h g => List.forall_mem_cons.mpr ⟨h.worded.left, fun d hd => (g.worded d hd).behind.right⟩

end

end Grammar

open Comprehend.Expr Grammar Token

/-- The names and the fields of an expression that was read from a text are names. -/
theorem isName_of_parse {t : String} {e : Expr} (h : Expr.parse t = .ok e) :
    ∀ n ∈ e.words, isName n = true := by
  cases hscan : scan t.toList with
  | error fault => simp [Expr.parse, hscan] at h
  | ok ts =>
    obtain ⟨qs, htext, htiles, -⟩ := scan_eq_ok_iff.mp hscan
    have hphrase := (recognizes_expression.parseWith_tiles htiles htext.symm e).mp h
    intro n hn
    exact htiles.isName_of_mem (List.mem_filter.mp (hphrase.worded n hn)).1

end Comprehend
