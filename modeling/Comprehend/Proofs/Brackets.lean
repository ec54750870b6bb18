import Comprehend.Comprehension.Parser
import Comprehend.Proofs.Phrases

/-! Tokens outside brackets. A run of tokens is sealed if a search for its end runs through it: its
brackets are closed, and what stands outside them ends no run. The phrases of expressions are sealed
against the words of comprehensions. -/
namespace Comprehend

namespace Comprehension

def endsRun (stop : TokenKind → Bool) (k : TokenKind) : Bool :=
  stop k || k.isClosing || isSeparator k

/-- From the given bracket depth on, no token ends a run and no bracket stays open. -/
def Sealed (stop : TokenKind → Bool) : Nat → List TokenKind → Prop
  | depth, [] => depth = 0
  | depth, k :: ks =>
    k ≠ .eof ∧ (depth = 0 → endsRun stop k = false) ∧ Sealed stop (k.depthAfter depth) ks

variable {stop : TokenKind → Bool} {low : Nat} {ks ls : List TokenKind} {k : TokenKind}

/-- Tokens put in front of sealed ones, at the given depth or deeper, leave them sealed. -/
def Passes (stop : TokenKind → Bool) (low : Nat) (ks : List TokenKind) : Prop :=
  ∀ depth ls, low ≤ depth → Sealed stop depth ls → Sealed stop depth (ks ++ ls)

theorem Passes.sealed (h : Passes stop 0 ks) : Sealed stop 0 ks := by
  simpa using h 0 [] (Nat.le_refl 0) rfl

@[simp] theorem passes_nil : Passes stop low [] :=
  fun _ _ _ h => h

theorem Passes.append (h : Passes stop low ks) (g : Passes stop low ls) :
    Passes stop low (ks ++ ls) := by
  intro depth ms hdepth hms
  rw [List.append_assoc]
  exact h depth _ hdepth (g depth ms hdepth hms)

/-- The token is no bracket and does not mark the end. -/
def isInner (k : TokenKind) : Bool :=
  !k.isOpening && !k.isClosing && k != .eof

theorem passes_token (hk : isInner k = true) (hstop : low = 0 → endsRun stop k = false) :
    Passes stop low [k] := by
  intro depth ls hdepth hls
  simp only [isInner, Bool.and_eq_true, Bool.not_eq_true', bne_iff_ne] at hk
  obtain ⟨⟨hopen, hclose⟩, heof⟩ := hk
  refine ⟨heof, fun hzero => hstop (by omega), ?_⟩
  simpa [TokenKind.depthAfter, hopen, hclose] using hls

theorem Passes.cons (h : Passes stop low [k]) (g : Passes stop low ks) :
    Passes stop low (k :: ks) :=
  h.append g

theorem opening_facts (h : k.isOpening = true) :
    k ≠ .eof ∧ k.isClosing = false ∧ isSeparator k = false := by
  cases k <;> simp_all [TokenKind.isOpening, TokenKind.isClosing, isSeparator]

theorem closing_facts (h : k.isClosing = true) : k ≠ .eof ∧ k.isOpening = false := by
  cases k <;> simp_all [TokenKind.isOpening, TokenKind.isClosing]

/-- What stands in brackets may be anything that passes inside them. -/
theorem Passes.bracketed {opener closer : TokenKind} (hopen : opener.isOpening = true)
    (hclose : closer.isClosing = true) (hstop : low = 0 → stop opener = false)
    (h : Passes stop 1 ks) : Passes stop low (opener :: (ks ++ [closer])) := by
  intro depth ls hdepth hls
  obtain ⟨heof, hnot, hseparator⟩ := opening_facts hopen
  obtain ⟨heof', hnot'⟩ := closing_facts hclose
  refine ⟨heof, fun hzero => ?_, ?_⟩
  · simp [endsRun, hstop (by omega), hnot, hseparator]
  · simp only [List.append_eq, List.append_assoc, TokenKind.depthAfter, hopen, ↓reduceIte]
    refine h (depth + 1) ([closer] ++ ls) (by omega) ⟨heof', by omega, ?_⟩
    simpa [TokenKind.depthAfter, hclose, hnot'] using hls

/-- Words of comprehensions that stand in expressions inside brackets only. -/
def isLoopWord : TokenKind → Bool
  | .kwFor | .comma | .colon => true
  | _ => false

def StopsAtLoops (stop : TokenKind → Bool) : Prop :=
  ∀ k, stop k = true → isLoopWord k = true

def StopsAtClauses (stop : TokenKind → Bool) : Prop :=
  ∀ k, stop k = true → isLoopWord k = true ∨ k = .kwIf

theorem StopsAtLoops.clauses (h : StopsAtLoops stop) : StopsAtClauses stop :=
  fun k hk => .inl (h k hk)

theorem stopsAtLoops_isFor : StopsAtLoops isFor := by
  intro k hk
  simp_all [isFor, isLoopWord]

theorem stopsAtLoops_endsKey : StopsAtLoops endsKey := by
  intro k hk
  cases k <;> simp_all [endsKey, isLoopWord]

theorem stopsAtLoops_endsElement : StopsAtLoops endsElement := by
  intro k hk
  cases k <;> simp_all [endsElement, isLoopWord]

theorem stopsAtClauses_endsFilter : StopsAtClauses endsFilter := by
  intro k hk
  cases k <;> simp_all [endsFilter, isLoopWord]

/-- The token may stand anywhere in an expression. -/
def isPlain (k : TokenKind) : Bool :=
  isInner k && !isSeparator k && !isLoopWord k && k != .kwIf

theorem passes_plain (hk : isPlain k = true) (hstop : low = 0 → StopsAtClauses stop) :
    Passes stop low [k] := by
  simp only [isPlain, Bool.and_eq_true, Bool.not_eq_true', bne_iff_ne] at hk
  obtain ⟨⟨⟨hinner, hseparator⟩, hloop⟩, hif⟩ := hk
  refine passes_token hinner fun hlow => ?_
  have hno : stop k = false := by
    refine Bool.not_eq_true _ ▸ fun hk => ?_
    rcases hstop hlow k hk with h | h
    · simp [h] at hloop
    · exact hif h
  simp only [isInner, Bool.and_eq_true, Bool.not_eq_true'] at hinner
  simp [endsRun, hno, hinner, hseparator]

theorem passes_all (hks : ∀ k ∈ ks, isPlain k = true) (hstop : low = 0 → StopsAtClauses stop) :
    Passes stop low ks := by
  induction ks with
  | nil => exact passes_nil
  | cons k ks ih =>
    exact (passes_plain (hks k (by simp)) hstop).cons (ih fun l hl => hks l (by simp [hl]))

end Comprehension

namespace Grammar

open Comprehension

variable {stop : TokenKind → Bool} {low : Nat} {ks : List TokenKind}

theorem passes_if (hstop : low = 0 → StopsAtLoops stop) : Passes stop low [.kwIf] := by
  refine passes_token rfl fun hlow => ?_
  have hno : stop .kwIf = false := by
    refine Bool.not_eq_true _ ▸ fun h => ?_
    have := hstop hlow _ h
    simp [isLoopWord] at this
  simp [endsRun, hno, TokenKind.isClosing, isSeparator]

theorem passes_comma : Passes stop 1 [.comma] :=
  passes_token rfl (by omega)

theorem passes_brackets {opener closer : TokenKind} (hopen : opener.isOpening = true)
    (hclose : closer.isClosing = true) (hstop : low = 0 → StopsAtClauses stop)
    (h : Passes stop 1 ks) : Passes stop low (opener :: (ks ++ [closer])) := by
  refine h.bracketed hopen hclose fun hlow => Bool.not_eq_true _ ▸ fun hk => ?_
  rcases hstop hlow _ hk with h | h <;>
    cases opener <;> simp_all [TokenKind.isOpening, isLoopWord]

theorem passes_rung {n : Nat} {k : TokenKind} {op : BinOp} (h : (k, op) ∈ rung n)
    (hstop : low = 0 → StopsAtClauses stop) : Passes stop low [k] := by
  refine passes_plain ?_ hstop
  unfold rung at h
  split at h <;> simp at h <;> grind [isPlain, isInner, isSeparator, isLoopWord,
    TokenKind.isOpening, TokenKind.isClosing]

theorem comparisons_plain : ∀ c ∈ comparisons, ∀ k ∈ c.1, isPlain k = true := by decide

theorem passes_comparisons {w : List TokenKind} {op : CmpOp} (h : (w, op) ∈ comparisons)
    (hstop : low = 0 → StopsAtClauses stop) : Passes stop low w :=
  passes_all (comparisons_plain _ h) hstop

mutual

theorem Expression.passes {low : Nat} {ks : List TokenKind} {e : Expr}
    (hstop : low = 0 → StopsAtLoops stop) : Expression ks e → Passes stop low ks
  | .plain h => h.passes fun hlow => (hstop hlow).clauses
  | .conditional h g f =>
    have hstop' (hlow : low = 0) := (hstop hlow).clauses
    (h.passes hstop').append
      ((passes_if hstop).cons ((g.passes hstop').append
        ((passes_plain rfl hstop').cons (f.passes hstop))))

theorem Disjunction.passes {low : Nat} {ks : List TokenKind} {e : Expr}
    (hstop : low = 0 → StopsAtClauses stop) : Disjunction ks e → Passes stop low ks
  | .one h => h.passes hstop
  | .more h g => (h.passes hstop).append ((passes_plain rfl hstop).cons (g.passes hstop))

theorem Conjunction.passes {low : Nat} {ks : List TokenKind} {e : Expr}
    (hstop : low = 0 → StopsAtClauses stop) : Conjunction ks e → Passes stop low ks
  | .one h => h.passes hstop
  | .more h g => (h.passes hstop).append ((passes_plain rfl hstop).cons (g.passes hstop))

theorem Negation.passes {low : Nat} {ks : List TokenKind} {e : Expr}
    (hstop : low = 0 → StopsAtClauses stop) : Negation ks e → Passes stop low ks
  | .plain h => h.passes hstop
  | .not h => (passes_plain rfl hstop).cons (h.passes hstop)

theorem Comparison.passes {low : Nat} {ks : List TokenKind} {e : Expr}
    (hstop : low = 0 → StopsAtClauses stop) : Comparison ks e → Passes stop low ks
  | .plain h => h.passes hstop
  | .chain h => h.passes hstop

theorem Chain.passes {low : Nat} {ks : List TokenKind} {e l : Expr}
    (hstop : low = 0 → StopsAtClauses stop) : Chain ks e l → Passes stop low ks
  | .link h hw g =>
    (h.passes hstop).append ((passes_comparisons hw hstop).append (g.passes hstop))
  | .more h hw g =>
    (h.passes hstop).append ((passes_comparisons hw hstop).append (g.passes hstop))

theorem Ladder.passes {low n : Nat} {ks : List TokenKind} {e : Expr}
    (hstop : low = 0 → StopsAtClauses stop) : Ladder n ks e → Passes stop low ks
  | .sign h => h.passes hstop
  | .tighter h => h.passes hstop
  | .binary h hk g => (h.passes hstop).append ((passes_rung hk hstop).cons (g.passes hstop))

theorem Sign.passes {low : Nat} {ks : List TokenKind} {e : Expr}
    (hstop : low = 0 → StopsAtClauses stop) : Sign ks e → Passes stop low ks
  | .power h => h.passes hstop
  | .fold h _ | .minus h _ | .plus h | .tilde h => (passes_plain rfl hstop).cons (h.passes hstop)

theorem Power.passes {low : Nat} {ks : List TokenKind} {e : Expr}
    (hstop : low = 0 → StopsAtClauses stop) : Power ks e → Passes stop low ks
  | .plain h => h.passes hstop
  | .power h g => (h.passes hstop).append ((passes_plain rfl hstop).cons (g.passes hstop))

theorem Trailer.passes {low : Nat} {ks : List TokenKind} {e : Expr}
    (hstop : low = 0 → StopsAtClauses stop) : Trailer ks e → Passes stop low ks
  | .primary h => h.passes hstop
  | .call h g => (h.passes hstop).append (passes_brackets rfl rfl hstop g.passes)
  | .member h => (h.passes hstop).append
      ((passes_plain rfl hstop).cons (passes_plain rfl hstop))
  | .subscript h g => (h.passes hstop).append
      (passes_brackets rfl rfl hstop (g.passes (by omega)))

theorem Primary.passes {low : Nat} {ks : List TokenKind} {e : Expr}
    (hstop : low = 0 → StopsAtClauses stop) : Primary ks e → Passes stop low ks
  | .int _ | .float _ | .str _ | .yes | .no | .nothing | .name _ => passes_plain rfl hstop
  | .group h | .tuple h _ | .list h => passes_brackets rfl rfl hstop h.passes

theorem Items.passes {ks : List TokenKind} {es : List Expr} {comma : Bool} :
    Items ks es comma → Passes stop 1 ks
  | .empty => passes_nil
  | .series h => h.passes

theorem Series.passes {ks : List TokenKind} {es : List Expr} {comma : Bool} :
    Series ks es comma → Passes stop 1 ks
  | .last h => h.passes (by omega)
  | .comma h => (h.passes (by omega)).append passes_comma
  | .more h g => (h.passes (by omega)).append (passes_comma.cons g.passes)

end

end Grammar

end Comprehend
