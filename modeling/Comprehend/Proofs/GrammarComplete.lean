import Comprehend.Proofs.GrammarSound
import Comprehend.Proofs.Phrases

/-! What the grammar derives, the reader of expressions accepts, with the same tree.

A phrase is read in front of any tokens that do not go on with it. The readers of one level and the
loops behind them are met at the point where a phrase has just been read and the loop decides what
comes next, so that a derivation which groups to the left can be followed from its innermost
phrase outwards. -/
namespace Comprehend.Expr

open Parse Grammar

/-- The level at which a token goes on with the phrase before it; zero if it does not. -/
def joins : TokenKind → Nat
  | .kwIf => 1
  | .kwOr => 2
  | .kwAnd => 3
  | .eqEq | .notEq | .lt | .gt | .ltEq | .gtEq | .kwIn | .kwNot | .kwIs => 5
  | .pipe => 6
  | .caret => 7
  | .amp => 8
  | .shl | .shr => 9
  | .plus | .minus => 10
  | .star | .slash | .slashSlash | .percent => 11
  | .starStar => 13
  | .lparen | .lbracket | .dot => 14
  | _ => 0

theorem joins_rung {n : Nat} {k : TokenKind} {op : BinOp} (h : (k, op) ∈ rung n) :
    joins k = n + 6 ∧ binaryOperator? k = some op ∧ op.precedence = n + 6 := by
  unfold rung at h
  split at h <;> simp at h <;> grind [joins, binaryOperator?, BinOp.precedence]

theorem binaryOperator?_none {k : TokenKind} (h : joins k < 6) : binaryOperator? k = none := by
  cases k <;> simp_all [joins, binaryOperator?]

theorem precedence_lt {k : TokenKind} {op : BinOp} {n : Nat} (h : joins k < n)
    (hop : binaryOperator? k = some op) : op.precedence < n := by
  cases k <;> simp_all [joins, binaryOperator?] <;> subst hop <;> simpa [BinOp.precedence] using h

theorem comparison?_none {ts : List Token} (h : joins (peek ts) < 5) : comparison? ts = none := by
  unfold comparison?
  cases hk : peek ts <;> simp_all [joins]

theorem kinds_eq_cons {ts : List Token} {k : TokenKind} {ks : List TokenKind}
    (h : kinds ts = k :: ks) : ∃ t us, ts = t :: us ∧ t.kind = k ∧ kinds us = ks :=
  List.map_eq_cons_iff.mp h

theorem kinds_eq_append {ts : List Token} {ks ls : List TokenKind} (h : kinds ts = ks ++ ls) :
    ∃ us vs, ts = us ++ vs ∧ kinds us = ks ∧ kinds vs = ls :=
  List.map_eq_append_iff.mp h

theorem kinds_eq_bracketed {ts : List Token} {a b : TokenKind} {ks : List TokenKind}
    (h : kinds ts = a :: (ks ++ [b])) :
    ∃ t us c, ts = t :: (us ++ [c]) ∧ t.kind = a ∧ kinds us = ks ∧ c.kind = b := by
  obtain ⟨t, vs, rfl, ht, hvs⟩ := kinds_eq_cons h
  obtain ⟨us, ws, rfl, hus, hws⟩ := kinds_eq_append hvs
  obtain ⟨c, xs, rfl, hc, hxs⟩ := kinds_eq_cons hws
  obtain rfl : xs = [] := List.map_eq_nil_iff.mp hxs
  exact ⟨t, us, c, rfl, ht, hus, hc⟩

/-- A phrase that follows shows its first token. -/
theorem peek_of_opens {level : Nat} {ts : List Token} (h : Opens level (kinds ts))
    (rest : List Token) : opens level (peek (ts ++ rest)) = true := by
  obtain ⟨k, ls, hks, hk⟩ := h
  obtain ⟨t, us, rfl, rfl, -⟩ := kinds_eq_cons hks
  exact hk

theorem comparison?_append {w : List TokenKind} {op : CmpOp} {ts rest : List Token}
    (h : (w, op) ∈ comparisons) (hts : kinds ts = w) (hrest : opens 12 (peek rest) = true) :
    comparison? (ts ++ rest) = some (op, rest) := by
  have hnot : peek rest ≠ .kwNot := by
    intro hk
    simp [hk, opens] at hrest
  simp only [comparisons, List.mem_cons, Prod.mk.injEq, List.not_mem_nil, or_false] at h
  -- an operator has one token or two, and one of a single token is `is`, behind which `not` counts
  rcases ts with _ | ⟨t, _ | ⟨u, _ | _⟩⟩ <;> simp only [kinds, List.map] at hts <;> subst hts <;>
    simp at h <;> grind [comparison?, peek]

/-- Fuel for the readers, as far as `height` calls without a token between them may follow. -/
def Enough (fuel height : Nat) (ts : List Token) : Prop :=
  16 * ts.length + height ≤ fuel

section

variable {n fuel height height' : Nat} {t : Token} {ts us : List Token}

theorem Enough.exists_succ (h : Enough fuel (height + 1) ts) :
    ∃ n, fuel = n + 1 ∧ Enough n height ts := by
  unfold Enough at *
  exact ⟨fuel - 1, by omega, by omega⟩

/-- Behind a token there is fuel for another descent. -/
theorem Enough.tail (h : Enough n height (t :: ts)) (hheight : height' ≤ 16 + height) :
    Enough n height' ts := by
  simp only [Enough, List.length_cons] at *
  omega

theorem Enough.suffix (h : Enough n height (us ++ ts)) : Enough n height ts := by
  simp only [Enough, List.length_append] at *
  omega

end

/-- The reader takes a phrase off the front, whatever follows that does not go on with it. -/
def Completes (read : Nat → List Token → Attempt (Expr × List Token)) (height level : Nat)
    (ks : List TokenKind) (e : Expr) : Prop :=
  ∀ (fuel : Nat) (ts rest : List Token), kinds ts = ks → joins (peek rest) < level →
    Enough fuel height (ts ++ rest) → read fuel (ts ++ rest) = .ok (e, rest)

/-- The reader arrives at its loop behind the phrase, with fuel enough to go on. -/
def Arrives (read loop : Nat → List Token → Attempt (Expr × List Token)) (height level : Nat)
    (ks : List TokenKind) : Prop :=
  ∀ (fuel : Nat) (ts rest : List Token), kinds ts = ks → joins (peek rest) < level →
    Enough fuel height (ts ++ rest) →
    ∃ fuel', Enough fuel' 1 rest ∧ read fuel (ts ++ rest) = loop fuel' rest

section

variable {read loop next : Nat → List Token → Attempt (Expr × List Token)}
  {height level level' : Nat} {k : TokenKind} {ks ls ms : List TokenKind} {e l r : Expr}

theorem Arrives.narrow (h : Arrives read loop height level ks) (hlevel : level' ≤ level) :
    Arrives read loop height level' ks :=
  fun fuel ts rest hts hrest hfuel => h fuel ts rest hts (by omega) hfuel

/-- A reader that reads an operand first and then enters its loop. -/
theorem Completes.arrives {operand : Nat → List Token → Attempt (Expr × List Token)}
    (h : Completes operand (height + 1) level ks e)
    (loops : Expr → Nat → List Token → Attempt (Expr × List Token))
    (hread : ∀ n ts, read (n + 1) ts = operand n ts >>= fun x => loops x.1 n x.2) :
    Arrives read (loops e) (height + 2) level ks := by
  intro fuel ts rest hts hrest hfuel
  obtain ⟨n, rfl, hn⟩ := hfuel.exists_succ
  refine ⟨n, ?_, ?_⟩
  · have := hn.suffix
    unfold Enough at *
    omega
  · rw [hread, h n ts rest hts hrest hn]
    rfl

/-- The loop goes on over more tokens, the first of which does not belong to what was read. -/
theorem Arrives.extend (h : Arrives read loop height level ks) (hk : joins k < level)
    (hstep : ∀ n ts rest, kinds ts = k :: ls → joins (peek rest) < level' →
      Enough n 0 (ts ++ rest) → loop (n + 1) (ts ++ rest) = next n rest) :
    Arrives read next height level' (ks ++ k :: ls) := by
  intro fuel ts rest hts hrest hfuel
  obtain ⟨us, vs, rfl, hus, hvs⟩ := kinds_eq_append hts
  obtain ⟨t, ws, rfl, ht, hws⟩ := kinds_eq_cons hvs
  rw [List.append_assoc] at hfuel ⊢
  obtain ⟨m, hm, heq⟩ := h fuel us (t :: ws ++ rest) hus (by simpa [peek, ht] using hk) hfuel
  obtain ⟨n, rfl, hn⟩ := hm.exists_succ
  refine ⟨n, (hn.tail (by decide)).suffix, ?_⟩
  rw [heq]
  exact hstep n _ rest hvs hrest hn

/-- The loop ends, and with it the phrase. -/
theorem Arrives.completes (h : Arrives read loop height level ks) (hlevel : level' ≤ level)
    (hstop : ∀ n rest, joins (peek rest) < level' → loop (n + 1) rest = .ok (e, rest)) :
    Completes read height level' ks e := by
  intro fuel ts rest hts hrest hfuel
  obtain ⟨m, hm, heq⟩ := h fuel ts rest hts (by omega) hfuel
  obtain ⟨n, rfl, -⟩ := hm.exists_succ
  rw [heq, hstop n rest hrest]

/-! Conditionals -/

theorem expression_plain (h : Completes disjunction 13 2 ks e) (hopens : Opens 4 ks) :
    Completes expression 14 1 ks e := by
  intro fuel ts rest hts hrest hfuel
  obtain ⟨n, rfl, hn⟩ := hfuel.exists_succ
  have hlambda : peek (ts ++ rest) ≠ .kwLambda := by
    intro hk
    have := peek_of_opens (hts ▸ hopens) rest
    simp [hk, opens] at this
  have hif : peek rest ≠ .kwIf := by
    intro hk
    simp [hk, joins] at hrest
  rw [expression, if_neg hlambda, h n ts rest hts (by omega) hn]
  exact if_neg hif

theorem expression_conditional (h : Completes disjunction 13 2 ks l)
    (g : Completes disjunction 13 2 ls e) (f : Completes expression 14 1 ms r)
    (hopens : Opens 4 ks) :
    Completes expression 14 1 (ks ++ .kwIf :: (ls ++ .kwElse :: ms)) (.ternary e l r) := by
  intro fuel ts rest hts hrest hfuel
  obtain ⟨n, rfl, hn⟩ := hfuel.exists_succ
  obtain ⟨us, ts₁, rfl, hus, hts₁⟩ := kinds_eq_append hts
  obtain ⟨t, ts₂, rfl, ht, hts₂⟩ := kinds_eq_cons hts₁
  obtain ⟨vs, ts₃, rfl, hvs, hts₃⟩ := kinds_eq_append hts₂
  obtain ⟨t', ws, rfl, ht', hws⟩ := kinds_eq_cons hts₃
  simp only [List.append_assoc, List.cons_append] at hn ⊢
  have hlambda : ∀ rest, peek (us ++ rest) ≠ .kwLambda := by
    intro rest hk
    have := peek_of_opens (hus ▸ hopens) rest
    simp [hk, opens] at this
  have hbody := h n us (t :: (vs ++ t' :: (ws ++ rest))) hus (by simp [peek, ht, joins]) hn
  have hn₁ := hn.suffix.tail (Nat.le_add_left _ _)
  have hcond := g n vs (t' :: (ws ++ rest)) hvs (by simp [peek, ht', joins]) hn₁
  have hother := f n ws rest hws hrest (hn₁.suffix.tail (by decide))
  rw [expression, if_neg (hlambda _), hbody]
  simp [bind, Except.bind, pure, Except.pure, peek, ht, hcond, expect, ht', hother]

/-! Truth values -/

theorem disjunction_one (h : Completes conjunction 12 3 ks e) :
    Arrives disjunction (disjunctionTail · e) 13 3 ks :=
  h.arrives (fun l n => disjunctionTail n l) fun n ts => by rw [disjunction]

theorem disjunction_more (h : Arrives disjunction (disjunctionTail · l) 13 3 ks)
    (g : Completes conjunction 12 3 ls r) :
    Arrives disjunction (disjunctionTail · (.boolOp .or l r)) 13 3 (ks ++ .kwOr :: ls) := by
  refine h.extend (by decide) fun n ts rest hts hrest hn => ?_
  obtain ⟨t, us, rfl, ht, hus⟩ := kinds_eq_cons hts
  have hr := g n us rest hus hrest (hn.tail (by decide))
  simp [disjunctionTail, peek, ht, hr, bind, Except.bind]

theorem disjunction_completes (h : Arrives disjunction (disjunctionTail · e) 13 3 ks) :
    Completes disjunction 13 2 ks e := by
  refine h.completes (by decide) fun n rest hrest => ?_
  have hor : peek rest ≠ .kwOr := by
    intro hk
    simp [hk, joins] at hrest
  rw [disjunctionTail, if_neg hor]
  rfl

theorem conjunction_one (h : Completes negation 11 4 ks e) :
    Arrives conjunction (conjunctionTail · e) 12 4 ks :=
  h.arrives (fun l n => conjunctionTail n l) fun n ts => by rw [conjunction]

theorem conjunction_more (h : Arrives conjunction (conjunctionTail · l) 12 4 ks)
    (g : Completes negation 11 4 ls r) :
    Arrives conjunction (conjunctionTail · (.boolOp .and l r)) 12 4 (ks ++ .kwAnd :: ls) := by
  refine h.extend (by decide) fun n ts rest hts hrest hn => ?_
  obtain ⟨t, us, rfl, ht, hus⟩ := kinds_eq_cons hts
  have hr := g n us rest hus hrest (hn.tail (by decide))
  simp [conjunctionTail, peek, ht, hr, bind, Except.bind]

theorem conjunction_completes (h : Arrives conjunction (conjunctionTail · e) 12 4 ks) :
    Completes conjunction 12 3 ks e := by
  refine h.completes (by decide) fun n rest hrest => ?_
  have hand : peek rest ≠ .kwAnd := by
    intro hk
    simp [hk, joins] at hrest
  rw [conjunctionTail, if_neg hand]
  rfl

theorem negation_plain (h : Completes comparison 10 5 ks e) (hopens : Opens 12 ks) :
    Completes negation 11 4 ks e := by
  intro fuel ts rest hts hrest hfuel
  obtain ⟨n, rfl, hn⟩ := hfuel.exists_succ
  have hnot : peek (ts ++ rest) ≠ .kwNot := by
    intro hk
    have := peek_of_opens (hts ▸ hopens) rest
    simp [hk, opens] at this
  rw [negation, if_neg hnot]
  exact h n ts rest hts (by omega) hn

theorem negation_not (h : Completes negation 11 4 ks e) :
    Completes negation 11 4 (.kwNot :: ks) (.unary .not e) := by
  intro fuel ts rest hts hrest hfuel
  obtain ⟨n, rfl, hn⟩ := hfuel.exists_succ
  obtain ⟨t, us, rfl, ht, hus⟩ := kinds_eq_cons hts
  have hr := h n us rest hus hrest (hn.tail (by decide))
  simp [negation, peek, ht, hr, bind, Except.bind, pure, Except.pure]

/-! Comparisons -/

theorem comparison_first (h : Completes (ladder · 0) 9 6 ks e) :
    Arrives comparison (comparisonTail · none e) 10 6 ks :=
  h.arrives (fun l n => comparisonTail n none l) fun n ts => by rw [comparison]

theorem comparison_link {sofar : Option Expr} {w : List TokenKind} {op : CmpOp}
    (h : Arrives comparison (comparisonTail · sofar l) 10 6 ks) (hw : (w, op) ∈ comparisons)
    (g : Completes (ladder · 0) 9 6 ls r) (hopens : Opens 12 ls) :
    Arrives comparison (comparisonTail · (some (chained sofar (.compare l op r))) r) 10 6
      (ks ++ (w ++ ls)) := by
  have hstep : ∀ n ts rest, kinds ts = w ++ ls → joins (peek rest) < 6 → w ≠ [] →
      Enough n 0 (ts ++ rest) → comparisonTail (n + 1) sofar l (ts ++ rest) =
        comparisonTail n (some (chained sofar (.compare l op r))) r rest := by
    intro n ts rest hts hrest hne hn
    obtain ⟨us, vs, rfl, hus, hvs⟩ := kinds_eq_append hts
    have hop := comparison?_append hw hus (peek_of_opens (hvs ▸ hopens) rest)
    have hpos : 0 < us.length := by
      cases us with
      | nil => exact absurd hus.symm hne
      | cons => simp
    have hr := g n vs rest hvs hrest (by simp only [Enough, List.length_append] at *; omega)
    rw [comparisonTail, List.append_assoc, hop]
    simp [hr, bind, Except.bind]
  obtain ⟨k, w', rfl, hk⟩ : ∃ k w', w = k :: w' ∧ joins k < 6 := by
    simp only [comparisons, List.mem_cons, Prod.mk.injEq, List.not_mem_nil, or_false] at hw
    rcases hw with h | h | h | h | h | h | h | h | h | h <;>
      exact ⟨_, _, h.1, by simp [joins]⟩
  exact h.extend hk fun n ts rest hts hrest hn => hstep n ts rest hts hrest (by simp) hn

theorem comparison_completes {sofar : Option Expr}
    (h : Arrives comparison (comparisonTail · sofar l) 10 6 ks) :
    Completes comparison 10 5 ks (sofar.getD l) := by
  refine h.completes (by decide) fun n rest hrest => ?_
  rw [comparisonTail, comparison?_none hrest]
  rfl

/-! Binary operators -/

theorem ladder_sign (h : Completes sign 8 13 ks e) (least : Nat) :
    Arrives (ladder · least) (ladderTail · least e) 9 13 ks :=
  h.arrives (fun l n => ladderTail n least l) fun n ts => by rw [ladder]

theorem ladder_binary {n least : Nat} {op : BinOp} (hleast : least ≤ n + 6)
    (h : Arrives (ladder · least) (ladderTail · least l) 9 (n + 7) ks) (hk : (k, op) ∈ rung n)
    (g : Completes (ladder · (n + 7)) 9 (n + 7) ls r) :
    Arrives (ladder · least) (ladderTail · least (.binary l op r)) 9 (n + 7) (ks ++ k :: ls) := by
  obtain ⟨hjoins, hop, hprec⟩ := joins_rung hk
  refine h.extend (by omega) fun m ts rest hts hrest hm => ?_
  obtain ⟨t, us, rfl, rfl, hus⟩ := kinds_eq_cons hts
  have hr : ladder m (n + 6 + 1) (us ++ rest) = .ok (r, rest) :=
    g m us rest hus hrest (hm.tail (by decide))
  have hge : ¬ op.precedence < least := by omega
  simp only [ladderTail, List.cons_append, peek, hop, hge, if_false, List.drop_one, List.tail_cons]
  rw [hprec, hr]
  rfl

theorem ladder_completes {least : Nat}
    (h : Arrives (ladder · least) (ladderTail · least e) 9 level ks) (hlevel : level' ≤ level)
    (hstop : level' ≤ 6 ∨ level' ≤ least) : Completes (ladder · least) 9 level' ks e := by
  refine h.completes hlevel fun n rest hrest => ?_
  rw [ladderTail]
  cases hop : binaryOperator? (peek rest) with
  | none => rfl
  | some op =>
    rcases hstop with hstop | hstop
    · rw [binaryOperator?_none (by omega)] at hop
      cases hop
    · have hlt : op.precedence < least := precedence_lt (by omega) hop
      simp [hlt, pure, Except.pure]

/-! Signs and powers -/

theorem sign_power (h : Completes power 7 13 ks e) (hopens : Opens 14 ks) :
    Completes sign 8 13 ks e := by
  intro fuel ts rest hts hrest hfuel
  obtain ⟨n, rfl, hn⟩ := hfuel.exists_succ
  have hnone : signOperator? (peek (ts ++ rest)) = none := by
    have := peek_of_opens (hts ▸ hopens) rest
    cases hk : peek (ts ++ rest) <;> simp_all [opens, signOperator?]
  rw [sign, hnone]
  exact h n ts rest hts hrest hn

theorem sign_more {op : UnaryOp} (hop : signOperator? k = some op) (h : Completes sign 8 13 ks e) :
    Completes sign 8 13 (k :: ks) (signed op e) := by
  intro fuel ts rest hts hrest hfuel
  obtain ⟨n, rfl, hn⟩ := hfuel.exists_succ
  obtain ⟨t, us, rfl, rfl, hus⟩ := kinds_eq_cons hts
  have hr := h n us rest hus hrest (hn.tail (by decide))
  simp [sign, peek, hop, hr, bind, Except.bind, pure, Except.pure]

theorem power_plain (h : Completes trailer 6 14 ks e) : Completes power 7 13 ks e := by
  intro fuel ts rest hts hrest hfuel
  obtain ⟨n, rfl, hn⟩ := hfuel.exists_succ
  have hstar : peek rest ≠ .starStar := by
    intro hk
    simp [hk, joins] at hrest
  rw [power, h n ts rest hts (by omega) hn]
  exact if_neg hstar

theorem power_power (h : Completes trailer 6 14 ks l) (g : Completes sign 8 13 ls r) :
    Completes power 7 13 (ks ++ .starStar :: ls) (.binary l .pow r) := by
  intro fuel ts rest hts hrest hfuel
  obtain ⟨n, rfl, hn⟩ := hfuel.exists_succ
  obtain ⟨us, vs, rfl, hus, hvs⟩ := kinds_eq_append hts
  obtain ⟨t, ws, rfl, ht, hws⟩ := kinds_eq_cons hvs
  simp only [List.append_assoc, List.cons_append] at hn ⊢
  have hbase := h n us (t :: (ws ++ rest)) hus (by simp [peek, ht, joins]) hn
  have hexp := g n ws rest hws hrest (hn.suffix.tail (by decide))
  rw [power, hbase]
  simp [bind, Except.bind, pure, Except.pure, peek, ht, hexp]

/-! Brackets -/

theorem trailer_primary (h : Completes primary 5 15 ks e) :
    Arrives trailer (trailerTail · e) 6 15 ks :=
  h.arrives (fun l n => trailerTail n l) fun n ts => by rw [trailer]

/-- The reader of sequences takes the tokens before a closing bracket, and the bracket. -/
def Encloses (ks : List TokenKind) (es : List Expr) (comma : Bool) : Prop :=
  ∀ (fuel : Nat) (ts rest : List Token) (t : Token), kinds ts = ks →
    t.kind = .rparen ∨ t.kind = .rbracket → Enough fuel 15 (ts ++ t :: rest) →
    sequence fuel t.kind false (ts ++ t :: rest) = .ok ((es, comma), rest)

theorem trailer_call {comma : Bool} {es : List Expr}
    (h : Arrives trailer (trailerTail · e) 6 15 ks) (g : Encloses ls es comma) :
    Arrives trailer (trailerTail · (.call e es)) 6 15 (ks ++ .lparen :: (ls ++ [.rparen])) := by
  refine h.extend (by decide) fun n ts rest hts hrest hn => ?_
  obtain ⟨t, us, c, rfl, ht, hus, hc⟩ := kinds_eq_bracketed hts
  simp only [List.cons_append, List.append_assoc, List.nil_append] at hn ⊢
  have hargs := g n us rest c hus (.inl hc) (hn.tail (by decide))
  rw [hc] at hargs
  simp [trailerTail, peek, ht, hargs, bind, Except.bind]

theorem trailer_member {field : String} (h : Arrives trailer (trailerTail · e) 6 15 ks) :
    Arrives trailer (trailerTail · (.member e field)) 6 15 (ks ++ [.dot, .ident field]) := by
  refine h.extend (by decide) fun n ts rest hts hrest hn => ?_
  obtain ⟨t, us, rfl, ht, hus⟩ := kinds_eq_cons hts
  obtain ⟨⟨_, place⟩, vs, rfl, rfl, hvs⟩ := kinds_eq_cons hus
  obtain rfl : vs = [] := List.map_eq_nil_iff.mp hvs
  simp [trailerTail, peek, ht, expectIdent, bind, Except.bind]

theorem trailer_subscript (h : Arrives trailer (trailerTail · l) 6 15 ks)
    (g : Completes expression 14 1 ls r) :
    Arrives trailer (trailerTail · (.subscript l r)) 6 15
      (ks ++ .lbracket :: (ls ++ [.rbracket])) := by
  refine h.extend (by decide) fun n ts rest hts hrest hn => ?_
  obtain ⟨t, us, c, rfl, ht, hus, hc⟩ := kinds_eq_bracketed hts
  simp only [List.cons_append, List.append_assoc, List.nil_append] at hn ⊢
  have hindex := g n us (c :: rest) hus (by simp [peek, hc, joins]) (hn.tail (by decide))
  simp [trailerTail, peek, ht, hindex, bind, Except.bind, hc, expect]

theorem trailer_completes (h : Arrives trailer (trailerTail · e) 6 15 ks) :
    Completes trailer 6 14 ks e := by
  refine h.completes (by decide) fun n rest hrest => ?_
  rw [trailerTail]
  cases hk : peek rest <;> simp_all [joins, pure, Except.pure]

/-- A primary phrase of a single token. -/
theorem primary_token (h : ∀ n t rest, t.kind = k → primary (n + 1) (t :: rest) = .ok (e, rest)) :
    Completes primary 5 15 [k] e := by
  intro fuel ts rest hts hrest hfuel
  obtain ⟨n, rfl, hn⟩ := hfuel.exists_succ
  obtain ⟨t, us, rfl, ht, hus⟩ := kinds_eq_cons hts
  obtain rfl : us = [] := List.map_eq_nil_iff.mp hus
  exact h n t rest ht

theorem primary_paren {comma : Bool} {es : List Expr} (g : Encloses ks es comma) :
    Completes primary 5 15 (.lparen :: (ks ++ [.rparen])) (parenthesized es comma) := by
  intro fuel ts rest hts hrest hfuel
  obtain ⟨t, us, c, rfl, ht, hus, hc⟩ := kinds_eq_bracketed hts
  simp only [List.cons_append, List.append_assoc, List.nil_append] at hfuel ⊢
  obtain ⟨n, rfl, hn⟩ := hfuel.exists_succ
  have hitems := g n us rest c hus (.inl hc) (hn.tail (by decide))
  rw [hc] at hitems
  simp [primary, peek, ht, hitems, bind, Except.bind, pure, Except.pure]

theorem primary_list {comma : Bool} {es : List Expr} (g : Encloses ks es comma) :
    Completes primary 5 15 (.lbracket :: (ks ++ [.rbracket])) (.list es) := by
  intro fuel ts rest hts hrest hfuel
  obtain ⟨t, us, c, rfl, ht, hus, hc⟩ := kinds_eq_bracketed hts
  simp only [List.cons_append, List.append_assoc, List.nil_append] at hfuel ⊢
  obtain ⟨n, rfl, hn⟩ := hfuel.exists_succ
  have hitems := g n us rest c hus (.inr hc) (hn.tail (by decide))
  rw [hc] at hitems
  simp [primary, peek, ht, hitems, bind, Except.bind, pure, Except.pure]

theorem encloses_empty : Encloses [] [] false := by
  intro fuel ts rest t hts ht hfuel
  obtain ⟨n, rfl, -⟩ := hfuel.exists_succ
  obtain rfl : ts = [] := List.map_eq_nil_iff.mp hts
  simp [sequence, peek, pure, Except.pure]

/-- The reader of sequences takes one expression or more, whether or not a comma stands before. -/
def Gathers (ks : List TokenKind) (es : List Expr) (comma : Bool) : Prop :=
  ∀ (fuel : Nat) (flag : Bool) (ts rest : List Token) (t : Token), kinds ts = ks →
    t.kind = .rparen ∨ t.kind = .rbracket → Enough fuel 15 (ts ++ t :: rest) →
    sequence fuel t.kind flag (ts ++ t :: rest) = .ok ((es, comma), rest)

/-- No name with an equals sign opens a phrase that no equals sign follows. -/
theorem startsKeyword_append {ts rest : List Token} (h : Native (kinds ts)) (hne : ts ≠ [])
    (hrest : peek rest ≠ .assign) : startsKeyword (ts ++ rest) = false := by
  unfold startsKeyword
  split
  next heq =>
    exfalso
    rcases ts with _ | ⟨t, _ | ⟨u, ts⟩⟩
    · exact hne rfl
    · simp only [List.cons_append, List.nil_append, List.cons.injEq] at heq
      exact hrest (by rw [heq.2]; rfl)
    · simp only [List.cons_append, List.cons.injEq] at heq
      obtain ⟨-, rfl, -⟩ := heq
      simp [isForeign] at h
  next => rfl

/-- What the reader of sequences does with its next expression, up to the token behind it. -/
theorem sequence_expression (h : Completes expression 14 1 ks e) (hopens : Opens 4 ks)
    (hnative : Native ks) {n : Nat} {flag : Bool} {close : TokenKind} {ts rest : List Token}
    (hts : kinds ts = ks) (hclose : close = .rparen ∨ close = .rbracket)
    (hrest : peek rest = .comma ∨ peek rest = close) (hn : Enough n 14 (ts ++ rest)) :
    sequence (n + 1) close flag (ts ++ rest) =
      if peek rest = .comma then do
        let ((es, trailing), ts) ← sequence n close true (rest.drop 1)
        return ((e :: es, trailing), ts)
      else do
        let ts ← expect close rest
        return (([e], false), ts) := by
  have hpeek := peek_of_opens (hts ▸ hopens) rest
  have hne : ts ≠ [] := by
    rintro rfl
    obtain ⟨k, ls, hks, -⟩ := hopens
    cases hts.trans hks
  have hjoins : joins (peek rest) < 1 := by
    rcases hrest with hk | hk <;> rcases hclose with rfl | rfl <;> simp [hk, joins]
  have hkey : startsKeyword (ts ++ rest) = false := by
    refine startsKeyword_append (hts ▸ hnative) hne ?_
    rcases hrest with hk | hk <;> rcases hclose with rfl | rfl <;> simp [hk]
  have hfor : peek rest ≠ .kwFor := by
    rcases hrest with hk | hk <;> rcases hclose with rfl | rfl <;> simp [hk]
  have hnclose : peek (ts ++ rest) ≠ close := by
    rintro hk
    rcases hclose with rfl | rfl <;> simp [hk, opens] at hpeek
  rw [sequence, if_neg hnclose, hkey, h n ts rest hts hjoins hn]
  simp only [bind, Except.bind, Bool.false_eq_true, if_false, if_neg hfor]

theorem gathers_last (h : Completes expression 14 1 ks e) (hopens : Opens 4 ks)
    (hnative : Native ks) : Gathers ks [e] false := by
  intro fuel flag ts rest t hts ht hfuel
  obtain ⟨n, rfl, hn⟩ := hfuel.exists_succ
  rw [sequence_expression h hopens hnative hts ht (.inr rfl) hn]
  rcases ht with ht | ht <;> simp [peek, ht, expect, bind, Except.bind, pure, Except.pure]

theorem gathers_comma (h : Completes expression 14 1 ks e) (hopens : Opens 4 ks)
    (hnative : Native ks) : Gathers (ks ++ [.comma]) [e] true := by
  intro fuel flag ts rest t hts ht hfuel
  obtain ⟨n, rfl, hn⟩ := hfuel.exists_succ
  obtain ⟨us, vs, rfl, hus, hvs⟩ := kinds_eq_append hts
  obtain ⟨c, ws, rfl, hc, hws⟩ := kinds_eq_cons hvs
  obtain rfl : ws = [] := List.map_eq_nil_iff.mp hws
  rw [List.append_assoc] at hn ⊢
  obtain ⟨m, rfl, -⟩ := hn.suffix.exists_succ
  have hcomma : peek ([c] ++ t :: rest) = .comma := hc
  rw [sequence_expression h hopens hnative hus ht (.inl hcomma) hn]
  simp [peek, hc, sequence, bind, Except.bind, pure, Except.pure]

theorem gathers_more {es : List Expr} {comma : Bool} (h : Completes expression 14 1 ks e)
    (hopens : Opens 4 ks) (hnative : Native ks) (g : Gathers ls es comma) :
    Gathers (ks ++ .comma :: ls) (e :: es) comma := by
  intro fuel flag ts rest t hts ht hfuel
  obtain ⟨n, rfl, hn⟩ := hfuel.exists_succ
  obtain ⟨us, vs, rfl, hus, hvs⟩ := kinds_eq_append hts
  obtain ⟨c, ws, rfl, hc, hws⟩ := kinds_eq_cons hvs
  rw [List.append_assoc] at hn ⊢
  have hmore := g n true ws rest t hws ht (hn.suffix.tail (by decide))
  have hcomma : peek (c :: ws ++ t :: rest) = .comma := hc
  rw [sequence_expression h hopens hnative hus ht (.inl hcomma) hn]
  simp [peek, hc, hmore, bind, Except.bind, pure, Except.pure]

end

/-! The derivation as a whole -/

theorem signed_fold {n m : Int64} (h : m.toInt = -n.toInt) :
    signed .neg (.const (.int n)) = .const (.int m) := by
  simp [signed, ← h]

theorem signed_minus {e : Expr}
    (h : ∀ n m : Int64, e = .const (.int n) → m.toInt ≠ -n.toInt) :
    signed .neg e = .unary .neg e := by
  unfold signed
  split
  next n _ =>
    split
    next m hm => exact absurd (Number.toInt_of_int64? hm) (h n m rfl)
    next => rfl
  next => rfl

theorem signed_pos (e : Expr) : signed .pos e = .unary .pos e := by simp [signed]

theorem signed_invert (e : Expr) : signed .invert e = .unary .invert e := by simp [signed]

theorem parenthesized_tuple {es : List Expr} {comma : Bool} (h : es.length = 1 → comma = true) :
    parenthesized es comma = .tuple es := by
  unfold parenthesized
  split
  next => cases h rfl
  next => rfl

mutual

theorem expression_complete {ks : List TokenKind} {e : Expr} :
    Expression ks e → Completes expression 14 1 ks e
  | .plain h => expression_plain (disjunction_completes (disjunction_complete h)) h.opens
  | .conditional h g f =>
    expression_conditional (disjunction_completes (disjunction_complete h))
      (disjunction_completes (disjunction_complete g)) (expression_complete f) h.opens

theorem disjunction_complete {ks : List TokenKind} {e : Expr} :
    Disjunction ks e → Arrives disjunction (disjunctionTail · e) 13 3 ks
  | .one h => disjunction_one (conjunction_completes (conjunction_complete h))
  | .more h g =>
    disjunction_more (disjunction_complete h) (conjunction_completes (conjunction_complete g))

theorem conjunction_complete {ks : List TokenKind} {e : Expr} :
    Conjunction ks e → Arrives conjunction (conjunctionTail · e) 12 4 ks
  | .one h => conjunction_one (negation_complete h)
  | .more h g => conjunction_more (conjunction_complete h) (negation_complete g)

theorem negation_complete {ks : List TokenKind} {e : Expr} :
    Negation ks e → Completes negation 11 4 ks e
  | .plain h => negation_plain (comparison_complete h) h.opens
  | .not h => negation_not (negation_complete h)

theorem comparison_complete {ks : List TokenKind} {e : Expr} :
    Comparison ks e → Completes comparison 10 5 ks e
  | .plain h =>
    comparison_completes (comparison_first
      (ladder_completes (ladder_complete h 0 (by decide)) (by decide) (.inl (by decide))))
  | .chain h => comparison_completes (chain_complete h)

theorem chain_complete {ks : List TokenKind} {e l : Expr} :
    Chain ks e l → Arrives comparison (comparisonTail · (some e) l) 10 6 ks
  | .link h hw g =>
    comparison_link (comparison_first
      (ladder_completes (ladder_complete h 0 (by decide)) (by decide) (.inl (by decide)))) hw
      (ladder_completes (ladder_complete g 0 (by decide)) (by decide) (.inl (by decide))) g.opens
  | .more h hw g =>
    comparison_link (chain_complete h) hw
      (ladder_completes (ladder_complete g 0 (by decide)) (by decide) (.inl (by decide))) g.opens

theorem ladder_complete {n : Nat} {ks : List TokenKind} {e : Expr} :
    Ladder n ks e → ∀ least, least ≤ n + 6 →
      Arrives (ladder · least) (ladderTail · least e) 9 (n + 7) ks
  | .sign h, least, _ => ladder_sign (sign_complete h) least
  | .tighter h, least, hleast =>
    (ladder_complete h least (by omega)).narrow (by omega)
  | .binary h hk g, least, hleast =>
    ladder_binary hleast (ladder_complete h least hleast) hk
      (ladder_completes (ladder_complete g _ (by omega)) (by omega) (.inr (by omega)))

theorem sign_complete {ks : List TokenKind} {e : Expr} : Sign ks e → Completes sign 8 13 ks e
  | .power h => sign_power (power_complete h) h.opens
  | .fold h hm => signed_fold hm ▸ sign_more rfl (sign_complete h)
  | .minus h hne => signed_minus hne ▸ sign_more rfl (sign_complete h)
  | .plus h => signed_pos _ ▸ sign_more rfl (sign_complete h)
  | .tilde h => signed_invert _ ▸ sign_more rfl (sign_complete h)

theorem power_complete {ks : List TokenKind} {e : Expr} : Power ks e → Completes power 7 13 ks e
  | .plain h => power_plain (trailer_completes (trailer_complete h))
  | .power h g => power_power (trailer_completes (trailer_complete h)) (sign_complete g)

theorem trailer_complete {ks : List TokenKind} {e : Expr} :
    Trailer ks e → Arrives trailer (trailerTail · e) 6 15 ks
  | .primary h => trailer_primary (primary_complete h)
  | .call h g => trailer_call (trailer_complete h) (items_complete g)
  | .member h => trailer_member (trailer_complete h)
  | .subscript h g => trailer_subscript (trailer_complete h) (expression_complete g)

theorem primary_complete {ks : List TokenKind} {e : Expr} :
    Primary ks e → Completes primary 5 15 ks e
  | .int _ | .float _ | .str _ | .yes | .no | .nothing | .name _ =>
    primary_token fun n t rest ht => by simp [primary, peek, ht, pure, Except.pure]
  | .group h => primary_paren (items_complete h)
  | .tuple h hone => parenthesized_tuple hone ▸ primary_paren (items_complete h)
  | .list h => primary_list (items_complete h)

theorem items_complete {ks : List TokenKind} {es : List Expr} {comma : Bool} :
    Items ks es comma → Encloses ks es comma
  | .empty => encloses_empty
  | .series h => fun fuel ts rest t => series_complete h fuel false ts rest t

theorem series_complete {ks : List TokenKind} {es : List Expr} {comma : Bool} :
    Series ks es comma → Gathers ks es comma
  | .last h => gathers_last (expression_complete h) h.opens h.native
  | .comma h => gathers_comma (expression_complete h) h.opens h.native
  | .more h g => gathers_more (expression_complete h) h.opens h.native (series_complete g)

end

end Comprehend.Expr
