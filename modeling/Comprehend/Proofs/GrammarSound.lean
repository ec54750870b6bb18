import Comprehend.Proofs.Grammar

/-! What the reader of expressions accepts, the grammar derives, with the same tree. -/
namespace Comprehend

namespace Parse

theorem bind_eq_ok {α β : Type} {x : Attempt α} {f : α → Attempt β} {b : β} :
    (x >>= f) = .ok b ↔ ∃ a, x = .ok a ∧ f a = .ok b := by
  cases x with
  | error e => simp [bind, Except.bind]
  | ok a => simp [bind, Except.bind]

@[simp] theorem ok_bind {α β : Type} (a : α) (f : α → Attempt β) : (.ok a >>= f) = f a := rfl

theorem pure_eq_ok {α : Type} {a b : α} : (pure a : Attempt α) = .ok b ↔ a = b := by
  simp [pure, Except.pure]

@[simp] theorem failAt_ne_ok {α : Type} {fault : ParseFault} {ts : List Token} {a : α} :
    failAt fault ts ≠ .ok a := by
  cases ts <;> simp [failAt]

def kinds (ts : List Token) : List TokenKind :=
  ts.map (·.kind)

@[simp] theorem kinds_nil : kinds [] = [] := rfl

@[simp] theorem kinds_cons (t : Token) (ts : List Token) : kinds (t :: ts) = t.kind :: kinds ts :=
  rfl

@[simp] theorem kinds_append (ts us : List Token) : kinds (ts ++ us) = kinds ts ++ kinds us := by
  simp [kinds]

/-- A token that is seen and is not the end mark of an empty list is really there. -/
theorem peek_cons (t : Token) (ts : List Token) : peek (t :: ts) = t.kind := rfl

theorem kinds_of_peek {ts : List Token} {k : TokenKind} (h : peek ts = k) (hk : k ≠ .eof) :
    kinds ts = k :: kinds (ts.drop 1) := by
  cases ts with
  | nil => exact absurd h.symm hk
  | cons t ts => simp only [peek] at h; simp [h]

theorem kinds_of_expect {want : TokenKind} {ts rest : List Token}
    (h : expect want ts = .ok rest) : kinds ts = want :: kinds rest := by
  cases ts with
  | nil => simp [expect] at h
  | cons t ts =>
    simp only [expect] at h
    split at h
    next hk => simp_all
    next => simp at h

theorem kinds_of_expectIdent {ts rest : List Token} {name : String}
    (h : expectIdent ts = .ok (name, rest)) : kinds ts = .ident name :: kinds rest := by
  unfold expectIdent at h
  split at h
  next => simp_all
  next => simp at h

end Parse

namespace Expr

open Parse Grammar

theorem mem_rung {k : TokenKind} {op : BinOp} (h : binaryOperator? k = some op) :
    6 ≤ op.precedence ∧ op.precedence ≤ 11 ∧ (k, op) ∈ rung (op.precedence - 6) := by
  cases k <;> simp [binaryOperator?] at h <;> subst h <;> simp [BinOp.precedence, rung]

theorem mem_comparisons {ts rest : List Token} {op : CmpOp}
    (h : comparison? ts = some (op, rest)) :
    ∃ w, kinds ts = w ++ kinds rest ∧ (w, op) ∈ comparisons := by
  unfold comparison? at h
  cases hk : peek ts with
  | kwNot =>
    simp only [hk, Option.ite_none_right_eq_some, Option.some.injEq, Prod.mk.injEq] at h
    obtain ⟨hin, rfl, rfl⟩ := h
    refine ⟨[.kwNot, .kwIn], ?_, by decide⟩
    rw [kinds_of_peek hk (by decide), kinds_of_peek hin (by decide)]
    rfl
  | kwIs =>
    simp only [hk] at h
    split at h
    next hnot =>
      obtain ⟨rfl, rfl⟩ := Prod.mk.inj (Option.some.inj h)
      refine ⟨[.kwIs, .kwNot], ?_, by decide⟩
      rw [kinds_of_peek hk (by decide), kinds_of_peek hnot (by decide)]
      rfl
    next =>
      obtain ⟨rfl, rfl⟩ := Prod.mk.inj (Option.some.inj h)
      exact ⟨[.kwIs], kinds_of_peek hk (by decide), by decide⟩
  | _ =>
    simp only [hk, Option.some.injEq, Prod.mk.injEq, reduceCtorEq] at h
    all_goals
      obtain ⟨rfl, rfl⟩ := h
      exact ⟨[_], kinds_of_peek hk (by decide), by decide⟩

/-- A sign before a phrase makes a phrase. -/
theorem sign_signed {k : TokenKind} {op : UnaryOp} {ks : List TokenKind} {e : Expr}
    (hop : signOperator? k = some op) (h : Sign ks e) : Sign (k :: ks) (signed op e) := by
  cases k <;> simp only [signOperator?, Option.some.injEq, reduceCtorEq] at hop <;> subst hop
  case plus => exact .plus h
  case tilde => exact .tilde h
  case minus =>
    unfold signed
    split
    next n _ =>
      split
      next m hm => exact .fold h (Number.toInt_of_int64? hm)
      next hm =>
        refine .minus h fun n' m hn hneg => Number.int64?_eq_none_iff.mp hm ?_
        cases hn
        exact hneg ▸ Number.fits_toInt m
    next hne =>
      exact .minus h fun n m hn _ => hne n rfl hn

/-- A phrase of a rung is one of every looser rung. -/
theorem ladder_loosen {m n : Nat} {ks : List TokenKind} {e : Expr} (hmn : n ≤ m)
    (h : Ladder m ks e) : Ladder n ks e := by
  induction m with
  | zero => exact Nat.le_zero.mp hmn ▸ h
  | succ m ih =>
    rcases Nat.eq_or_lt_of_le hmn with rfl | hlt
    · exact h
    · exact ih (Nat.le_of_lt_succ hlt) h.tighter

/-- The tokens from `ts` up to `rest` are a phrase of the grammar that spells `e`. -/
def Reads (Phrase : List TokenKind → Expr → Prop) (ts : List Token) (e : Expr)
    (rest : List Token) : Prop :=
  ∃ ks, kinds ts = ks ++ kinds rest ∧ Phrase ks e

/-- No operator comes next that binds at least as tightly as `least`. -/
def EndsLadder (least : Nat) (rest : List Token) : Prop :=
  ∀ op, binaryOperator? (peek rest) = some op → op.precedence < least

/-- Before the first operator of a chain there is only its first operand `l`; behind one, there is
a chain that ends with `l`. -/
def Linked (sofar : Option Expr) (ls : List TokenKind) (l : Expr) : Prop :=
  match sofar with
  | none => Ladder 0 ls l
  | some e => Chain ls e l

/-- A sequence in round brackets is a primary phrase. -/
theorem primary_parenthesized {ks : List TokenKind} {es : List Expr} {comma : Bool}
    (h : Items ks es comma) :
    Primary (.lparen :: (ks ++ [.rparen])) (parenthesized es comma) := by
  cases es with
  | nil => exact .tuple h (by simp)
  | cons e es =>
    cases es with
    | nil =>
      cases comma with
      | false => exact .group h
      | true => exact .tuple h fun _ => rfl
    | cons => exact .tuple h (by simp)

/-- What the readers accept with this much fuel is derivable. -/
structure Sound (fuel : Nat) : Prop where
  expression {ts rest e} : expression fuel ts = .ok (e, rest) → Reads Expression ts e rest
  disjunction {ts rest e} : disjunction fuel ts = .ok (e, rest) → Reads Disjunction ts e rest
  disjunctionTail {ls l ts rest e} : Disjunction ls l → disjunctionTail fuel l ts = .ok (e, rest) →
    Reads (fun ks => Disjunction (ls ++ ks)) ts e rest
  conjunction {ts rest e} : conjunction fuel ts = .ok (e, rest) → Reads Conjunction ts e rest
  conjunctionTail {ls l ts rest e} : Conjunction ls l → conjunctionTail fuel l ts = .ok (e, rest) →
    Reads (fun ks => Conjunction (ls ++ ks)) ts e rest
  negation {ts rest e} : negation fuel ts = .ok (e, rest) → Reads Negation ts e rest
  comparison {ts rest e} : comparison fuel ts = .ok (e, rest) → Reads Comparison ts e rest
  comparisonTail {sofar ls l ts rest e} : Linked sofar ls l →
    comparisonTail fuel sofar l ts = .ok (e, rest) →
    Reads (fun ks => Comparison (ls ++ ks)) ts e rest
  ladder {least ts rest e} : least ≤ 12 → ladder fuel least ts = .ok (e, rest) →
    Reads (Ladder (least - 6)) ts e rest ∧ EndsLadder least rest
  ladderTail {least m ls l ts rest e} : least - 6 ≤ m →
    (∀ op, binaryOperator? (peek ts) = some op → op.precedence - 6 ≤ m) → Ladder m ls l →
    ladderTail fuel least l ts = .ok (e, rest) →
    Reads (fun ks => Ladder (least - 6) (ls ++ ks)) ts e rest ∧ EndsLadder least rest
  sign {ts rest e} : sign fuel ts = .ok (e, rest) → Reads Sign ts e rest
  power {ts rest e} : power fuel ts = .ok (e, rest) → Reads Power ts e rest
  trailer {ts rest e} : trailer fuel ts = .ok (e, rest) → Reads Trailer ts e rest
  trailerTail {ls l ts rest e} : Trailer ls l → trailerTail fuel l ts = .ok (e, rest) →
    Reads (fun ks => Trailer (ls ++ ks)) ts e rest
  primary {ts rest e} : primary fuel ts = .ok (e, rest) → Reads Primary ts e rest
  series {close flag ts rest es comma} : close ≠ .eof → peek ts ≠ close →
    sequence fuel close flag ts = .ok ((es, comma), rest) →
    ∃ ks, kinds ts = ks ++ close :: kinds rest ∧ Series ks es comma

/-- A sequence is empty, or a series. -/
theorem Sound.items {fuel : Nat} (s : Sound fuel) {close : TokenKind} {ts rest : List Token}
    {es : List Expr} {comma : Bool} (hclose : close ≠ .eof)
    (h : sequence fuel close false ts = .ok ((es, comma), rest)) :
    ∃ ks, kinds ts = ks ++ close :: kinds rest ∧ Items ks es comma := by
  by_cases hpeek : peek ts = close
  · cases fuel with
    | zero => simp [sequence, outOfFuel] at h
    | succ fuel =>
      rw [sequence, if_pos hpeek] at h
      cases pure_eq_ok.mp h
      exact ⟨[], kinds_of_peek hpeek hclose, .empty⟩
  · obtain ⟨ks, hks, des⟩ := s.series hclose hpeek h
    exact ⟨ks, hks, .series des⟩

section

variable {fuel : Nat} {ts rest : List Token} {e l : Expr} {ls : List TokenKind} (s : Sound fuel)

include s

theorem expression_step (h : expression (fuel + 1) ts = .ok (e, rest)) :
    Reads Expression ts e rest := by
  rw [expression] at h
  split at h
  · simp at h
  obtain ⟨⟨body, ts₁⟩, hbody, h⟩ := bind_eq_ok.mp h
  obtain ⟨ks, hks, dbody⟩ := s.disjunction hbody
  dsimp only at h
  split at h
  next hif =>
    obtain ⟨⟨cond, ts₂⟩, hcond, h⟩ := bind_eq_ok.mp h
    obtain ⟨ls, hls, dcond⟩ := s.disjunction hcond
    obtain ⟨ts₃, helse, h⟩ := bind_eq_ok.mp h
    obtain ⟨⟨other, ts₄⟩, hother, h⟩ := bind_eq_ok.mp h
    obtain ⟨ms, hms, dother⟩ := s.expression hother
    cases pure_eq_ok.mp h
    refine ⟨_, ?_, .conditional dbody dcond dother⟩
    rw [hks, kinds_of_peek hif (by decide), hls, kinds_of_expect helse, hms]
    simp
  next =>
    cases pure_eq_ok.mp h
    exact ⟨ks, hks, .plain dbody⟩

theorem disjunction_step (h : disjunction (fuel + 1) ts = .ok (e, rest)) :
    Reads Disjunction ts e rest := by
  rw [disjunction] at h
  obtain ⟨⟨l, ts₁⟩, hl, h⟩ := bind_eq_ok.mp h
  obtain ⟨ks, hks, dl⟩ := s.conjunction hl
  obtain ⟨ls, hls, he⟩ := s.disjunctionTail (.one dl) h
  exact ⟨ks ++ ls, by rw [hks, hls, List.append_assoc], he⟩

theorem disjunctionTail_step (hl : Disjunction ls l)
    (h : disjunctionTail (fuel + 1) l ts = .ok (e, rest)) :
    Reads (fun ks => Disjunction (ls ++ ks)) ts e rest := by
  rw [disjunctionTail] at h
  split at h
  next hor =>
    obtain ⟨⟨r, ts₁⟩, hr, h⟩ := bind_eq_ok.mp h
    obtain ⟨ks, hks, dr⟩ := s.conjunction hr
    obtain ⟨ms, hms, he⟩ := s.disjunctionTail (hl.more dr) h
    refine ⟨.kwOr :: ks ++ ms, ?_, by simpa using he⟩
    rw [kinds_of_peek hor (by decide), hks, hms]
    simp
  next =>
    cases pure_eq_ok.mp h
    exact ⟨[], rfl, by simpa using hl⟩

theorem conjunction_step (h : conjunction (fuel + 1) ts = .ok (e, rest)) :
    Reads Conjunction ts e rest := by
  rw [conjunction] at h
  obtain ⟨⟨l, ts₁⟩, hl, h⟩ := bind_eq_ok.mp h
  obtain ⟨ks, hks, dl⟩ := s.negation hl
  obtain ⟨ls, hls, he⟩ := s.conjunctionTail (.one dl) h
  exact ⟨ks ++ ls, by rw [hks, hls, List.append_assoc], he⟩

theorem conjunctionTail_step (hl : Conjunction ls l)
    (h : conjunctionTail (fuel + 1) l ts = .ok (e, rest)) :
    Reads (fun ks => Conjunction (ls ++ ks)) ts e rest := by
  rw [conjunctionTail] at h
  split at h
  next hand =>
    obtain ⟨⟨r, ts₁⟩, hr, h⟩ := bind_eq_ok.mp h
    obtain ⟨ks, hks, dr⟩ := s.negation hr
    obtain ⟨ms, hms, he⟩ := s.conjunctionTail (hl.more dr) h
    refine ⟨.kwAnd :: ks ++ ms, ?_, by simpa using he⟩
    rw [kinds_of_peek hand (by decide), hks, hms]
    simp
  next =>
    cases pure_eq_ok.mp h
    exact ⟨[], rfl, by simpa using hl⟩

theorem negation_step (h : negation (fuel + 1) ts = .ok (e, rest)) :
    Reads Negation ts e rest := by
  rw [negation] at h
  split at h
  next hnot =>
    obtain ⟨⟨a, ts₁⟩, ha, h⟩ := bind_eq_ok.mp h
    obtain ⟨ks, hks, da⟩ := s.negation ha
    cases pure_eq_ok.mp h
    exact ⟨.kwNot :: ks, by rw [kinds_of_peek hnot (by decide), hks]; rfl, .not da⟩
  next =>
    obtain ⟨ks, hks, he⟩ := s.comparison h
    exact ⟨ks, hks, .plain he⟩

theorem comparison_step (h : comparison (fuel + 1) ts = .ok (e, rest)) :
    Reads Comparison ts e rest := by
  rw [comparison] at h
  obtain ⟨⟨first, ts₁⟩, hfirst, h⟩ := bind_eq_ok.mp h
  obtain ⟨⟨ks, hks, dfirst⟩, -⟩ := s.ladder (Nat.zero_le _) hfirst
  have dlinked : Linked none ks first := dfirst
  obtain ⟨ls, hls, he⟩ := s.comparisonTail dlinked h
  exact ⟨ks ++ ls, by rw [hks, hls, List.append_assoc], he⟩

theorem comparisonTail_step {sofar : Option Expr} (hl : Linked sofar ls l)
    (h : comparisonTail (fuel + 1) sofar l ts = .ok (e, rest)) :
    Reads (fun ks => Comparison (ls ++ ks)) ts e rest := by
  rw [comparisonTail] at h
  split at h
  next op ts₁ hop =>
    obtain ⟨w, hw, hmem⟩ := mem_comparisons hop
    obtain ⟨⟨r, ts₂⟩, hr, h⟩ := bind_eq_ok.mp h
    obtain ⟨⟨ks, hks, dr⟩, -⟩ := s.ladder (Nat.zero_le _) hr
    have hchain : Linked (some (chained sofar (.compare l op r))) (ls ++ (w ++ ks)) r := by
      cases sofar with
      | none => exact .link hl hmem dr
      | some c => exact .more hl hmem dr
    obtain ⟨ms, hms, he⟩ := s.comparisonTail hchain h
    refine ⟨w ++ ks ++ ms, ?_, by simpa using he⟩
    rw [hw, hks, hms]
    simp
  next =>
    cases pure_eq_ok.mp h
    refine ⟨[], rfl, ?_⟩
    cases sofar with
    | none => simpa using Comparison.plain hl
    | some c => simpa using Comparison.chain hl

theorem ladder_step {least : Nat} (hleast : least ≤ 12)
    (h : ladder (fuel + 1) least ts = .ok (e, rest)) :
    Reads (Ladder (least - 6)) ts e rest ∧ EndsLadder least rest := by
  rw [ladder] at h
  obtain ⟨⟨l, ts₁⟩, hl, h⟩ := bind_eq_ok.mp h
  obtain ⟨ks, hks, dl⟩ := s.sign hl
  have hnext : ∀ op, binaryOperator? (peek ts₁) = some op → op.precedence - 6 ≤ 6 := by
    intro op hop
    have := (mem_rung hop).2.1
    omega
  obtain ⟨⟨ls, hls, he⟩, hend⟩ := s.ladderTail (by omega) hnext (.sign dl) h
  exact ⟨⟨ks ++ ls, by rw [hks, hls, List.append_assoc], he⟩, hend⟩

/-- The operand read so far is a phrase of a rung that the next operator does not exceed. -/
theorem ladderTail_step {least m : Nat} (hm : least - 6 ≤ m)
    (hnext : ∀ op, binaryOperator? (peek ts) = some op → op.precedence - 6 ≤ m)
    (hl : Ladder m ls l) (h : ladderTail (fuel + 1) least l ts = .ok (e, rest)) :
    Reads (fun ks => Ladder (least - 6) (ls ++ ks)) ts e rest ∧ EndsLadder least rest := by
  have hstop : Reads (fun ks => Ladder (least - 6) (ls ++ ks)) ts l ts :=
    ⟨[], rfl, by simpa using ladder_loosen hm hl⟩
  rw [ladderTail] at h
  split at h
  next op hop =>
    obtain ⟨hlow, hhigh, hrung⟩ := mem_rung hop
    split at h
    next hlt =>
      cases pure_eq_ok.mp h
      refine ⟨hstop, fun op' hop' => ?_⟩
      cases hop.symm.trans hop'
      exact hlt
    next hge =>
      obtain ⟨⟨r, ts₁⟩, hr, h⟩ := bind_eq_ok.mp h
      obtain ⟨⟨ks, hks, dr⟩, hend⟩ := s.ladder (by omega) hr
      have hl' : Ladder (op.precedence - 6) ls l := ladder_loosen (hnext op hop) hl
      rw [show op.precedence + 1 - 6 = op.precedence - 6 + 1 by omega] at dr
      have hnext' : ∀ op', binaryOperator? (peek ts₁) = some op' →
          op'.precedence - 6 ≤ op.precedence - 6 := by
        intro op' hop'
        have := hend op' hop'
        omega
      obtain ⟨⟨ms, hms, he⟩, hend⟩ :=
        s.ladderTail (by omega) hnext' (hl'.binary hrung dr) h
      refine ⟨⟨peek ts :: ks ++ ms, ?_, by simpa using he⟩, hend⟩
      have hpeek : peek ts ≠ .eof := by
        intro heof
        simp [heof, binaryOperator?] at hop
      rw [kinds_of_peek rfl hpeek, hks, hms]
      simp
  next hnone =>
    cases pure_eq_ok.mp h
    refine ⟨hstop, fun op hop => ?_⟩
    cases hnone.symm.trans hop

theorem sign_step (h : sign (fuel + 1) ts = .ok (e, rest)) :
    Reads Sign ts e rest := by
  rw [sign] at h
  split at h
  next op hop =>
    obtain ⟨⟨a, ts₁⟩, ha, h⟩ := bind_eq_ok.mp h
    obtain ⟨ks, hks, da⟩ := s.sign ha
    cases pure_eq_ok.mp h
    have hpeek : peek ts ≠ .eof := by
      intro heof
      simp [heof, signOperator?] at hop
    exact ⟨peek ts :: ks, by rw [kinds_of_peek rfl hpeek, hks]; rfl, sign_signed hop da⟩
  next =>
    obtain ⟨ks, hks, he⟩ := s.power h
    exact ⟨ks, hks, .power he⟩

theorem power_step (h : power (fuel + 1) ts = .ok (e, rest)) :
    Reads Power ts e rest := by
  rw [power] at h
  obtain ⟨⟨base, ts₁⟩, hbase, h⟩ := bind_eq_ok.mp h
  obtain ⟨ks, hks, dbase⟩ := s.trailer hbase
  dsimp only at h
  split at h
  next hstar =>
    obtain ⟨⟨exponent, ts₂⟩, hexp, h⟩ := bind_eq_ok.mp h
    obtain ⟨ls, hls, dexp⟩ := s.sign hexp
    cases pure_eq_ok.mp h
    refine ⟨_, ?_, .power dbase dexp⟩
    rw [hks, kinds_of_peek hstar (by decide), hls]
    simp
  next =>
    cases pure_eq_ok.mp h
    exact ⟨ks, hks, .plain dbase⟩

theorem trailer_step (h : trailer (fuel + 1) ts = .ok (e, rest)) :
    Reads Trailer ts e rest := by
  rw [trailer] at h
  obtain ⟨⟨a, ts₁⟩, ha, h⟩ := bind_eq_ok.mp h
  obtain ⟨ks, hks, da⟩ := s.primary ha
  obtain ⟨ls, hls, he⟩ := s.trailerTail (.primary da) h
  exact ⟨ks ++ ls, by rw [hks, hls, List.append_assoc], he⟩

theorem trailerTail_step (hl : Trailer ls l)
    (h : trailerTail (fuel + 1) l ts = .ok (e, rest)) :
    Reads (fun ks => Trailer (ls ++ ks)) ts e rest := by
  rw [trailerTail] at h
  split at h
  next hopen =>
    obtain ⟨⟨⟨args, comma⟩, ts₁⟩, hargs, h⟩ := bind_eq_ok.mp h
    obtain ⟨ks, hks, dargs⟩ := s.items (by decide) hargs
    obtain ⟨ms, hms, he⟩ := s.trailerTail (hl.call dargs) h
    refine ⟨.lparen :: (ks ++ [.rparen]) ++ ms, ?_, by simpa using he⟩
    rw [kinds_of_peek hopen (by decide), hks, hms]
    simp
  next hdot =>
    obtain ⟨⟨field, ts₁⟩, hfield, h⟩ := bind_eq_ok.mp h
    have dl : Trailer (ls ++ [.dot, .ident field]) (.member l field) := hl.member
    obtain ⟨ms, hms, he⟩ := s.trailerTail dl h
    refine ⟨[.dot, .ident field] ++ ms, ?_, by simpa using he⟩
    rw [kinds_of_peek hdot (by decide), kinds_of_expectIdent hfield, hms]
    simp
  next hopen =>
    obtain ⟨⟨index, ts₁⟩, hindex, h⟩ := bind_eq_ok.mp h
    obtain ⟨ks, hks, dindex⟩ := s.expression hindex
    dsimp only at h
    split at h
    · simp at h
    obtain ⟨ts₂, hclose, h⟩ := bind_eq_ok.mp h
    obtain ⟨ms, hms, he⟩ := s.trailerTail (hl.subscript dindex) h
    refine ⟨.lbracket :: (ks ++ [.rbracket]) ++ ms, ?_, by simpa using he⟩
    rw [kinds_of_peek hopen (by decide), hks, kinds_of_expect hclose, hms]
    simp
  next =>
    cases pure_eq_ok.mp h
    exact ⟨[], rfl, by simpa using hl⟩

/-- Behind a comma the sequence ends at once, or goes on with another expression. -/
theorem series_step {close : TokenKind} {flag comma : Bool} {es : List Expr} (hclose : close ≠ .eof)
    (hpeek : peek ts ≠ close) (h : sequence (fuel + 1) close flag ts = .ok ((es, comma), rest)) :
    ∃ ks, kinds ts = ks ++ close :: kinds rest ∧ Series ks es comma := by
  rw [sequence, if_neg hpeek] at h
  split at h
  · simp at h
  obtain ⟨⟨a, ts₁⟩, ha, h⟩ := bind_eq_ok.mp h
  obtain ⟨ks, hks, da⟩ := s.expression ha
  dsimp only at h
  split at h
  · simp at h
  split at h
  next hcomma =>
    obtain ⟨⟨⟨more, flag'⟩, ts₂⟩, hmore, h⟩ := bind_eq_ok.mp h
    cases pure_eq_ok.mp h
    by_cases hpeek' : peek (ts₁.drop 1) = close
    · cases fuel with
      | zero => simp [sequence, outOfFuel] at hmore
      | succ fuel =>
        rw [sequence, if_pos hpeek'] at hmore
        cases pure_eq_ok.mp hmore
        refine ⟨ks ++ [.comma], ?_, .comma da⟩
        rw [hks, kinds_of_peek hcomma (by decide), kinds_of_peek hpeek' hclose]
        simp
    · obtain ⟨ls, hls, dmore⟩ := s.series hclose hpeek' hmore
      refine ⟨ks ++ .comma :: ls, ?_, .more da dmore⟩
      rw [hks, kinds_of_peek hcomma (by decide), hls]
      simp
  next =>
    obtain ⟨ts₂, hexpect, h⟩ := bind_eq_ok.mp h
    cases pure_eq_ok.mp h
    exact ⟨ks, by rw [hks, kinds_of_expect hexpect], .last da⟩

theorem primary_step (h : primary (fuel + 1) ts = .ok (e, rest)) :
    Reads Primary ts e rest := by
  rw [primary] at h
  dsimp only at h
  split at h
  next n hk => cases pure_eq_ok.mp h; exact ⟨_, kinds_of_peek hk (by simp), .int n⟩
  next x hk => cases pure_eq_ok.mp h; exact ⟨_, kinds_of_peek hk (by simp), .float x⟩
  next s hk => cases pure_eq_ok.mp h; exact ⟨_, kinds_of_peek hk (by simp), .str s⟩
  next hk => cases pure_eq_ok.mp h; exact ⟨_, kinds_of_peek hk (by simp), .yes⟩
  next hk => cases pure_eq_ok.mp h; exact ⟨_, kinds_of_peek hk (by simp), .no⟩
  next hk => cases pure_eq_ok.mp h; exact ⟨_, kinds_of_peek hk (by simp), .nothing⟩
  next n hk => cases pure_eq_ok.mp h; exact ⟨_, kinds_of_peek hk (by simp), .name n⟩
  next hopen =>
    obtain ⟨⟨⟨items, comma⟩, ts₁⟩, hitems, h⟩ := bind_eq_ok.mp h
    obtain ⟨ks, hks, ditems⟩ := s.items (by decide) hitems
    cases pure_eq_ok.mp h
    refine ⟨.lparen :: (ks ++ [.rparen]), ?_, primary_parenthesized ditems⟩
    rw [kinds_of_peek hopen (by decide), hks]
    simp
  next hopen =>
    obtain ⟨⟨⟨items, comma⟩, ts₁⟩, hitems, h⟩ := bind_eq_ok.mp h
    obtain ⟨ks, hks, ditems⟩ := s.items (by decide) hitems
    cases pure_eq_ok.mp h
    refine ⟨.lbracket :: (ks ++ [.rbracket]), ?_, .list ditems⟩
    rw [kinds_of_peek hopen (by decide), hks]
    simp
  next => simp at h

end

theorem sound (fuel : Nat) : Sound fuel := by
  induction fuel with
  | zero =>
    constructor <;> intros <;> simp_all [expression, disjunction, disjunctionTail, conjunction,
      conjunctionTail, negation, comparison, comparisonTail, ladder, ladderTail, sign, power, trailer,
      trailerTail, primary, sequence, outOfFuel]
  | succ fuel s =>
    exact ⟨expression_step s, disjunction_step s, disjunctionTail_step s, conjunction_step s,
      conjunctionTail_step s, negation_step s, comparison_step s, comparisonTail_step s, ladder_step s,
      ladderTail_step s, sign_step s, power_step s, trailer_step s, trailerTail_step s, primary_step s,
      series_step s⟩

end Expr

end Comprehend
