import Comprehend.Proofs.GrammarComplete

/-! Failures of readers. A reader of expressions never passes the end mark and never runs out of
fuel: whatever the tokens are, it leaves some of them, or it fails at tokens that are there. -/
namespace Comprehend

namespace Parse

variable {α β : Type} {ts rest : List Token} {e : ParseError} {fault : ParseFault}

def Ended (ts : List Token) : Prop :=
  ∃ us last, ts = us ++ [last] ∧ last.kind = .eof

theorem Ended.ne_nil (h : Ended ts) : ts ≠ [] := by
  obtain ⟨us, last, rfl, -⟩ := h
  simp

/-- A token that is not the end mark may be taken. -/
theorem Ended.drop (h : Ended ts) (hpeek : peek ts ≠ .eof) : Ended (ts.drop 1) := by
  obtain ⟨us, last, rfl, hlast⟩ := h
  cases us with
  | nil => exact absurd hlast hpeek
  | cons u us => exact ⟨us, last, rfl, hlast⟩

theorem Ended.dropWhile {p : Token → Bool} (h : Ended ts) (hp : ∀ t, t.kind = .eof → p t = false) :
    Ended (ts.dropWhile p) := by
  obtain ⟨us, last, rfl, hlast⟩ := h
  rw [List.dropWhile_append]
  split
  · exact ⟨[], last, by simp [hp last hlast], hlast⟩
  · exact ⟨us.dropWhile p, last, rfl, hlast⟩

/-- A failure at tokens that are there, from one of them to another. -/
structure FailsIn (ts : List Token) (e : ParseError) : Prop where
  fault : e.fault ≠ .ranOut
  span : ∃ t ∈ ts, ∃ u ∈ ts, e.span = t.span.merge u.span

theorem FailsIn.mono (h : FailsIn rest e) (hrest : rest ⊆ ts) : FailsIn ts e := by
  obtain ⟨hfault, t, ht, u, hu, hspan⟩ := h
  exact ⟨hfault, t, hrest ht, u, hrest hu, hspan⟩

theorem failsIn_token {t : Token} (ht : t ∈ ts) (hfault : fault ≠ .ranOut) :
    FailsIn ts ⟨fault, t.span⟩ :=
  ⟨hfault, t, ht, t, ht, by simp [Span.merge]⟩

/-- A reading gives what is described, or fails at some of the tokens. -/
def Settles (P : α → Prop) (ts : List Token) : Attempt α → Prop
  | .ok a => P a
  | .error e => FailsIn ts e

section

variable {P : α → Prop} {Q : β → Prop} {x : Attempt α}

theorem Settles.mono (h : Settles P rest x) (hrest : rest ⊆ ts) : Settles P ts x := by
  cases x with
  | error e => exact FailsIn.mono h hrest
  | ok a => exact h

theorem Settles.imp {P' : α → Prop} (h : Settles P ts x) (hP : ∀ a, P a → P' a) :
    Settles P' ts x := by
  cases x with
  | error e => exact h
  | ok a => exact hP a h

theorem Settles.bind {f : α → Attempt β} (h : Settles P ts x)
    (hf : ∀ a, P a → Settles Q ts (f a)) : Settles Q ts (x >>= f) := by
  cases x with
  | error e => exact h
  | ok a => exact hf a h

theorem settles_pure {a : α} (h : P a) : Settles P ts (pure a) :=
  h

theorem settles_failAt (h : Ended ts) (hfault : fault ≠ .ranOut) :
    Settles P ts (failAt fault ts) := by
  cases ts with
  | nil => exact absurd rfl h.ne_nil
  | cons t ts => exact failsIn_token List.mem_cons_self hfault

/-- A token of the wanted kind is taken, or its place is where reading fails. -/
theorem settles_expect (h : Ended ts) (want : TokenKind) :
    Settles (fun rest => ∃ t, ts = t :: rest ∧ t.kind = want) ts (expect want ts) := by
  cases ts with
  | nil => exact absurd rfl h.ne_nil
  | cons t rest =>
    rw [expect]
    split
    next hk => exact ⟨t, rfl, hk⟩
    next => exact settles_failAt h (by simp)

end

/-- A reading leaves some of the tokens that were ahead, as described, or fails at some of them. -/
def Reaches (P : α → List Token → Prop) (ts : List Token) (x : Attempt (α × List Token)) : Prop :=
  Settles (fun y => y.2 <:+ ts ∧ P y.1 y.2) ts x

variable {P : α → List Token → Prop} {Q : β → List Token → Prop} {x : Attempt (α × List Token)}

theorem Reaches.mono (h : Reaches P rest x) (hrest : rest <:+ ts) : Reaches P ts x := by
  cases x with
  | error e => exact FailsIn.mono h hrest.subset
  | ok a => exact ⟨h.1.trans hrest, h.2⟩

/-- A reading that goes on may still fail at the tokens it began with. -/
theorem Reaches.bindWithin {f : α × List Token → Attempt (β × List Token)} (h : Reaches P ts x)
    (hf : ∀ a rest, rest <:+ ts → P a rest → Reaches Q ts (f (a, rest))) :
    Reaches Q ts (x >>= f) :=
  Settles.bind h fun a ha => hf a.1 a.2 ha.1 ha.2

theorem Reaches.bind {f : α × List Token → Attempt (β × List Token)} (h : Reaches P ts x)
    (hf : ∀ a rest, rest <:+ ts → P a rest → Reaches Q rest (f (a, rest))) :
    Reaches Q ts (x >>= f) :=
  h.bindWithin fun a rest hrest ha => (hf a rest hrest ha).mono hrest

theorem reaches_pure {a : α} (h : P a ts) : Reaches P ts (pure (a, ts)) :=
  ⟨List.suffix_rfl, h⟩

/-- A reading behind the first token. -/
theorem Reaches.behind (h : Reaches P (ts.drop 1) x) : Reaches P ts x :=
  h.mono (List.drop_suffix 1 ts)

theorem reaches_failAt (h : Ended ts) (hfault : fault ≠ .ranOut) :
    Reaches P ts (failAt fault ts) :=
  settles_failAt h hfault

theorem reaches_expect {want : TokenKind} {f : List Token → Attempt (α × List Token)}
    (h : Ended ts) (hf : ∀ t rest, ts = t :: rest → t.kind = want → Reaches P rest (f rest)) :
    Reaches P ts (expect want ts >>= f) := by
  refine (settles_expect h want).bind fun rest hrest => ?_
  obtain ⟨t, rfl, hk⟩ := hrest
  exact (hf t rest rfl hk).mono (List.suffix_cons t rest)

theorem reaches_expectIdent (h : Ended ts) :
    Reaches (fun name rest => ∃ span, ts = ⟨.ident name, span⟩ :: rest) ts (expectIdent ts) := by
  unfold expectIdent
  split
  next name span rest => exact ⟨List.suffix_cons _ rest, span, rfl⟩
  next => exact reaches_failAt h (by simp)

/-- A reading leaves tokens up to the end mark, or fails at tokens that were ahead. -/
abbrev Halts (ts : List Token) (x : Attempt (α × List Token)) : Prop :=
  Reaches (fun _ => Ended) ts x

end Parse

namespace Expr

open Parse

/-- The tokens go up to an end mark, and there is fuel to read them. -/
structure Ready (fuel height : Nat) (ts : List Token) : Prop where
  ended : Ended ts
  enough : Enough fuel height ts

namespace Ready

variable {α β : Type} {fuel height height' : Nat} {ts rest : List Token} {fault : ParseFault}

theorem next (h : Ready (fuel + 1) (height + 1) ts) : Ready fuel height ts :=
  ⟨h.ended, by have := h.enough; unfold Enough at *; omega⟩

theorem lower (h : Ready fuel height ts) (hheight : height' ≤ height) : Ready fuel height' ts :=
  ⟨h.ended, by have := h.enough; unfold Enough at *; omega⟩

theorem suffix (h : Ready fuel height ts) (hrest : rest <:+ ts) (hended : Ended rest) :
    Ready fuel height rest :=
  ⟨hended, by have := h.enough; have := hrest.length_le; unfold Enough at *; omega⟩

/-- Behind a token there is fuel for another descent. -/
theorem drop (h : Ready fuel height ts) (hpeek : peek ts ≠ .eof) : Ready fuel 15 (ts.drop 1) := by
  refine ⟨h.ended.drop hpeek, ?_⟩
  obtain ⟨t, us, rfl⟩ := List.exists_cons_of_ne_nil h.ended.ne_nil
  exact h.enough.tail (by omega)

theorem pure (h : Ready fuel height ts) (a : α) : Halts ts (Pure.pure (a, ts)) :=
  reaches_pure h.ended

theorem fail (h : Ready fuel height ts) (hfault : fault ≠ .ranOut) :
    Halts ts (failAt fault ts : Attempt (α × List Token)) :=
  reaches_failAt h.ended hfault

/-- What is left by one reading is ready for the next. -/
theorem bind (h : Ready fuel height ts) {x : Attempt (α × List Token)}
    {f : α × List Token → Attempt (β × List Token)} (hx : Halts ts x)
    (hf : ∀ a rest, Ready fuel height rest → Halts rest (f (a, rest))) : Halts ts (x >>= f) :=
  hx.bind fun a rest hrest hended => hf a rest (h.suffix hrest hended)

theorem expect (h : Ready fuel height ts) {want : TokenKind}
    {f : List Token → Attempt (α × List Token)} (hwant : want ≠ .eof)
    (hf : ∀ rest, Ready fuel 15 rest → Halts rest (f rest)) :
    Halts ts (Parse.expect want ts >>= f) := by
  refine reaches_expect h.ended fun t rest hts hk => hf rest ?_
  subst hts
  exact h.drop fun heof => hwant (hk.symm.trans heof)

end Ready

structure Halting (fuel : Nat) : Prop where
  expression {ts} : Ready fuel 14 ts → Halts ts (expression fuel ts)
  disjunction {ts} : Ready fuel 13 ts → Halts ts (disjunction fuel ts)
  disjunctionTail {l ts} : Ready fuel 1 ts → Halts ts (disjunctionTail fuel l ts)
  conjunction {ts} : Ready fuel 12 ts → Halts ts (conjunction fuel ts)
  conjunctionTail {l ts} : Ready fuel 1 ts → Halts ts (conjunctionTail fuel l ts)
  negation {ts} : Ready fuel 11 ts → Halts ts (negation fuel ts)
  comparison {ts} : Ready fuel 10 ts → Halts ts (comparison fuel ts)
  comparisonTail {sofar l ts} : Ready fuel 1 ts → Halts ts (comparisonTail fuel sofar l ts)
  ladder {least ts} : Ready fuel 9 ts → Halts ts (ladder fuel least ts)
  ladderTail {least l ts} : Ready fuel 1 ts → Halts ts (ladderTail fuel least l ts)
  sign {ts} : Ready fuel 8 ts → Halts ts (sign fuel ts)
  power {ts} : Ready fuel 7 ts → Halts ts (power fuel ts)
  trailer {ts} : Ready fuel 6 ts → Halts ts (trailer fuel ts)
  trailerTail {e ts} : Ready fuel 1 ts → Halts ts (trailerTail fuel e ts)
  primary {ts} : Ready fuel 5 ts → Halts ts (primary fuel ts)
  sequence {close comma ts} : close ≠ .eof → Ready fuel 15 ts →
    Halts ts (sequence fuel close comma ts)

section

variable {fuel : Nat} {ts : List Token} {e l : Expr} (s : Halting fuel)

include s

theorem expression_halts (h : Ready (fuel + 1) 14 ts) : Halts ts (expression (fuel + 1) ts) := by
  rw [expression]
  split
  · exact h.fail (by simp)
  refine h.next.bind (s.disjunction h.next) fun body ts₁ h₁ => ?_
  dsimp only
  split
  next hif =>
    have h₂ := h₁.drop (by simp [hif])
    refine (h₂.bind (s.disjunction (h₂.lower (by decide))) fun cond ts₃ h₃ => ?_).behind
    refine h₃.expect (by decide) fun ts₄ h₄ => ?_
    exact h₄.bind (s.expression (h₄.lower (by decide))) fun no ts₅ h₅ => h₅.pure _
  next => exact h₁.pure _

theorem disjunction_halts (h : Ready (fuel + 1) 13 ts) : Halts ts (disjunction (fuel + 1) ts) := by
  rw [disjunction]
  refine h.next.bind (s.conjunction h.next) fun l ts₁ h₁ => ?_
  exact s.disjunctionTail (h₁.lower (by decide))

theorem disjunctionTail_halts (h : Ready (fuel + 1) 1 ts) :
    Halts ts (disjunctionTail (fuel + 1) l ts) := by
  rw [disjunctionTail]
  split
  next hor =>
    have h₁ := h.next.drop (by simp [hor])
    refine (h₁.bind (s.conjunction (h₁.lower (by decide))) fun r ts₂ h₂ => ?_).behind
    exact s.disjunctionTail (h₂.lower (by decide))
  next => exact h.pure _

theorem conjunction_halts (h : Ready (fuel + 1) 12 ts) : Halts ts (conjunction (fuel + 1) ts) := by
  rw [conjunction]
  refine h.next.bind (s.negation h.next) fun l ts₁ h₁ => ?_
  exact s.conjunctionTail (h₁.lower (by decide))

theorem conjunctionTail_halts (h : Ready (fuel + 1) 1 ts) :
    Halts ts (conjunctionTail (fuel + 1) l ts) := by
  rw [conjunctionTail]
  split
  next hand =>
    have h₁ := h.next.drop (by simp [hand])
    refine (h₁.bind (s.negation (h₁.lower (by decide))) fun r ts₂ h₂ => ?_).behind
    exact s.conjunctionTail (h₂.lower (by decide))
  next => exact h.pure _

theorem negation_halts (h : Ready (fuel + 1) 11 ts) : Halts ts (negation (fuel + 1) ts) := by
  rw [negation]
  split
  next hnot =>
    have h₁ := h.next.drop (by simp [hnot])
    refine (h₁.bind (s.negation (h₁.lower (by decide))) fun e ts₂ h₂ => ?_).behind
    exact h₂.pure _
  next => exact s.comparison h.next

theorem comparison_halts (h : Ready (fuel + 1) 10 ts) : Halts ts (comparison (fuel + 1) ts) := by
  rw [comparison]
  refine h.next.bind (s.ladder h.next) fun first ts₁ h₁ => ?_
  exact s.comparisonTail (h₁.lower (by decide))

omit s in
/-- An operator is of one token or of two, and what is left is ready. -/
theorem Ready.comparison? {height : Nat} {op : CmpOp} {rest : List Token}
    (h : Ready fuel height ts) (hop : comparison? ts = some (op, rest)) :
    rest <:+ ts ∧ Ready fuel 15 rest := by
  have hone {k : TokenKind} (hk : peek ts = k) (hne : k ≠ .eof) :
      ts.drop 1 <:+ ts ∧ Ready fuel 15 (ts.drop 1) :=
    ⟨List.drop_suffix 1 ts, h.drop (hk ▸ hne)⟩
  have htwo {k k' : TokenKind} (hk : peek ts = k) (hne : k ≠ .eof) (hk' : peek (ts.drop 1) = k')
      (hne' : k' ≠ .eof) : (ts.drop 1).drop 1 <:+ ts ∧ Ready fuel 15 ((ts.drop 1).drop 1) := by
    obtain ⟨hsuffix, h₁⟩ := hone hk hne
    exact ⟨(List.drop_suffix 1 _).trans hsuffix, h₁.drop (hk' ▸ hne')⟩
  unfold Expr.comparison? at hop
  cases hk : peek ts with
  | kwNot =>
    simp only [hk, Option.ite_none_right_eq_some, Option.some.injEq, Prod.mk.injEq] at hop
    obtain ⟨hin, -, rfl⟩ := hop
    exact htwo hk (by decide) hin (by decide)
  | kwIs =>
    simp only [hk] at hop
    split at hop
    next hnot =>
      obtain ⟨-, rfl⟩ := Prod.mk.inj (Option.some.inj hop)
      exact htwo hk (by decide) hnot (by decide)
    next =>
      obtain ⟨-, rfl⟩ := Prod.mk.inj (Option.some.inj hop)
      exact hone hk (by decide)
  | _ =>
    simp only [hk, Option.some.injEq, Prod.mk.injEq, reduceCtorEq] at hop
    all_goals
      obtain ⟨-, rfl⟩ := hop
      exact hone hk (by decide)

theorem comparisonTail_halts {sofar : Option Expr} (h : Ready (fuel + 1) 1 ts) :
    Halts ts (comparisonTail (fuel + 1) sofar l ts) := by
  rw [comparisonTail]
  split
  next op ts₁ hop =>
    obtain ⟨hsuffix, h₁⟩ := h.next.comparison? hop
    refine (h₁.bind (s.ladder (h₁.lower (by decide))) fun r ts₂ h₂ => ?_).mono hsuffix
    exact s.comparisonTail (h₂.lower (by decide))
  next => exact h.pure _

theorem ladder_halts {least : Nat} (h : Ready (fuel + 1) 9 ts) :
    Halts ts (ladder (fuel + 1) least ts) := by
  rw [ladder]
  refine h.next.bind (s.sign h.next) fun l ts₁ h₁ => ?_
  exact s.ladderTail (h₁.lower (by decide))

theorem ladderTail_halts {least : Nat} (h : Ready (fuel + 1) 1 ts) :
    Halts ts (ladderTail (fuel + 1) least l ts) := by
  rw [ladderTail]
  split
  next op hop =>
    split
    · exact h.pure _
    have hpeek : peek ts ≠ .eof := by
      intro heof
      simp [heof, binaryOperator?] at hop
    have h₁ := h.next.drop hpeek
    refine (h₁.bind (s.ladder (h₁.lower (by decide))) fun r ts₂ h₂ => ?_).behind
    exact s.ladderTail (h₂.lower (by decide))
  next => exact h.pure _

theorem sign_halts (h : Ready (fuel + 1) 8 ts) : Halts ts (sign (fuel + 1) ts) := by
  rw [sign]
  split
  next op hop =>
    have hpeek : peek ts ≠ .eof := by
      intro heof
      simp [heof, signOperator?] at hop
    have h₁ := h.next.drop hpeek
    refine (h₁.bind (s.sign (h₁.lower (by decide))) fun e ts₂ h₂ => ?_).behind
    exact h₂.pure _
  next => exact s.power h.next

theorem power_halts (h : Ready (fuel + 1) 7 ts) : Halts ts (power (fuel + 1) ts) := by
  rw [power]
  refine h.next.bind (s.trailer h.next) fun base ts₁ h₁ => ?_
  dsimp only
  split
  next hstar =>
    have h₂ := h₁.drop (by simp [hstar])
    refine (h₂.bind (s.sign (h₂.lower (by decide))) fun exponent ts₃ h₃ => ?_).behind
    exact h₃.pure _
  next => exact h₁.pure _

theorem trailer_halts (h : Ready (fuel + 1) 6 ts) : Halts ts (trailer (fuel + 1) ts) := by
  rw [trailer]
  refine h.next.bind (s.primary h.next) fun e ts₁ h₁ => ?_
  exact s.trailerTail (h₁.lower (by decide))

theorem trailerTail_halts (h : Ready (fuel + 1) 1 ts) :
    Halts ts (trailerTail (fuel + 1) e ts) := by
  rw [trailerTail]
  split
  next hopen =>
    have h₁ := h.next.drop (by simp [hopen])
    refine (h₁.bind (s.sequence (by decide) h₁) fun args ts₂ h₂ => ?_).behind
    exact s.trailerTail (h₂.lower (by decide))
  next hdot =>
    have h₁ := h.next.drop (by simp [hdot])
    refine ((reaches_expectIdent h₁.ended).bind fun field ts₂ _ hfield => ?_).behind
    obtain ⟨span, hts⟩ := hfield
    rw [hts] at h₁
    exact s.trailerTail ((h₁.drop (by simp [peek])).lower (by decide))
  next hopen =>
    have h₁ := h.next.drop (by simp [hopen])
    refine (h₁.bind (s.expression (h₁.lower (by decide))) fun index ts₂ h₂ => ?_).behind
    dsimp only
    split
    · exact h₂.fail (by simp)
    refine h₂.expect (by decide) fun ts₃ h₃ => ?_
    exact s.trailerTail (h₃.lower (by decide))
  next => exact h.pure _

theorem primary_halts (h : Ready (fuel + 1) 5 ts) : Halts ts (primary (fuel + 1) ts) := by
  have htoken {k : TokenKind} (hk : peek ts = k) (hne : k ≠ .eof) (e : Expr) :
      Halts ts (pure (e, ts.drop 1)) :=
    ((h.drop (hk ▸ hne)).pure e).behind
  rw [primary]
  dsimp only
  split
  next n hk => exact htoken hk (by simp) _
  next x hk => exact htoken hk (by simp) _
  next s hk => exact htoken hk (by simp) _
  next hk => exact htoken hk (by simp) _
  next hk => exact htoken hk (by simp) _
  next hk => exact htoken hk (by simp) _
  next n hk => exact htoken hk (by simp) _
  next hopen =>
    have h₁ := h.next.drop (by simp [hopen])
    refine (h₁.bind (s.sequence (by decide) h₁) fun items ts₂ h₂ => ?_).behind
    exact h₂.pure _
  next hopen =>
    have h₁ := h.next.drop (by simp [hopen])
    refine (h₁.bind (s.sequence (by decide) h₁) fun items ts₂ h₂ => ?_).behind
    exact h₂.pure _
  next => exact h.fail (by simp)

theorem sequence_halts {close : TokenKind} {comma : Bool} (hclose : close ≠ .eof)
    (h : Ready (fuel + 1) 15 ts) : Halts ts (sequence (fuel + 1) close comma ts) := by
  rw [sequence]
  split
  next hpeek => exact ((h.drop (hpeek ▸ hclose)).pure _).behind
  split
  · exact h.fail (by simp)
  refine h.next.bind (s.expression h.next) fun e ts₁ h₁ => ?_
  dsimp only
  split
  · exact h₁.fail (by simp)
  split
  next hcomma =>
    have h₂ := h₁.drop (by simp [hcomma])
    refine (h₂.bind (s.sequence hclose h₂) fun more ts₃ h₃ => ?_).behind
    exact h₃.pure _
  next => exact h₁.expect hclose fun ts₂ h₂ => h₂.pure _

end

theorem halting (fuel : Nat) : Halting fuel := by
  induction fuel with
  | zero =>
    have hnever {height : Nat} {ts : List Token} (h : Ready 0 (height + 1) ts) : False := by
      have := h.enough
      unfold Enough at this
      omega
    constructor <;> intros <;> exact absurd ‹Ready _ _ _› hnever
  | succ fuel s =>
    exact ⟨expression_halts s, disjunction_halts s, disjunctionTail_halts s, conjunction_halts s,
      conjunctionTail_halts s, negation_halts s, comparison_halts s, comparisonTail_halts s,
      ladder_halts s, ladderTail_halts s, sign_halts s, power_halts s, trailer_halts s,
      trailerTail_halts s, primary_halts s, sequence_halts s⟩

/-- Tokens up to an end mark make an expression, or reading fails at some of them. -/
theorem ofTokens_settles {ts : List Token} (h : Ended ts) :
    Settles (fun _ => True) ts (ofTokens ts) := by
  have hready : Ready (16 * (ts.length + 1)) 14 ts := ⟨h, by unfold Enough; omega⟩
  refine Settles.bind ((halting _).expression hready) fun x hx => ?_
  dsimp only
  split
  · exact settles_pure trivial
  · exact (settles_failAt hx.2 (by simp)).mono hx.1.subset

end Expr

end Comprehend
