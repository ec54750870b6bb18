import Mathlib.Data.List.Basic
import Comprehend.Parse.Stream

/-! A cursor over tokens. A reader may keep all tokens and the index of the next one, instead of the
tokens ahead. Then it can go wrong in ways that the tokens ahead exclude: the cursor may pass the end
mark, an index may lie outside, a count may be lowered below zero. A traced reading records every
such act, so that all of them can be judged; it agrees with a reading of the tokens ahead if the
outcome is the same and every act is safe. -/
namespace Comprehend

/-- What a reader with a cursor does that may go wrong. -/
inductive Act where
  /-- The cursor is put to an index; the end mark has the index `last`. -/
  | move (pos last : Nat)
  /-- The token of an index is looked up, out of `size` tokens. -/
  | look (i size : Nat)
  /-- The tokens from one index up to another are taken out, out of `size` tokens. -/
  | cut (i j size : Nat)
  /-- A number that cannot be negative is lowered by one. -/
  | lower (n : Nat)
deriving DecidableEq

def Act.Safe : Act → Prop
  | move pos last => pos ≤ last
  | look i size => i < size
  | cut i j size => i ≤ j ∧ j ≤ size
  | lower n => 0 < n

instance : (act : Act) → Decidable act.Safe
  | .move pos last => inferInstanceAs (Decidable (pos ≤ last))
  | .look i size => inferInstanceAs (Decidable (i < size))
  | .cut .. => inferInstanceAs (Decidable (_ ∧ _))
  | .lower n => inferInstanceAs (Decidable (0 < n))

/-- The outcome of a reading, and what was done on the way to it. -/
structure Traced (α : Type) where
  outcome : Attempt α
  acts : List Act

namespace Traced

variable {α β γ δ : Type}

instance : Monad Traced where
  pure a := ⟨.ok a, []⟩
  bind x f :=
    match x.outcome with
    | .ok a => ⟨(f a).outcome, x.acts ++ (f a).acts⟩
    | .error e => ⟨.error e, x.acts⟩

def refuse (e : ParseError) : Traced α :=
  ⟨.error e, []⟩

def outOfFuel : Traced α :=
  refuse ⟨.ranOut, default⟩

def Safe (x : Traced α) : Prop :=
  ∀ act ∈ x.acts, act.Safe

structure Yields (x : Traced α) (a : α) : Prop where
  safe : x.Safe
  outcome : x.outcome = .ok a

/-- Both give a result, and the two are related, or both fail in the same way. -/
def Matches (R : α → β → Prop) : Attempt α → Attempt β → Prop
  | .ok a, .ok b => R a b
  | .error e, .error e' => e = e'
  | _, _ => False

/-- Nothing goes wrong, and the outcome is as in the reading `y`. -/
structure Agrees (R : α → β → Prop) (x : Traced α) (y : Attempt β) : Prop where
  safe : x.Safe
  outcome : Matches R x.outcome y

variable {R : α → β → Prop} {S : γ → δ → Prop} {x : Traced α} {y : Attempt β} {a : α} {b : β}

theorem yields_pure (a : α) : Yields (pure a) a :=
  ⟨List.forall_mem_nil _, rfl⟩

theorem agrees_pure (h : R a b) : Agrees R (pure a) (pure b) :=
  ⟨List.forall_mem_nil _, h⟩

theorem agrees_refuse (e : ParseError) : Agrees R (refuse e) (.error e) :=
  ⟨List.forall_mem_nil _, rfl⟩

theorem agrees_outOfFuel : Agrees R outOfFuel (Parse.failAt .ranOut []) :=
  agrees_refuse _

theorem Yields.agrees_ok (h : Yields x a) (hab : R a b) : Agrees R x (.ok b) :=
  ⟨h.safe, by rw [h.outcome]; exact hab⟩

theorem Yields.agrees {f : α → Traced γ} {z : Attempt δ} (h : Yields x a)
    (hf : Agrees S (f a) z) : Agrees S (x >>= f) z := by
  obtain ⟨outcome, acts⟩ := x
  obtain ⟨hsafe, rfl⟩ := h
  exact ⟨List.forall_mem_append.mpr ⟨hsafe, hf.safe⟩, hf.outcome⟩

theorem Yields.bind {f : α → Traced γ} {c : γ} (h : Yields x a) (hf : Yields (f a) c) :
    Yields (x >>= f) c := by
  obtain ⟨outcome, acts⟩ := x
  obtain ⟨hsafe, rfl⟩ := h
  exact ⟨List.forall_mem_append.mpr ⟨hsafe, hf.safe⟩, hf.outcome⟩

theorem Agrees.bind {f : α → Traced γ} {g : β → Attempt δ} (h : Agrees R x y)
    (hf : ∀ a b, R a b → Agrees S (f a) (g b)) : Agrees S (x >>= f) (y >>= g) := by
  obtain ⟨outcome, acts⟩ := x
  obtain ⟨hsafe, hmatches⟩ := h
  cases outcome with
  | error e =>
    cases y with
    | error e' => exact ⟨hsafe, hmatches⟩
    | ok b => exact hmatches.elim
  | ok a =>
    cases y with
    | error e' => exact hmatches.elim
    | ok b =>
      have hnext := hf a b hmatches
      exact ⟨List.forall_mem_append.mpr ⟨hsafe, hnext.safe⟩, hnext.outcome⟩

/-- What the other reading makes of its result needs no act. -/
theorem Agrees.bindRight {T : α → δ → Prop} {g : β → Attempt δ} (h : Agrees R x y)
    (hg : ∀ a b, R a b → Matches T (.ok a) (g b)) : Agrees T x (y >>= g) := by
  obtain ⟨outcome, acts⟩ := x
  obtain ⟨hsafe, hmatches⟩ := h
  refine ⟨hsafe, ?_⟩
  cases outcome with
  | error e =>
    cases y with
    | error e' => exact hmatches
    | ok b => exact hmatches.elim
  | ok a =>
    cases y with
    | error e' => exact hmatches.elim
    | ok b => exact hg a b hmatches

/-- Readings with results that are the same have the same outcome. -/
theorem Agrees.outcome_eq {y : Attempt α} (h : Agrees Eq x y) : x.outcome = y := by
  have hmatches := h.outcome
  revert hmatches
  cases x.outcome <;> cases y <;> simp [Matches]

theorem Agrees.of_outcome_eq {y : Attempt α} (hsafe : x.Safe) (h : x.outcome = y) :
    Agrees Eq x y := by
  refine ⟨hsafe, ?_⟩
  subst h
  cases x.outcome <;> rfl

end Traced

namespace Cursor

open Traced

/-! Looking and moving -/

section

variable (ts : List Token)

def endIndex : Nat :=
  ts.findIdx (·.kind = .eof)

/-- The kind of the token of an index; outside it is that of the end mark. -/
def kindAt (i : Nat) : TokenKind :=
  (ts[i]?.map (·.kind)).getD .eof

def spanAt (i : Nat) : Span :=
  (ts[i]?.map (·.span)).getD default

def failAt {α : Type} (fault : ParseFault) (pos : Nat) : Traced α :=
  refuse ⟨fault, spanAt ts pos⟩

def look (i : Nat) : Traced Token where
  outcome :=
    match ts[i]? with
    | some t => .ok t
    | none => .error ⟨.ranOut, default⟩
  acts := [.look i ts.length]

def stretch (i j : Nat) : List Token :=
  (ts.drop i).take (j - i)

def cut (i j : Nat) : Traced (List Token) :=
  ⟨.ok (stretch ts i j), [.cut i j ts.length]⟩

def moveTo (pos : Nat) : Traced Nat :=
  ⟨.ok pos, [.move pos (endIndex ts)]⟩

def lower (n : Nat) : Traced Nat :=
  ⟨.ok (n - 1), [.lower n]⟩

def advance (pos : Nat) : Traced (Token × Nat) := do
  let last ← lower ts.length
  let t ← look ts (min pos last)
  let pos ← moveTo ts (if pos < ts.length then pos + 1 else pos)
  return (t, pos)

def expect (want : TokenKind) (pos : Nat) : Traced Nat := do
  if kindAt ts pos = want then
    let (_, pos) ← advance ts pos
    return pos
  else failAt ts (.expected want (kindAt ts pos)) pos

def expectIdent (pos : Nat) : Traced (String × Nat) := do
  match kindAt ts pos with
  | .ident name =>
    let (_, pos) ← advance ts pos
    return (name, pos)
  | k => failAt ts (.expectedIdentifier k) pos

def startsKeyword (pos : Nat) : Bool :=
  match kindAt ts pos with
  | .ident _ => kindAt ts (pos + 1) = .assign
  | _ => false

end

/-! Within the tokens -/

variable {α β γ : Type} {ts : List Token} {pos i : Nat} {t : Token} {fault : ParseFault}

/-- The end mark is the last token and no other one, and the cursor has not passed it. -/
structure Inside (ts : List Token) (pos : Nat) : Prop where
  ended : endIndex ts + 1 = ts.length
  le : pos ≤ endIndex ts

theorem inside_start {us : List Token} {last : Token} (hus : ∀ t ∈ us, t.kind ≠ .eof)
    (hlast : last.kind = .eof) : Inside (us ++ [last]) 0 := by
  have hnone : us.findIdx (·.kind = .eof) = us.length :=
    List.findIdx_eq_length_of_false fun t ht => decide_eq_false (hus t ht)
  have hend : endIndex (us ++ [last]) = us.length := by
    simp [endIndex, List.findIdx_append, hnone, List.findIdx_cons, hlast]
  exact ⟨by simp [hend], Nat.zero_le _⟩

def PointsTo (ts : List Token) (x : α × Nat) (y : α × List Token) : Prop :=
  x.1 = y.1 ∧ Inside ts x.2 ∧ y.2 = ts.drop x.2

/-- A reading with the cursor goes along with one of the tokens ahead. -/
abbrev Follows (ts : List Token) (x : Traced (α × Nat)) (y : Attempt (α × List Token)) : Prop :=
  Agrees (PointsTo ts) x y

theorem Inside.lt (h : Inside ts pos) : pos < ts.length := by
  have := h.ended
  have := h.le
  omega

theorem drop_eq_cons (h : ts[i]? = some t) : ts.drop i = t :: ts.drop (i + 1) := by
  obtain ⟨hi, rfl⟩ := List.getElem?_eq_some_iff.mp h
  exact List.drop_eq_getElem_cons hi

theorem Inside.exists_token (h : Inside ts pos) :
    ∃ t, ts[pos]? = some t ∧ ts.drop pos = t :: ts.drop (pos + 1) :=
  ⟨_, List.getElem?_eq_getElem h.lt, List.drop_eq_getElem_cons h.lt⟩

@[simp] theorem kindAt_eq (ts : List Token) (i : Nat) : kindAt ts i = Parse.peek (ts.drop i) := by
  rw [kindAt]
  cases h : ts[i]? with
  | none => rw [List.drop_eq_nil_of_le (List.getElem?_eq_none_iff.mp h)]; rfl
  | some t => rw [drop_eq_cons h]; rfl

theorem kindAt_of_getElem? (h : ts[i]? = some t) : kindAt ts i = t.kind := by
  rw [kindAt, h]
  rfl

theorem kind_endIndex (h : endIndex ts < ts.length) : ts[endIndex ts].kind = .eof :=
  of_decide_eq_true (List.findIdx_getElem (w := h))

/-- A token that is not the end mark may be taken. -/
theorem Inside.next (h : Inside ts pos) (hpeek : Parse.peek (ts.drop pos) ≠ .eof) :
    Inside ts (pos + 1) := by
  refine ⟨h.ended, Nat.lt_of_le_of_ne h.le fun hpos => hpeek ?_⟩
  have hlt : endIndex ts < ts.length := hpos ▸ h.lt
  rw [hpos, List.drop_eq_getElem_cons hlt]
  exact kind_endIndex hlt

theorem yields_look (h : ts[i]? = some t) : Yields (look ts i) t := by
  obtain ⟨hi, -⟩ := List.getElem?_eq_some_iff.mp h
  exact ⟨List.forall_mem_singleton.mpr hi, by simp [look, h]⟩

theorem yields_lower {n : Nat} (h : 0 < n) : Yields (lower n) (n - 1) :=
  ⟨List.forall_mem_singleton.mpr h, rfl⟩

theorem yields_moveTo (h : Inside ts pos) : Yields (moveTo ts pos) pos :=
  ⟨List.forall_mem_singleton.mpr h.le, rfl⟩

theorem yields_cut {j : Nat} (hi : i ≤ j) (hj : j ≤ ts.length) :
    Yields (cut ts i j) (stretch ts i j) :=
  ⟨List.forall_mem_singleton.mpr ⟨hi, hj⟩, rfl⟩

theorem Inside.yields_advance (h : Inside ts pos) (hpeek : Parse.peek (ts.drop pos) ≠ .eof)
    (ht : ts[pos]? = some t) : Yields (advance ts pos) (t, pos + 1) := by
  have hlt := h.lt
  have hmin : min pos (ts.length - 1) = pos := by omega
  refine (yields_lower (by omega)).bind ?_
  rw [hmin]
  refine (yields_look ht).bind ?_
  rw [if_pos hlt]
  exact (yields_moveTo (h.next hpeek)).bind (yields_pure _)

/-! Readings side by side -/

variable {R : β → γ → Prop}

theorem Follows.bind {x : Traced (α × Nat)} {y : Attempt (α × List Token)}
    {f : α × Nat → Traced β} {g : α × List Token → Attempt γ} (h : Follows ts x y)
    (hf : ∀ a pos, Inside ts pos → Agrees R (f (a, pos)) (g (a, ts.drop pos))) :
    Agrees R (x >>= f) (y >>= g) := by
  refine Agrees.bind h fun x y hxy => ?_
  obtain ⟨a, pos⟩ := x
  obtain ⟨b, rest⟩ := y
  obtain ⟨rfl, hpos, rfl⟩ := hxy
  exact hf a pos hpos

theorem Inside.pure (h : Inside ts pos) (a : α) :
    Follows ts (pure (a, pos)) (Pure.pure (a, ts.drop pos)) :=
  agrees_pure ⟨rfl, h, rfl⟩

theorem Inside.fail (h : Inside ts pos) (fault : ParseFault) :
    Agrees R (failAt ts fault pos) (Parse.failAt fault (ts.drop pos)) := by
  obtain ⟨t, ht, hdrop⟩ := h.exists_token
  rw [failAt, spanAt, ht, hdrop]
  exact agrees_refuse _

/-- The cursor takes the token that is dropped from those ahead. -/
theorem Inside.advance (h : Inside ts pos) (hpeek : Parse.peek (ts.drop pos) ≠ .eof)
    {f : Token × Nat → Traced β} {y : Attempt γ}
    (hf : ∀ t, ts[pos]? = some t → Inside ts (pos + 1) → Agrees R (f (t, pos + 1)) y) :
    Agrees R (Cursor.advance ts pos >>= f) y := by
  obtain ⟨t, ht, -⟩ := h.exists_token
  exact (h.yields_advance hpeek ht).agrees (hf t ht (h.next hpeek))

theorem Inside.expect (h : Inside ts pos) {want : TokenKind} (hwant : want ≠ .eof)
    {f : Nat → Traced β} {g : List Token → Attempt γ}
    (hf : ∀ pos, Inside ts pos → Agrees R (f pos) (g (ts.drop pos))) :
    Agrees R (Cursor.expect ts want pos >>= f) (Parse.expect want (ts.drop pos) >>= g) := by
  have hexpect : Agrees (fun p rest => Inside ts p ∧ rest = ts.drop p)
      (Cursor.expect ts want pos) (Parse.expect want (ts.drop pos)) := by
    obtain ⟨t, -, hdrop⟩ := h.exists_token
    have hkind : Parse.peek (ts.drop pos) = t.kind := by rw [hdrop]; rfl
    rw [Cursor.expect, kindAt_eq, hkind, hdrop, Parse.expect, ← hdrop]
    split
    next hk => exact h.advance (by simpa [hkind, hk]) fun _ _ h₁ => agrees_pure ⟨h₁, rfl⟩
    next => exact h.fail _
  refine hexpect.bind fun p rest hp => ?_
  obtain ⟨hp, rfl⟩ := hp
  exact hf p hp

theorem Inside.expectIdent (h : Inside ts pos) :
    Follows ts (Cursor.expectIdent ts pos) (Parse.expectIdent (ts.drop pos)) := by
  obtain ⟨⟨k, span⟩, ht, hdrop⟩ := h.exists_token
  have hfail := h.fail (R := PointsTo (α := String) ts)
  have hadvance := h.advance (R := PointsTo (α := String) ts)
  rw [Cursor.expectIdent, kindAt_eq, hdrop] at *
  cases k with
  | ident name => exact hadvance (by simp [Parse.peek]) fun _ _ h₁ => h₁.pure name
  | _ => exact hfail _

theorem startsKeyword_eq (ts : List Token) (pos : Nat) :
    startsKeyword ts pos = Parse.startsKeyword (ts.drop pos) := by
  rw [startsKeyword, kindAt_eq, kindAt_eq, ← List.drop_drop]
  rcases ts.drop pos with _ | ⟨⟨k, span⟩, _ | ⟨⟨k', span'⟩, us⟩⟩
  · rfl
  · cases k <;> rfl
  · cases k with
    | ident name => cases k' <;> rfl
    | _ => rfl

end Cursor

end Comprehend
