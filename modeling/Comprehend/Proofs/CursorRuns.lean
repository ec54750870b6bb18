import Comprehend.Proofs.CursorExpressions
import Comprehend.Proofs.Fragments

/-! Runs of tokens, read with a cursor. A run is what lies between two indices, and its parts are
found by index as well: its first and last token, the bracket that closes another, the arguments of
a range. The search for a closing bracket looks beyond the run, at all tokens behind it; it matters
only whether it ends at the last token of the run. -/
namespace Comprehend

namespace Cursor

open Traced
open Comprehension (isSeparator runUntil runSpan captureRun capture splitAtClose splitAtCommas
  arguments rangeBound rangeOf rangeCall rangeArguments? endsFilter)

/-! Readers -/

def depthBehind (k : TokenKind) (depth : Nat) : Traced Nat :=
  if k.isOpening then pure (depth + 1)
  else if k.isClosing then lower depth
  else pure depth

/-- The bracket that brings the depth back to zero, from the token of index `i` on. -/
def closeFrom : (i depth : Nat) → List Token → Traced (Option Nat)
  | _, _, [] => pure none
  | i, depth, t :: ts => do
    let depth ← depthBehind t.kind depth
    if t.kind.isClosing && depth = 0 then return some i
    else closeFrom (i + 1) depth ts

def bound (text : String) (span : Span) : Traced Int64 where
  outcome :=
    match (parseExpr text).outcome.toOption.bind Expr.evalInt with
    | some n => .ok n
    | none => .error ⟨.rangeBound text, span⟩
  acts := (parseExpr text).acts

def bounds : List (String × Span) → Traced (List Int64)
  | [] => pure []
  | arg :: args => do
    let n ← bound arg.1 arg.2
    let ns ← bounds args
    return n :: ns

section

variable (ts : List Token)

def runEnd (stop : TokenKind → Bool) : (fuel depth pos : Nat) → Traced Nat
  | 0, _, _ => outOfFuel
  | fuel + 1, depth, pos => do
    if kindAt ts pos = .eof then
      if 0 < depth then failAt ts .unclosedBracket pos else return pos
    else if depth = 0 && (stop (kindAt ts pos) || (kindAt ts pos).isClosing ||
        isSeparator (kindAt ts pos)) then
      return pos
    else
      let depth ← depthBehind (kindAt ts pos) depth
      let (_, pos) ← advance ts pos
      runEnd stop fuel depth pos

def spanOf (i j : Nat) : Traced Span := do
  let first ← look ts i
  let last ← look ts (← lower j)
  return first.span.merge last.span

def captureSpan (stop : TokenKind → Bool) (pos : Nat) : Traced (Span × Nat) := do
  let last ← runEnd ts stop (ts.length + 1) 0 pos
  if last = pos then failAt ts (.expectedExpression (kindAt ts last)) last
  else
    let span ← spanOf ts pos last
    return (span, last)

def captureText (source : List Char) (stop : TokenKind → Bool) (pos : Nat) :
    Traced (String × Nat) := do
  let (span, pos) ← captureSpan ts stop pos
  return (span.text source, pos)

def matchingClose (i : Nat) : Traced (Option Nat) :=
  if (kindAt ts i).isOpening then closeFrom i 0 (ts.drop i) else pure none

/-- The tokens from `first` up to `last` are a call of `range` and nothing else. -/
def isRangeCall (first last : Nat) : Traced Bool := do
  let t ← look ts first
  if t.kind = .ident "range" ∧ kindAt ts (first + 1) = .lparen then
    let close ← matchingClose ts (first + 1)
    let target ← lower last
    return close = some target
  else return false

def excerpt (source : List Char) (i j : Nat) : Traced (String × Span) := do
  let span ← spanOf ts i j
  return (span.text source, span)

/-- The argument from one index up to another, which must not name a value. -/
def argument (source : List Char) (i j : Nat) : Traced (String × Span) := do
  let t ← look ts i
  match t.kind with
  | .ident _ =>
    let next ← look ts (i + 1)
    if next.kind = .assign then refuse ⟨.rangeKeyword, t.span⟩
    else excerpt ts source i j
  | _ => excerpt ts source i j

/-- The arguments up to the index `last`, with the current one open since `start`. -/
def argumentsFrom (source : List Char) (last : Nat) :
    (count i start depth : Nat) → Traced (List (String × Span))
  | 0, _, _, _ => pure []
  | count + 1, i, start, depth => do
    let t ← look ts i
    if i ≠ last ∧ (t.kind.isOpening ∨ t.kind.isClosing) then
      argumentsFrom source last count (i + 1) start (t.kind.depthAfter depth)
    else if i = last ∨ (depth = 0 ∧ t.kind = .comma) then
      if start < i then
        let arg ← argument ts source start i
        let args ← argumentsFrom source last count (i + 1) (i + 1) depth
        return arg :: args
      else argumentsFrom source last count (i + 1) (i + 1) depth
    else argumentsFrom source last count (i + 1) start depth

def rangeBetween (source : List Char) (first last : Nat) : Traced Range := do
  let close ← lower last
  let args ← argumentsFrom ts source close (close + 1 - (first + 2)) (first + 2) (first + 2) 0
  let span ← spanOf ts first last
  let values ← bounds args
  match rangeOf values with
  | .ok r => return r
  | .error fault => refuse ⟨fault, span⟩

def iterable (source : List Char) (pos : Nat) : Traced (Source × Nat) := do
  let (span, last) ← captureSpan ts endsFilter pos
  if ← isRangeCall ts pos last then
    let r ← rangeBetween ts source pos last
    return (.range r, last)
  else return (.text (span.text source), last)

end

/-! Between two indices -/

variable {ts run us : List Token} {pos i j : Nat} {t u first : Token} {source : List Char}
  {stop : TokenKind → Bool}

theorem stretch_self (ts : List Token) (i : Nat) : stretch ts i i = [] := by
  simp [stretch]

theorem stretch_append (ts : List Token) (h : i ≤ j) :
    stretch ts i j ++ ts.drop j = ts.drop i := by
  have hdrop : (ts.drop i).drop (j - i) = ts.drop j := by
    rw [List.drop_drop, Nat.add_sub_of_le h]
  rw [stretch, ← hdrop, List.take_append_drop]

theorem stretch_cons (h : i < j) (ht : ts[i]? = some t) :
    stretch ts i j = t :: stretch ts (i + 1) j := by
  obtain ⟨k, rfl⟩ := Nat.exists_eq_add_of_lt h
  rw [stretch, drop_eq_cons ht, stretch, show i + k + 1 - i = k + 1 by omega,
    show i + k + 1 - (i + 1) = k by omega, List.take_succ_cons]

theorem stretch_concat (h : i ≤ j) (ht : ts[j]? = some t) :
    stretch ts i (j + 1) = stretch ts i j ++ [t] := by
  have hget : (ts.drop i)[j - i]? = some t := by
    rw [List.getElem?_drop, Nat.add_sub_of_le h, ht]
  rw [stretch, Nat.succ_sub h, List.take_add_one, hget]
  rfl

theorem length_stretch (hj : j ≤ ts.length) : (stretch ts i j).length = j - i := by
  rw [stretch, List.length_take, List.length_drop]
  omega

/-- What a run that is not empty says of its indices. -/
theorem stretch_eq_cons (h : stretch ts i j = first :: run) :
    i < j ∧ ts[i]? = some first ∧ run = stretch ts (i + 1) j := by
  have hlt : i < j := by
    refine Nat.lt_of_not_le fun hle => ?_
    rw [stretch, Nat.sub_eq_zero_of_le hle] at h
    cases h
  cases hi : ts[i]? with
  | none =>
    rw [stretch, List.drop_eq_nil_of_le (List.getElem?_eq_none_iff.mp hi), List.take_nil] at h
    cases h
  | some t =>
    rw [stretch_cons hlt hi] at h
    cases h
    exact ⟨hlt, rfl, rfl⟩

theorem yields_spanOf (hj : j ≤ ts.length) (hrun : stretch ts i j = first :: run) :
    Yields (spanOf ts i j) (runSpan first run) := by
  obtain ⟨hlt, hfirst, rfl⟩ := stretch_eq_cons hrun
  have hlast : ts[j - 1]? = some ts[j - 1] := List.getElem?_eq_getElem (by omega)
  have hspan : runSpan first (stretch ts (i + 1) j) = first.span.merge ts[j - 1].span := by
    rcases Nat.eq_or_lt_of_le hlt with rfl | hlt
    · obtain rfl : first = ts[i] := by simpa [hfirst] using hlast
      simp [runSpan, stretch_self]
    · have hconcat := stretch_concat (i := i + 1) (by omega) hlast
      rw [Nat.sub_add_cancel (by omega)] at hconcat
      simp [runSpan, hconcat]
  rw [hspan]
  refine (yields_look hfirst).bind ((yields_lower (by omega)).bind ?_)
  exact (yields_look hlast).bind (yields_pure _)

/-! Runs -/

theorem yields_depthBehind {k : TokenKind} {depth : Nat} (h : k.isClosing = true → 0 < depth) :
    Yields (depthBehind k depth) (k.depthAfter depth) := by
  unfold depthBehind TokenKind.depthAfter
  split
  · exact yields_pure _
  split
  next hclose => exact yields_lower (h hclose)
  next => exact yields_pure _

def RunTo (ts : List Token) (pos last : Nat) (y : List Token × List Token) : Prop :=
  Inside ts last ∧ pos ≤ last ∧ y = (stretch ts pos last, ts.drop last)

theorem agrees_runEnd {fuel depth : Nat} (h : Inside ts pos) (hfuel : ts.length < pos + fuel) :
    Agrees (RunTo ts pos) (runEnd ts stop fuel depth pos) (runUntil stop depth (ts.drop pos)) := by
  induction fuel generalizing depth pos with
  | zero => exact absurd h.lt (by omega)
  | succ fuel ih =>
    obtain ⟨t, ht, hdrop⟩ := h.exists_token
    have hkind := kindAt_of_getElem? ht
    have hstay : RunTo ts pos pos ([], ts.drop pos) := ⟨h, Nat.le_refl _, by rw [stretch_self]⟩
    rw [runEnd, hkind, hdrop, runUntil, ← hdrop]
    split
    next heof =>
      split
      · exact h.fail _
      · exact agrees_pure hstay
    next hne =>
      split
      · exact agrees_pure hstay
      next hgo =>
        -- at depth zero a closing bracket would have ended the run
        have hclose : t.kind.isClosing = true → 0 < depth := fun hclose =>
          Nat.pos_of_ne_zero fun hzero => hgo (by simp [hclose, hzero])
        refine (yields_depthBehind hclose).agrees ?_
        refine h.advance (by rw [← kindAt_eq, hkind]; exact hne) fun _ _ h₁ => ?_
        refine (ih h₁ (by omega)).bindRight fun last y hlast => ?_
        obtain ⟨hlast, hle, rfl⟩ := hlast
        exact ⟨hlast, by omega, by rw [stretch_cons (by omega) ht]⟩

/-- The cursor stands behind the run that was captured, and the span covers it. -/
structure Captured (ts : List Token) (pos : Nat) (x : Span × Nat)
    (y : (Token × List Token) × List Token) : Prop where
  inside : Inside ts x.2
  run : stretch ts pos x.2 = y.1.1 :: y.1.2
  rest : y.2 = ts.drop x.2
  span : x.1 = runSpan y.1.1 y.1.2

theorem agrees_captureSpan (h : Inside ts pos) :
    Agrees (Captured ts pos) (captureSpan ts stop pos) (captureRun stop (ts.drop pos)) := by
  refine (agrees_runEnd h (by omega)).bind fun last y hlast => ?_
  obtain ⟨hlast, hle, rfl⟩ := hlast
  split
  next heq =>
    subst heq
    rw [stretch_self, kindAt_eq]
    exact h.fail _
  next hne =>
    obtain ⟨t, ht, -⟩ := h.exists_token
    have hrun := stretch_cons (Nat.lt_of_le_of_ne hle (Ne.symm hne)) ht
    rw [hrun]
    refine (yields_spanOf (Nat.le_of_lt hlast.lt) hrun).agrees ?_
    exact agrees_pure ⟨hlast, hrun, rfl, rfl⟩

theorem follows_captureText (h : Inside ts pos) :
    Follows ts (captureText ts source stop pos) (capture source stop (ts.drop pos)) := by
  refine (agrees_captureSpan h).bind fun x y hxy => ?_
  obtain ⟨span, last⟩ := x
  obtain ⟨⟨first, run⟩, rest⟩ := y
  obtain ⟨hlast, -, hrest, hspan⟩ := hxy
  dsimp only at hlast hrest hspan ⊢
  subst hrest hspan
  exact hlast.pure _

/-! Closing brackets -/

/-- The count is one above the depth, since the bracket that is to be closed counts as well. -/
theorem yields_closeFrom (i depth : Nat) (us : List Token) :
    Yields (closeFrom i (depth + 1) us)
      ((splitAtClose depth us).map fun x => i + x.1.length) := by
  induction us generalizing i depth with
  | nil => exact yields_pure _
  | cons t us ih =>
    refine (yields_depthBehind fun _ => Nat.succ_pos depth).bind ?_
    rw [splitAtClose]
    cases hclose : t.kind.isClosing with
    | false =>
      have hdepth : t.kind.depthAfter (depth + 1) = t.kind.depthAfter depth + 1 := by
        simp only [TokenKind.depthAfter, hclose]
        split <;> rfl
      simpa [hdepth, Function.comp_def, Nat.add_assoc, Nat.add_comm 1] using
        ih (i + 1) (t.kind.depthAfter depth)
    | true =>
      have hopen := (Comprehension.closing_facts hclose).2
      cases depth with
      | zero => simpa [TokenKind.depthAfter, hopen, hclose] using yields_pure (some i)
      | succ depth =>
        simpa [TokenKind.depthAfter, hopen, hclose, Function.comp_def, Nat.add_assoc,
          Nat.add_comm 1] using ih (i + 1) depth

theorem yields_matchingClose (ht : ts[i]? = some t) (hopen : t.kind.isOpening = true) :
    Yields (matchingClose ts i)
      ((splitAtClose 0 (ts.drop (i + 1))).map fun x => i + 1 + x.1.length) := by
  have hclose := (Comprehension.opening_facts hopen).2.1
  rw [matchingClose, kindAt_of_getElem? ht, if_pos hopen, drop_eq_cons ht, closeFrom]
  refine (yields_depthBehind fun h => absurd h (by simp [hclose])).bind ?_
  rw [hclose, TokenKind.depthAfter, if_pos hopen]
  exact yields_closeFrom (i + 1) 0 _

/-- What lies between a bracket and the one that closes it, by index. -/
theorem stretch_of_splitAtClose {after : List Token}
    (h : splitAtClose 0 (ts.drop i) = some (us, after)) :
    stretch ts i (i + us.length) = us ∧
      (∃ u, ts[i + us.length]? = some u ∧ u.kind.isClosing = true) ∧
      ts.drop (i + us.length + 1) = after := by
  obtain ⟨u, hdrop, hu, -⟩ := Comprehension.closed_of_splitAtClose h
  refine ⟨?_, ⟨u, ?_, hu⟩, ?_⟩
  · rw [stretch, hdrop, Nat.add_sub_cancel_left, List.take_left]
  · rw [← List.getElem?_drop, hdrop]
    simp
  · rw [Nat.add_assoc, ← List.drop_drop, hdrop, List.drop_length_add_append]
    rfl

/-- A bracket closes at the last token of a stretch if and only if it does so among all tokens. -/
theorem splitAtClose_stretch (hj : j ≤ ts.length) :
    splitAtClose 0 (stretch ts i j) = some (us, []) ↔
      i < j ∧ us = stretch ts i (j - 1) ∧
        (splitAtClose 0 (ts.drop i)).map (fun x => i + x.1.length) = some (j - 1) := by
  constructor
  · intro h
    obtain ⟨t, hstretch, ht, hclosed⟩ := Comprehension.closed_of_splitAtClose h
    have hlen := length_stretch (i := i) hj
    rw [hstretch, List.length_append, List.length_singleton] at hlen
    have hlast : ts[j - 1]? = some ts[j - 1] := List.getElem?_eq_getElem (by omega)
    have hconcat := stretch_concat (i := i) (by omega) hlast
    rw [Nat.sub_add_cancel (by omega), hstretch] at hconcat
    have hdrop := stretch_append ts (i := i) (j := j) (by omega)
    rw [hstretch, List.append_assoc, List.singleton_append] at hdrop
    have hlen : i + us.length = j - 1 := by omega
    rw [← hdrop, Comprehension.splitAtClose_of_closed hclosed ht]
    exact ⟨by omega, (List.append_inj' hconcat rfl).1, congrArg some hlen⟩
  · rintro ⟨hlt, rfl, hclose⟩
    obtain ⟨⟨us, after⟩, hsplit, hlen⟩ := Option.map_eq_some_iff.mp hclose
    obtain ⟨t, hdrop, ht, hclosed⟩ := Comprehension.closed_of_splitAtClose hsplit
    dsimp only at hlen
    have hj : j - i = us.length + 1 := by omega
    have hj' : j - 1 - i = us.length := by omega
    rw [stretch, stretch, hdrop, hj, hj', List.take_left, List.take_length_add_append]
    exact Comprehension.splitAtClose_of_closed hclosed ht

/-! Ranges -/

theorem rangeArguments?_eq_some :
    rangeArguments? first run = some us ↔ first.kind = .ident "range" ∧
      ∃ t inside, run = t :: inside ∧ t.kind = .lparen ∧ splitAtClose 0 inside = some (us, []) := by
  rcases run with _ | ⟨⟨k, span⟩, inside⟩
  · simp [rangeArguments?]
  · by_cases hk : k = .lparen
    · subst hk
      simp only [rangeArguments?]
      split
      next hfirst =>
        split
        next args hsplit => simp [hfirst, hsplit]
        next hsplit => simpa [hfirst] using fun h => hsplit us h
      next hfirst => simp [hfirst]
    · have hnone : rangeArguments? first (⟨k, span⟩ :: inside) = none := by
        cases k <;> first | rfl | exact absurd rfl hk
      simp [hnone, hk]

theorem rangeArguments?_stretch (hj : j ≤ ts.length) (hrun : stretch ts i j = first :: run) :
    rangeArguments? first run = some us ↔
      (first.kind = .ident "range" ∧ kindAt ts (i + 1) = .lparen) ∧
      i + 2 < j ∧ us = stretch ts (i + 2) (j - 1) ∧
        (splitAtClose 0 (ts.drop (i + 2))).map (fun x => i + 2 + x.1.length) = some (j - 1) := by
  obtain ⟨-, -, rfl⟩ := stretch_eq_cons hrun
  rw [rangeArguments?_eq_some]
  constructor
  · rintro ⟨hfirst, t, inside, hinside, hk, hsplit⟩
    obtain ⟨-, ht, rfl⟩ := stretch_eq_cons hinside
    exact ⟨⟨hfirst, by rw [kindAt_of_getElem? ht, hk]⟩, (splitAtClose_stretch hj).mp hsplit⟩
  · rintro ⟨⟨hfirst, hk⟩, hlt, hclose⟩
    have ht : ts[i + 1]? = some ts[i + 1] := List.getElem?_eq_getElem (by omega)
    rw [kindAt_of_getElem? ht] at hk
    exact ⟨hfirst, _, _, stretch_cons (by omega) ht, hk,
      (splitAtClose_stretch hj).mpr ⟨hlt, hclose⟩⟩

theorem yields_isRangeCall (hj : j < ts.length) (hrun : stretch ts i j = first :: run) :
    Yields (isRangeCall ts i j) (rangeArguments? first run).isSome := by
  obtain ⟨hlt, hfirst, -⟩ := stretch_eq_cons hrun
  have hrange (us : List Token) : rangeArguments? first run = some us ↔ _ :=
    rangeArguments?_stretch (Nat.le_of_lt hj) hrun
  refine (yields_look hfirst).bind ?_
  split
  next hcall =>
    have ht : ts[i + 1]? = some ts[i + 1] := List.getElem?_eq_getElem (by omega)
    have hopen : ts[i + 1].kind.isOpening = true := by
      rw [← kindAt_of_getElem? ht, hcall.2]
      rfl
    have hiff : (rangeArguments? first run).isSome = decide
        ((splitAtClose 0 (ts.drop (i + 2))).map (fun x => i + 2 + x.1.length) = some (j - 1)) := by
      rw [Bool.eq_iff_iff, Option.isSome_iff_exists, decide_eq_true_iff]
      constructor
      · rintro ⟨us, hus⟩
        exact ((hrange us).mp hus).2.2.2
      · intro hclose
        obtain ⟨x, -, hlen⟩ := Option.map_eq_some_iff.mp hclose
        exact ⟨_, (hrange _).mpr ⟨hcall, by omega, rfl, hclose⟩⟩
    rw [hiff]
    refine (yields_matchingClose ht hopen).bind ?_
    exact (yields_lower (by omega)).bind (yields_pure _)
  next hcall =>
    have hnone : rangeArguments? first run = none :=
      Option.eq_none_iff_forall_ne_some.mpr fun us hus => hcall ((hrange us).mp hus).1
    rw [hnone]
    exact yields_pure _

def plainArgument (first : Token) (run : List Token) : Attempt (Token × List Token) :=
  if Parse.startsKeyword (first :: run) then .error ⟨.rangeKeyword, first.span⟩
  else .ok (first, run)

/-- The runs that are not empty, up to one that names a value. -/
def plainArguments : List (List Token) → Attempt (List (Token × List Token))
  | [] => .ok []
  | [] :: runs => plainArguments runs
  | (first :: run) :: runs => do
    let arg ← plainArgument first run
    let args ← plainArguments runs
    return arg :: args

theorem plainArguments_eq (runs : List (List Token)) :
    let args := runs.filterMap fun
      | [] => none
      | first :: run => some (first, run)
    plainArguments runs =
      match args.find? fun a => Parse.startsKeyword (a.1 :: a.2) with
      | some a => .error ⟨.rangeKeyword, a.1.span⟩
      | none => .ok args := by
  induction runs with
  | nil => rfl
  | cons run runs ih =>
    cases run with
    | nil => exact ih
    | cons first run =>
      dsimp only at ih ⊢
      rw [plainArguments, plainArgument, ih]
      simp only [List.filterMap_cons, List.find?_cons]
      cases hkey : Parse.startsKeyword (first :: run) with
      | true => rfl
      | false =>
        simp only [Bool.false_eq_true, if_false]
        cases List.find? _ _ <;> rfl

theorem rangeCall_eq (source : List Char) (span : Span) (inside : List Token) :
    rangeCall source span inside = (do
      let args ← plainArguments (splitAtCommas 0 inside)
      let values ← args.mapM (rangeBound source)
      match rangeOf values with
      | .ok r => return r
      | .error fault => .error ⟨fault, span⟩) := by
  rw [rangeCall, plainArguments_eq]
  dsimp only [arguments]
  cases List.find? _ _ <;> rfl

def excerptOf (source : List Char) (arg : Token × List Token) : String × Span :=
  ((runSpan arg.1 arg.2).text source, runSpan arg.1 arg.2)

def AreExcerpts (source : List Char) (xs : List (String × Span))
    (args : List (Token × List Token)) : Prop :=
  xs = args.map (excerptOf source)

theorem yields_excerpt (source : List Char) (hj : j ≤ ts.length) (hrun : stretch ts i j = first :: run) :
    Yields (excerpt ts source i j) (excerptOf source (first, run)) :=
  (yields_spanOf hj hrun).bind (yields_pure _)

/-- The token behind an argument is no equals sign, so it does not matter that it is looked at if
the argument has one token. -/
theorem startsKeyword_append (hu : u.kind ≠ .assign) (rest : List Token) :
    Parse.startsKeyword (first :: run ++ u :: rest) = Parse.startsKeyword (first :: run) := by
  obtain ⟨k, span⟩ := first
  obtain ⟨k', span'⟩ := u
  cases k with
  | ident name =>
    cases run with
    | nil => cases k' <;> first | rfl | exact absurd rfl hu
    | cons t run => obtain ⟨k'', span''⟩ := t; cases k'' <;> rfl
  | _ => rfl

theorem agrees_argument (hu : ts[j]? = some u) (hassign : u.kind ≠ .assign)
    (hrun : stretch ts i j = first :: run) :
    Agrees (fun x arg => x = excerptOf source arg) (argument ts source i j)
      (plainArgument first run) := by
  obtain ⟨hlt, hfirst, -⟩ := stretch_eq_cons hrun
  obtain ⟨hj, -⟩ := List.getElem?_eq_some_iff.mp hu
  have hexcerpt := yields_excerpt source (Nat.le_of_lt hj) hrun
  have hnext : ts[i + 1]? = some ts[i + 1] := List.getElem?_eq_getElem (by omega)
  have hkey : Parse.startsKeyword (first :: run) = startsKeyword ts i := by
    rw [startsKeyword_eq, ← stretch_append ts (Nat.le_of_lt hlt), hrun, drop_eq_cons hu,
      startsKeyword_append hassign]
  rw [plainArgument, hkey, startsKeyword, kindAt_of_getElem? hfirst, kindAt_of_getElem? hnext]
  refine (yields_look hfirst).agrees ?_
  obtain ⟨k, span⟩ := first
  cases k with
  | ident name =>
    refine (yields_look hnext).agrees ?_
    by_cases hk : ts[i + 1].kind = .assign
    · rw [if_pos hk, if_pos (by simpa using hk)]
      exact agrees_refuse _
    · rw [if_neg hk, if_neg (by simpa using hk)]
      exact hexcerpt.agrees_ok rfl
  | _ => exact hexcerpt.agrees_ok rfl

def joinFirst (us : List Token) : List (List Token) → List (List Token)
  | run :: runs => (us ++ run) :: runs
  | [] => [us]

theorem joinFirst_nil (depth : Nat) (us : List Token) :
    joinFirst [] (splitAtCommas depth us) = splitAtCommas depth us := by
  have hne : splitAtCommas depth us ≠ [] := by
    cases us with
    | nil => simp [splitAtCommas]
    | cons t us =>
      rw [splitAtCommas]
      split
      · simp
      · split <;> simp
  obtain ⟨run, runs, hruns⟩ := List.exists_cons_of_ne_nil hne
  rw [hruns]
  rfl

/-- A token that does not divide goes to the argument before it. -/
theorem joinFirst_cons {depth : Nat} (h : ¬(depth = 0 ∧ t.kind = .comma)) (vs us : List Token) :
    joinFirst vs (splitAtCommas depth (t :: us)) =
      joinFirst (vs ++ [t]) (splitAtCommas (t.kind.depthAfter depth) us) := by
  have hgoes : (decide (depth = 0) && decide (t.kind = .comma)) = false := by simpa using h
  rw [splitAtCommas, hgoes]
  cases splitAtCommas (t.kind.depthAfter depth) us <;> simp [joinFirst]

/-- At the end of an argument it is read, unless it is empty. -/
theorem agrees_endArgument {start : Nat} {runs : List (List Token)}
    {rest : Traced (List (String × Span))} (hu : ts[i]? = some u) (hassign : u.kind ≠ .assign)
    (hstart : start ≤ i)
    (hrest : Agrees (AreExcerpts source) rest (plainArguments runs)) :
    Agrees (AreExcerpts source)
      (if start < i then do
        let arg ← argument ts source start i
        let args ← rest
        return arg :: args
      else rest)
      (plainArguments (stretch ts start i :: runs)) := by
  split
  next hlt =>
    obtain ⟨hi, -⟩ := List.getElem?_eq_some_iff.mp hu
    have hfirst : ts[start]? = some ts[start] := List.getElem?_eq_getElem (by omega)
    have hrun := stretch_cons hlt hfirst
    rw [hrun]
    refine (agrees_argument hu hassign hrun).bind fun x arg hx => ?_
    refine hrest.bind fun xs args hxs => ?_
    exact agrees_pure (by rw [hx, hxs]; rfl)
  next hge =>
    obtain rfl : start = i := by omega
    rw [stretch_self]
    exact hrest

/-- The arguments from an index on are read as the runs between commas are, with what is open of the
current one in front of the first run. -/
theorem agrees_argumentsFrom {count start last : Nat} (source : List Char) (depth : Nat)
    (hu : ts[last]? = some u) (hclose : u.kind.isClosing = true) (hi : i + count = last)
    (hstart : start ≤ i) :
    Agrees (AreExcerpts source)
      (argumentsFrom ts source last (count + 1) i start depth)
      (plainArguments (joinFirst (stretch ts start i)
        (splitAtCommas depth (stretch ts i last)))) := by
  obtain ⟨hlast, -⟩ := List.getElem?_eq_some_iff.mp hu
  induction count generalizing i start depth with
  | zero =>
    obtain rfl : i = last := hi
    have hassign : u.kind ≠ .assign := fun hk => by simp [hk, TokenKind.isClosing] at hclose
    have hdone : Agrees (AreExcerpts source)
        (argumentsFrom ts source i 0 (i + 1) (i + 1) depth) (plainArguments []) := agrees_pure rfl
    rw [stretch_self, argumentsFrom]
    refine (yields_look hu).agrees ?_
    rw [if_neg (by simp), if_pos (Or.inl rfl)]
    simpa only [splitAtCommas, joinFirst, List.append_nil] using
      agrees_endArgument hu hassign hstart hdone
  | succ count ih =>
    have ht : ts[i]? = some ts[i] := List.getElem?_eq_getElem (by omega)
    rw [stretch_cons (by omega) ht, argumentsFrom]
    refine (yields_look ht).agrees ?_
    by_cases hcomma : depth = 0 ∧ ts[i].kind = .comma
    · have hsplit : joinFirst (stretch ts start i)
          (splitAtCommas depth (ts[i] :: stretch ts (i + 1) last)) =
          stretch ts start i :: splitAtCommas depth (stretch ts (i + 1) last) := by
        simp [splitAtCommas, hcomma, joinFirst]
      have hnext := ih depth (by omega) (Nat.le_refl (i + 1))
      rw [stretch_self, joinFirst_nil] at hnext
      rw [hsplit, if_neg (by simp [hcomma, TokenKind.isOpening, TokenKind.isClosing]),
        if_pos (Or.inr hcomma)]
      exact agrees_endArgument ht (by simp [hcomma]) hstart hnext
    · have hnext := ih (ts[i].kind.depthAfter depth) (by omega) (Nat.le_succ_of_le hstart)
      rw [stretch_concat hstart ht, ← joinFirst_cons hcomma] at hnext
      split
      next hbracket => exact hnext
      next hplain =>
        have hdepth : ts[i].kind.depthAfter depth = depth := by
          simp only [not_and, not_or] at hplain
          have hkind := hplain (by omega)
          simp [TokenKind.depthAfter, hkind]
        rw [if_neg (by simp only [hcomma, or_false]; omega)]
        rwa [hdepth] at hnext

theorem safe_bound (text : String) (span : Span) : (bound text span).Safe := by
  intro act hact
  rw [bound] at hact
  exact (agrees_parseExpr text).safe act hact

theorem outcome_bound (arg : Token × List Token) :
    (bound (excerptOf source arg).1 (excerptOf source arg).2).outcome = rangeBound source arg := by
  dsimp only [excerptOf]
  have hparse : (parseExpr ((runSpan arg.1 arg.2).text source)).outcome.toOption =
      Expr.parse? ((runSpan arg.1 arg.2).text source) := by
    rw [(agrees_parseExpr _).outcome_eq, Expr.parse?]
  cases hvalue : (Expr.parse? ((runSpan arg.1 arg.2).text source)).bind Expr.evalInt with
  | none => simp only [bound, rangeBound, hparse, hvalue]
  | some n => simp only [bound, rangeBound, hparse, hvalue]

theorem agrees_bounds (args : List (Token × List Token)) :
    Agrees Eq (bounds (args.map (excerptOf source))) (args.mapM (rangeBound source)) := by
  induction args with
  | nil => exact agrees_pure rfl
  | cons arg args ih =>
    have hbound : Agrees Eq (bound (excerptOf source arg).1 (excerptOf source arg).2)
        (rangeBound source arg) :=
      .of_outcome_eq (safe_bound _ _) (outcome_bound arg)
    rw [List.map_cons, bounds, List.mapM_cons]
    refine hbound.bind fun n n' hn => ih.bind fun ns ns' hns => ?_
    exact agrees_pure (by rw [hn, hns])

/-- The arguments of a call reach from behind its opening bracket up to the closing one. -/
theorem agrees_rangeBetween (hj : j < ts.length) (hrun : stretch ts i j = first :: run)
    (hargs : rangeArguments? first run = some us) :
    Agrees Eq (rangeBetween ts source i j) (rangeCall source (runSpan first run) us) := by
  obtain ⟨-, hlt, rfl, hclose⟩ := (rangeArguments?_stretch (Nat.le_of_lt hj) hrun).mp hargs
  obtain ⟨u, hu, hclosing⟩ : ∃ u, ts[j - 1]? = some u ∧ u.kind.isClosing = true := by
    obtain ⟨x, hsplit, hlen⟩ := Option.map_eq_some_iff.mp hclose
    rw [← hlen]
    exact (stretch_of_splitAtClose hsplit).2.1
  rw [rangeCall_eq]
  refine (yields_lower (by omega)).agrees ?_
  have hcount : j - 1 + 1 - (i + 2) = j - 1 - (i + 2) + 1 := by omega
  have hread := agrees_argumentsFrom source 0 hu hclosing
    (Nat.add_sub_of_le (by omega : i + 2 ≤ j - 1)) (Nat.le_refl (i + 2))
  rw [stretch_self, joinFirst_nil] at hread
  rw [hcount]
  refine hread.bind fun xs args hxs => ?_
  subst hxs
  refine (yields_spanOf (Nat.le_of_lt hj) hrun).agrees ?_
  refine (agrees_bounds args).bind fun values values' hvalues => ?_
  subst hvalues
  split
  · exact agrees_pure rfl
  · exact agrees_refuse _

theorem follows_iterable (h : Inside ts pos) :
    Follows ts (iterable ts source pos) (Comprehension.iterable source (ts.drop pos)) := by
  refine (agrees_captureSpan h).bind fun x y hxy => ?_
  obtain ⟨span, last⟩ := x
  obtain ⟨⟨first, run⟩, rest⟩ := y
  obtain ⟨hlast, hrun, hrest, hspan⟩ := hxy
  dsimp only at hlast hrun hrest hspan ⊢
  subst hrest hspan
  have hcall := yields_isRangeCall hlast.lt hrun
  refine hcall.agrees ?_
  cases hargs : rangeArguments? first run with
  | none => exact hlast.pure _
  | some us =>
    refine (agrees_rangeBetween hlast.lt hrun hargs).bind fun r r' hr => ?_
    subst hr
    exact hlast.pure _

end Cursor

end Comprehend
