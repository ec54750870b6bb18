import Comprehend.Proofs.Pieces

/-! Runs of tokens and the texts between their ends. A fragment is a stretch of source that begins
and ends with a word and can stand in any brackets before any break. The reader of comprehensions
captures a fragment whole, and what it captures is one. -/
namespace Comprehend

namespace Comprehension

open Parse

variable {stop : TokenKind → Bool} {depth : Nat} {us rest : List Token} {t : Token}
  {ks ls : List TokenKind}

/-! Runs -/

def EndsAt (stop : TokenKind → Bool) (rest : List Token) : Prop :=
  ∃ t us, rest = t :: us ∧ (t.kind = .eof ∨ endsRun stop t.kind = true)

theorem runUntil_of_sealed (h : Sealed stop depth (kinds us)) (hrest : EndsAt stop rest) :
    runUntil stop depth (us ++ rest) = .ok (us, rest) := by
  induction us generalizing depth with
  | nil =>
    obtain rfl : depth = 0 := h
    obtain ⟨t, vs, rfl, ht⟩ := hrest
    rw [List.nil_append, runUntil]
    by_cases heof : t.kind = .eof
    · simp [heof]
    · have hends : endsRun stop t.kind = true := by simpa [heof] using ht
      simp only [endsRun] at hends
      simp [heof, hends]
  | cons u us ih =>
    obtain ⟨heof, hends, hsealed⟩ := h
    have hgoes : (decide (depth = 0) &&
        (stop u.kind || u.kind.isClosing || isSeparator u.kind)) = false := by
      by_cases hzero : depth = 0
      · simpa [hzero, endsRun] using hends hzero
      · simp [hzero]
    rw [List.cons_append, runUntil, if_neg heof, hgoes, ih hsealed]
    rfl

/-- What a search for the end of a run comes to. -/
theorem sealed_of_runUntil {ts : List Token} (h : runUntil stop depth ts = .ok (us, rest)) :
    ts = us ++ rest ∧ Sealed stop depth (kinds us) ∧ EndsAt stop rest := by
  induction ts generalizing depth us with
  | nil => simp [runUntil, failAt] at h
  | cons u ts ih =>
    rw [runUntil] at h
    split at h
    next heof =>
      split at h
      · simp at h
      next hdepth =>
        obtain ⟨rfl, rfl⟩ := Prod.mk.inj (Except.ok.inj h)
        exact ⟨rfl, Nat.eq_zero_of_not_pos hdepth, u, ts, rfl, .inl heof⟩
    next heof =>
      split at h
      next hends =>
        obtain ⟨rfl, rfl⟩ := Prod.mk.inj (Except.ok.inj h)
        simp only [Bool.and_eq_true, decide_eq_true_eq] at hends
        exact ⟨rfl, hends.1, u, ts, rfl, .inr hends.2⟩
      next hends =>
        obtain ⟨⟨vs, ws⟩, hrun, hpure⟩ := bind_eq_ok.mp h
        obtain ⟨rfl, rfl⟩ := Prod.mk.inj (pure_eq_ok.mp hpure)
        obtain ⟨rfl, hsealed, hws⟩ := ih hrun
        refine ⟨rfl, ⟨heof, fun hzero => ?_, hsealed⟩, hws⟩
        simpa [hzero, endsRun] using hends

/-- Inside brackets, a search runs through sealed tokens whatever it stops at. -/
theorem Sealed.inside {stop' : TokenKind → Bool} {d : Nat} (h : Sealed stop depth ks) (hd : 0 < d)
    (hls : Sealed stop' d ls) : Sealed stop' (d + depth) (ks ++ ls) := by
  induction ks generalizing depth with
  | nil =>
    obtain rfl : depth = 0 := h
    exact hls
  | cons k ks ih =>
    refine ⟨h.1, by omega, ?_⟩
    rw [Token.depthAfter_sealed h]
    exact ih h.2.2

theorem Sealed.passes {stop' : TokenKind → Bool} (h : Sealed stop 0 ks) : Passes stop' 1 ks :=
  fun _ _ hd hls => h.inside hd hls

theorem Sealed.weaken {stop' : TokenKind → Bool} (h : Sealed stop depth ks)
    (hstop : ∀ k, stop' k = true → stop k = true) : Sealed stop' depth ks := by
  induction ks generalizing depth with
  | nil => exact h
  | cons k ks ih =>
    refine ⟨h.1, fun hzero => ?_, ih h.2.2⟩
    have hends := h.2.1 hzero
    simp only [endsRun, Bool.or_eq_false_iff] at hends ⊢
    refine ⟨⟨Bool.not_eq_true _ ▸ fun hk => ?_, hends.1.2⟩, hends.2⟩
    simp [hstop k hk] at hends

/-! Matching brackets -/

/-- From the given bracket depth on, no bracket closes one opened before, and none stays open. -/
def Closed : Nat → List TokenKind → Prop
  | depth, [] => depth = 0
  | depth, k :: ks => (k.isClosing = true → 0 < depth) ∧ Closed (k.depthAfter depth) ks

theorem Sealed.closed (h : Sealed stop depth ks) : Closed depth ks := by
  induction ks generalizing depth with
  | nil => exact h
  | cons k ks ih =>
    obtain ⟨-, hends, hsealed⟩ := h
    refine ⟨fun hclose => Nat.pos_of_ne_zero fun hzero => ?_, ih hsealed⟩
    simpa [endsRun, hclose] using hends hzero

theorem Closed.append {d : Nat} (h : Closed depth ks) (g : Closed d ls) :
    Closed (d + depth) (ks ++ ls) := by
  induction ks generalizing depth with
  | nil =>
    obtain rfl : depth = 0 := h
    exact g
  | cons k ks ih =>
    refine ⟨fun hclose => Nat.lt_of_lt_of_le (h.1 hclose) (Nat.le_add_left _ _), ?_⟩
    rw [Token.depthAfter_add h.1]
    exact ih h.2

theorem closed_brackets {opener closer : TokenKind} (hopen : opener.isOpening = true)
    (hclose : closer.isClosing = true) (h : Closed 0 ks) :
    Closed 0 (opener :: (ks ++ [closer])) := by
  have hnot := (opening_facts hopen).2.1
  have hclosed : Closed 1 [closer] := by
    refine ⟨fun _ => Nat.one_pos, ?_⟩
    simp [TokenKind.depthAfter, hclose, (closing_facts hclose).2, Closed]
  refine ⟨by simp [hnot], ?_⟩
  simpa [TokenKind.depthAfter, hopen] using h.append hclosed

theorem closed_inner {k : TokenKind} (hk : isInner k = true) (h : Closed 0 ks) :
    Closed 0 (k :: ks) := by
  simp only [isInner, Bool.and_eq_true, Bool.not_eq_true'] at hk
  exact ⟨by simp [hk], by simpa [TokenKind.depthAfter, hk] using h⟩

theorem Closed.depthOver {qs : List Piece} (h : Closed depth (Piece.kinds qs)) (d : Nat) :
    Piece.depthOver (d + depth) qs = d := by
  induction qs generalizing depth with
  | nil =>
    obtain rfl : depth = 0 := h
    rfl
  | cons q qs ih =>
    obtain ⟨cs, _ | k⟩ := q
    · exact ih h
    · rw [Piece.depthOver_cons, Piece.depthAfter_some, Token.depthAfter_add h.1]
      exact ih h.2

theorem splitAtClose_of_closed (h : Closed depth (kinds us)) (ht : t.kind.isClosing = true) :
    splitAtClose depth (us ++ t :: rest) = some (us, rest) := by
  induction us generalizing depth with
  | nil =>
    obtain rfl : depth = 0 := h
    simp [splitAtClose, ht]
  | cons u us ih =>
    have hgoes : (u.kind.isClosing && decide (depth = 0)) = false := by
      cases hclose : u.kind.isClosing with
      | false => rfl
      | true => simpa using (Nat.ne_of_gt (h.1 hclose))
    rw [List.cons_append, splitAtClose, hgoes, ih h.2]
    rfl

theorem closed_of_splitAtClose {ts : List Token} (h : splitAtClose depth ts = some (us, rest)) :
    ∃ t, ts = us ++ t :: rest ∧ t.kind.isClosing = true ∧ Closed depth (kinds us) := by
  induction ts generalizing depth us with
  | nil => simp [splitAtClose] at h
  | cons u ts ih =>
    rw [splitAtClose] at h
    split at h
    next hclose =>
      obtain ⟨rfl, rfl⟩ := Prod.mk.inj (Option.some.inj h)
      simp only [Bool.and_eq_true, decide_eq_true_eq] at hclose
      exact ⟨u, rfl, hclose.1, hclose.2⟩
    next hgoes =>
      obtain ⟨⟨vs, ws⟩, hsplit, hpair⟩ := Option.map_eq_some_iff.mp h
      obtain ⟨rfl, rfl⟩ := Prod.mk.inj hpair
      obtain ⟨t, rfl, ht, hclosed⟩ := ih hsplit
      refine ⟨t, rfl, ht, fun hclose => Nat.pos_of_ne_zero fun hzero => ?_, hclosed⟩
      simp [hclose, hzero] at hgoes

/-- A loop behind a sealed run is seen. -/
theorem hasLoop_of_sealed (h : Sealed stop depth (kinds us)) (ht : t.kind = .kwFor) :
    hasLoop depth (us ++ t :: rest) = true := by
  induction us generalizing depth with
  | nil =>
    obtain rfl : depth = 0 := h
    simp [hasLoop, isFor, ht]
  | cons u us ih => simp [hasLoop, ih h.2.2]

end Comprehension

/-! Texts in a source -/

def Located (source : List Char) (p : Place) (cs : List Char) : Prop :=
  cs <+: source.drop p.offset

theorem located_append {source : List Char} {p : Place} {cs ds : List Char} :
    Located source p (cs ++ ds) ↔ Located source p cs ∧ Located source (p.over cs) ds := by
  have hdrop : source.drop (p.over cs).offset = (source.drop p.offset).drop cs.length := by
    rw [Place.offset_over, List.drop_drop]
  unfold Located
  rw [hdrop]
  constructor
  · intro h
    refine ⟨(List.prefix_append cs ds).trans h, ?_⟩
    obtain ⟨us, hus⟩ := h
    rw [← hus]
    simp
  · rintro ⟨hcs, hds⟩
    exact Token.prefixed_append hcs hds

theorem located_start (source : List Char) : Located source {} source :=
  List.prefix_rfl

/-- A stretch that starts where the characters do and is as long as they are holds them. -/
theorem Located.slice {source : List Char} {p : Place} {cs : List Char} (h : Located source p cs)
    {span : Span} (hstart : span.start = p.offset) (hstop : span.stop = p.offset + cs.length) :
    span.slice source = cs := by
  rw [Span.slice, hstart, hstop, List.drop_take, Nat.add_sub_cancel_left]
  exact (List.prefix_iff_eq_take.mp h).symm

namespace Text

theorem trim_of_bare {cs : List Char} (hfirst : ∀ c ∈ cs.head?, isBlank c = false)
    (hlast : ∀ c ∈ cs.getLast?, isBlank c = false) : trim cs = cs := by
  have hdrop {ds : List Char} (h : ∀ c ∈ ds.head?, isBlank c = false) :
      ds.dropWhile isBlank = ds := by
    cases ds with
    | nil => rfl
    | cons d ds => simp [h d (by simp)]
  rw [trim, hdrop hfirst, hdrop (by simpa using hlast), List.reverse_reverse]

end Text

namespace Token

open Piece Text

theorem Tiles.first_not_blank {rest : List Char} {depth : Nat} {qs : List Piece}
    (h : Tiles rest depth qs) (hstarts : StartsInWord qs) :
    ∀ c ∈ (text qs).head?, isBlank c = false := by
  obtain ⟨cs, k, rs, rfl, hk⟩ := hstarts
  cases h with
  | line h => simp [isWordKind] at hk
  | word hword h =>
    have hstart := (isGapStart_of_lexeme hword).1
    simp only [isGapStart, Bool.or_eq_false_iff] at hstart
    simp [hstart]

theorem Tiles.last_not_blank {rest : List Char} {depth : Nat} {qs : List Piece}
    (h : Tiles rest depth qs) (hends : EndsInWord qs) (hne : qs ≠ []) :
    ∀ c ∈ (text qs).getLast?, isBlank c = false := by
  obtain ⟨rs, cs, k, rfl, hk⟩ := hends.exists_last hne
  have htail := (tiles_append.mp h).2
  generalize depthOver depth rs = d at htail
  cases htail with
  | line _ => simp [isWordKind] at hk
  | @word _ c cs _ _ hword _ =>
    have hlast := (isGapStart_of_lexeme hword).2
    intro d hd
    have hgap : isGapStart d = false := by
      simpa using hlast d (by simpa [List.getLast?_append] using hd)
    simp only [isGapStart, Bool.or_eq_false_iff] at hgap
    exact hgap.1.1

/-- The stretch from the first token of pieces to their last holds all their characters. -/
theorem runSpan_tokens (p : Place) {qs : List Piece} (hstarts : StartsInWord qs)
    (hends : EndsInWord qs) :
    ∃ first run, tokens p qs = first :: run ∧ first.span.start = p.offset ∧
      (run.getLast?.getD first).span.stop = p.offset + (text qs).length ∧
      (Comprehension.runSpan first run).start = p.offset ∧
      (Comprehension.runSpan first run).stop = p.offset + (text qs).length := by
  obtain ⟨rs, ds, l, hlast, -⟩ := hends.exists_last hstarts.ne_nil
  obtain ⟨cs, k, vs, hfirst, -⟩ := hstarts
  have hgetLast : (tokens p qs).getLast? =
      some ⟨l, (p.over (text rs)).span ds.length⟩ := by
    rw [hlast, tokens_append, tokens_some]
    simp
  have hlength : (text qs).length = (text rs).length + ds.length := by simp [hlast]
  have hlength' : (text qs).length = cs.length + (text vs).length := by simp [hfirst]
  refine ⟨⟨k, p.span cs.length⟩, tokens (p.over cs) vs, by rw [hfirst, tokens_some], rfl, ?_⟩
  rw [hfirst, tokens_some, List.getLast?_cons, Option.some.injEq] at hgetLast
  rw [Comprehension.runSpan, hgetLast]
  simp only [Span.merge, Place.span, Place.offset_over]
  omega

end Token

namespace Comprehension

open Token

/-- A stretch of source that makes one expression: it begins and ends with a word, no token in it
ends the run of its tokens, and it may stand in any brackets before any break. -/
structure Fragment (stop : TokenKind → Bool) where
  pieces : List Piece
  starts : StartsInWord pieces
  ends : EndsInWord pieces
  tiles : ∀ depth rest, 0 < depth → Breaks rest → Tiles rest depth pieces
  sealed : Sealed stop 0 (Piece.kinds pieces)

namespace Fragment

variable {stop : TokenKind → Bool} (f : Fragment stop)

def text : String :=
  String.ofList (Piece.text f.pieces)

@[simp] theorem toList_text : f.text.toList = Piece.text f.pieces :=
  String.toList_ofList

theorem trim_text : Text.trim (Piece.text f.pieces) = Piece.text f.pieces := by
  have htiles := f.tiles 1 [] (by decide) (by simp)
  exact Text.trim_of_bare (htiles.first_not_blank f.starts)
    (htiles.last_not_blank f.ends f.starts.ne_nil)

def weaken {stop' : TokenKind → Bool} (hstop : ∀ k, stop' k = true → stop k = true) :
    Fragment stop' :=
  ⟨f.pieces, f.starts, f.ends, f.tiles, f.sealed.weaken hstop⟩

variable {f} {source : List Char} {p : Place} {rest : List Token}

/-- The tokens of a fragment, and the text they span. -/
theorem exists_run (hsource : Located source p (Piece.text f.pieces)) :
    ∃ first run, Piece.tokens p f.pieces = first :: run ∧
      (runSpan first run).text source = f.text := by
  obtain ⟨first, run, htokens, -, -, hstart, hstop⟩ := runSpan_tokens p f.starts f.ends
  refine ⟨first, run, htokens, ?_⟩
  rw [Span.text, hsource.slice hstart hstop, f.trim_text]
  rfl

theorem text_of_tokens {first : Token} {run : List Token}
    (htokens : Piece.tokens p f.pieces = first :: run)
    (hsource : Located source p (Piece.text f.pieces)) :
    (runSpan first run).text source = f.text := by
  obtain ⟨first', run', htokens', htext⟩ := exists_run hsource
  obtain ⟨rfl, rfl⟩ := List.cons.inj (htokens.symm.trans htokens')
  exact htext

/-- A fragment is captured whole. -/
theorem captureRun {first : Token} {run : List Token}
    (htokens : Piece.tokens p f.pieces = first :: run) (hrest : EndsAt stop rest) :
    captureRun stop (Piece.tokens p f.pieces ++ rest) = .ok ((first, run), rest) := by
  have hsealed : Sealed stop 0 (Parse.kinds (Piece.tokens p f.pieces)) := by
    rw [Piece.kinds_tokens]
    exact f.sealed
  rw [Comprehension.captureRun, runUntil_of_sealed hsealed hrest, htokens]
  rfl

theorem capture (hsource : Located source p (Piece.text f.pieces)) (hrest : EndsAt stop rest) :
    capture source stop (Piece.tokens p f.pieces ++ rest) = .ok (f.text, rest) := by
  obtain ⟨first, run, htokens, htext⟩ := exists_run hsource
  rw [Comprehension.capture, captureRun htokens hrest, ← htext]
  rfl

end Fragment

end Comprehension

end Comprehend
