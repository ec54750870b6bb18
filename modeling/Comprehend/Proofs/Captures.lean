import Comprehend.Proofs.Statements

/-! What the reader of comprehensions takes from a source. The tokens ahead of it are those of
pieces that tile the rest of the source, and so every text that it captures is a fragment: it can be
put into other brackets, and is captured there again. -/
namespace Comprehend

namespace Token

open Piece

variable {p : Place} {qs : List Piece} {us vs : List Token}

/-- The tokens at the front of pieces are those of the pieces at the front. -/
theorem tokens_eq_append (h : tokens p qs = us ++ vs) :
    ∃ ms rs, qs = ms ++ rs ∧ us = tokens p ms ∧ vs = tokens (p.over (Piece.text ms)) rs ∧
      ∀ q ∈ ms.getLast?, q.kind ≠ none := by
  induction qs generalizing p us with
  | nil =>
    obtain ⟨rfl, rfl⟩ := List.append_eq_nil_iff.mp h.symm
    exact ⟨[], [], rfl, rfl, rfl, by simp⟩
  | cons q qs ih =>
    cases us with
    | nil => exact ⟨[], q :: qs, rfl, rfl, h.symm, by simp⟩
    | cons u us =>
      obtain ⟨cs, _ | k⟩ := q
      · obtain ⟨ms, rs, rfl, hus, rfl, hlast⟩ := ih h
        refine ⟨⟨cs, none⟩ :: ms, rs, rfl, hus, by simp, ?_⟩
        cases ms with
        | nil => simp at hus
        | cons m ms => simpa [List.getLast?_cons_cons] using hlast
      · obtain ⟨rfl, htail⟩ := List.cons.inj h
        obtain ⟨ms, rs, rfl, rfl, rfl, hlast⟩ := ih htail
        refine ⟨⟨cs, some k⟩ :: ms, rs, rfl, rfl, by simp, ?_⟩
        cases ms with
        | nil => simp
        | cons m ms => simpa [List.getLast?_cons_cons] using hlast

/-- Only gaps stand before the piece of the first token. -/
theorem exists_first_piece {t : Token} (h : tokens p qs = t :: us) :
    ∃ gs cs rs, qs = gs ++ ⟨cs, some t.kind⟩ :: rs ∧ Piece.kinds gs = [] := by
  induction qs generalizing p with
  | nil => simp at h
  | cons q qs ih =>
    obtain ⟨cs, _ | k⟩ := q
    · obtain ⟨gs, ds, rs, rfl, hgs⟩ := ih h
      exact ⟨⟨cs, none⟩ :: gs, ds, rs, rfl, hgs⟩
    · obtain ⟨rfl, -⟩ := List.cons.inj h
      exact ⟨[], cs, qs, rfl, rfl⟩

theorem depthOver_eq_foldl (depth : Nat) (qs : List Piece) :
    depthOver depth qs = (Piece.kinds qs).foldl TokenKind.depthAfter depth := by
  induction qs generalizing depth with
  | nil => rfl
  | cons q qs ih =>
    obtain ⟨cs, _ | k⟩ := q <;> simp [ih]

theorem tokens_of_kinds_nil {gs : List Piece} (h : Piece.kinds gs = []) (p : Place) :
    tokens p gs = [] :=
  List.map_eq_nil_iff.mp ((kinds_tokens p gs).trans h)

/-- Inside brackets, no line feed counts. -/
theorem Tiles.sunk_eq {rest : List Char} {a₀ : Nat} {stop : TokenKind → Bool} (hpos : 0 < a₀)
    {a x : Nat} (h : Tiles rest a qs) (ha : a = a₀ + x)
    (hsealed : Comprehension.Sealed stop x (Piece.kinds qs)) : sunk qs = qs := by
  induction h generalizing x with
  | done => rfl
  | gap _ _ ih => rw [sunk_gap, ih ha hsealed]
  | line _ _ => omega
  | @word depth c cs k qs hword _ ih =>
    have hk : k ≠ .newline := by
      have := isWordKind_of_lexeme hword
      simp_all [isWordKind]
    rw [sunk_word hk, ih (by rw [ha, depthAfter_sealed hsealed]) hsealed.2.2]

end Token

namespace Comprehension

open Token Parse

variable {stop : TokenKind → Bool} {source : List Char} {depth : Nat} {us rest ts : List Token}
  {t : Token}

/-- The tokens ahead are those of pieces that tile the rest of the source, from the given bracket
depth on. -/
def Stream (source : List Char) (depth : Nat) (ts : List Token) : Prop :=
  ∃ p qs last, ts = Piece.tokens p qs ++ [last] ∧ last.kind = .eof ∧ Tiles [] depth qs ∧
    Located source p (Piece.text qs)

theorem stream_of_scan (h : scan source = .ok ts) : Stream source 0 ts := by
  obtain ⟨qs, rfl, htiles, rfl⟩ := scan_eq_ok_iff.mp h
  exact ⟨{}, qs, _, rfl, rfl, htiles, located_start _⟩

theorem Stream.isName (h : Stream source depth ts) {n : String} (hn : .ident n ∈ kinds ts) :
    isName n = true := by
  obtain ⟨p, qs, last, rfl, hlast, htiles, -⟩ := h
  rw [kinds_append, Piece.kinds_tokens, kinds_cons, hlast] at hn
  exact htiles.isName_of_mem (by simpa using hn)

/-- Tokens taken from the front are those of pieces, and what is left is a stream again. -/
theorem Stream.split (h : Stream source depth (us ++ rest)) (hrest : rest ≠ []) :
    ∃ p ms cs, us = Piece.tokens p ms ∧ Tiles cs depth ms ∧ Located source p (Piece.text ms) ∧
      (∀ q ∈ ms.getLast?, q.kind ≠ none) ∧
      Stream source ((kinds us).foldl TokenKind.depthAfter depth) rest := by
  obtain ⟨p, qs, last, happend, hlast, htiles, hsource⟩ := h
  obtain ⟨vs, hvs, rfl⟩ : ∃ vs, Piece.tokens p qs = us ++ vs ∧ rest = vs ++ [last] := by
    rcases List.eq_nil_or_concat rest with rfl | ⟨vs, l, rfl⟩
    · exact absurd rfl hrest
    · rw [List.concat_eq_append, ← List.append_assoc] at happend
      obtain ⟨hvs, hl⟩ := List.append_inj' happend rfl
      exact ⟨vs, hvs.symm, by rw [List.concat_eq_append, hl]⟩
  obtain ⟨ms, rs, rfl, rfl, rfl, hms⟩ := tokens_eq_append hvs
  rw [Piece.text_append, located_append] at hsource
  obtain ⟨htiles, hmore⟩ := tiles_append.mp htiles
  rw [depthOver_eq_foldl, ← Piece.kinds_tokens p] at hmore
  exact ⟨p, ms, _, rfl, htiles, hsource.1, hms, _, rs, last, rfl, hlast, hmore, hsource.2⟩

theorem Stream.tail (h : Stream source depth (t :: ts)) (ht : t.kind ≠ .eof) :
    Stream source (t.kind.depthAfter depth) ts := by
  have hne : ts ≠ [] := by
    rintro rfl
    obtain ⟨p, qs, last, happend, hlast, -⟩ := h
    obtain ⟨-, hl⟩ := List.append_inj' (show [] ++ [t] = _ from happend) rfl
    exact ht (by rw [List.singleton_inj.mp hl, hlast])
  have h' : Stream source depth ([t] ++ ts) := h
  obtain ⟨-, -, -, -, -, -, -, hts⟩ := h'.split hne
  exact hts

theorem Stream.drop (h : Stream source depth ts) {k : TokenKind} (hk : peek ts = k)
    (hne : k ≠ .eof) : Stream source (k.depthAfter depth) (ts.drop 1) := by
  cases ts with
  | nil => exact absurd hk.symm hne
  | cons t ts =>
    obtain rfl : t.kind = k := hk
    exact h.tail hne

/-- Pieces inside brackets whose tokens are a sealed run make a fragment, gaps before them left
out. -/
theorem exists_fragment_of_tiles {p : Place} {ms : List Piece} {cs : List Char} {first : Token}
    {run : List Token} (htokens : Piece.tokens p ms = first :: run) (htiles : Tiles cs depth ms)
    (hdepth : 0 < depth) (hsource : Located source p (Piece.text ms))
    (hlast : ∀ q ∈ ms.getLast?, q.kind ≠ none) (hsealed : Sealed stop 0 (kinds (first :: run))) :
    ∃ (f : Fragment stop) (p' : Place), Piece.tokens p' f.pieces = first :: run ∧
      Located source p' (Piece.text f.pieces) := by
  have hkinds := Piece.kinds_tokens p ms
  rw [htokens] at hkinds
  obtain ⟨gs, ds, rs, rfl, hgs⟩ := exists_first_piece htokens
  rw [Piece.kinds_append, hgs, List.nil_append] at hkinds
  rw [hkinds] at hsealed
  have hmid := (tiles_append.mp htiles).2
  rw [depthOver_eq_foldl, hgs, List.foldl_nil] at hmid
  have hsunk := hmid.sunk_eq hdepth rfl hsealed
  have hword : ∀ k ∈ Piece.kinds (⟨ds, some first.kind⟩ :: rs), isWordKind k = true := by
    intro k hk
    refine hmid.isWordKind_of_mem hk ?_
    rw [← hsunk, kinds_sunk] at hk
    simpa using (List.mem_filter.mp hk).2
  have hends : EndsInWord (⟨ds, some first.kind⟩ :: rs) := by
    intro q hq
    have hne := hlast q (by simp [List.getLast?_append, Option.mem_def.mp hq])
    obtain ⟨k, hk⟩ := Option.ne_none_iff_exists'.mp hne
    exact ⟨k, hk, hword k (List.mem_filterMap.mpr ⟨q, List.mem_of_mem_getLast? hq, hk⟩)⟩
  have hmoved (depth' : Nat) (cs' : List Char) (hdepth' : 0 < depth') (hcs' : Breaks cs') :
      Tiles cs' depth' (⟨ds, some first.kind⟩ :: rs) := by
    have := hmid.sink hcs' hdepth' rfl hends (by rwa [hsunk])
    rwa [hsunk] at this
  rw [Piece.text_append, located_append] at hsource
  rw [Piece.tokens_append, tokens_of_kinds_nil hgs, List.nil_append] at htokens
  exact ⟨⟨_, ⟨_, _, _, rfl, hword _ (by simp)⟩, hends, hmoved, hsealed⟩, _, htokens, hsource.2⟩

/-- A run is captured from the front of the tokens. -/
theorem captureRun_eq_ok {first : Token} {run : List Token}
    (h : captureRun stop ts = .ok ((first, run), rest)) :
    ts = first :: run ++ rest ∧ Sealed stop 0 (kinds (first :: run)) ∧ EndsAt stop rest := by
  obtain ⟨⟨us, vs⟩, huntil, hmatch⟩ := bind_eq_ok.mp h
  obtain ⟨rfl, rfl⟩ : us = first :: run ∧ vs = rest := by
    cases us with
    | nil => simp at hmatch
    | cons u us =>
      obtain ⟨hfirst, hrest⟩ := Prod.mk.inj (pure_eq_ok.mp hmatch)
      obtain ⟨rfl, rfl⟩ := Prod.mk.inj hfirst
      exact ⟨rfl, hrest⟩
  exact sealed_of_runUntil huntil

theorem capture_eq_ok {s : String} (h : capture source stop ts = .ok (s, rest)) :
    ∃ first run, captureRun stop ts = .ok ((first, run), rest) ∧
      s = (runSpan first run).text source := by
  obtain ⟨⟨⟨first, run⟩, us⟩, hrun, hpure⟩ := bind_eq_ok.mp h
  obtain ⟨rfl, rfl⟩ := Prod.mk.inj (pure_eq_ok.mp hpure)
  exact ⟨first, run, hrun, rfl⟩

/-- What is captured inside brackets is a fragment, which stands where it is captured. -/
theorem Stream.captureRun (h : Stream source depth ts) (hdepth : 0 < depth) {first : Token}
    {run : List Token} (hrun : captureRun stop ts = .ok ((first, run), rest)) :
    (∃ (f : Fragment stop) (p : Place), Piece.tokens p f.pieces = first :: run ∧
      Located source p (Piece.text f.pieces)) ∧ Stream source depth rest := by
  obtain ⟨rfl, hsealed, t, vs, rfl, -⟩ := captureRun_eq_ok hrun
  obtain ⟨p, ms, cs, htokens, htiles, hsource, hlast, hrest⟩ := h.split (by simp)
  refine ⟨exists_fragment_of_tiles htokens.symm htiles hdepth hsource hlast hsealed, ?_⟩
  have hclosed := hsealed.closed
  rw [htokens, Piece.kinds_tokens] at hclosed hrest
  rwa [← depthOver_eq_foldl, show Piece.depthOver depth ms = depth from hclosed.depthOver depth]
    at hrest

theorem Stream.capture (h : Stream source depth ts) (hdepth : 0 < depth) {s : String}
    (hcapture : capture source stop ts = .ok (s, rest)) : ∃ f : Fragment stop, f.text = s := by
  obtain ⟨first, run, hrun, rfl⟩ := capture_eq_ok hcapture
  obtain ⟨⟨f, p, htokens, hsource⟩, -⟩ := h.captureRun hdepth hrun
  exact ⟨f, (Fragment.text_of_tokens htokens hsource).symm⟩

/-! Iterables -/

theorem step_ne_zero_of_rangeOf {bounds : List Int64} {r : Range} (h : rangeOf bounds = .ok r) :
    r.step ≠ 0 := by
  have hone : (1 : Int64) ≠ 0 := by decide
  unfold rangeOf at h
  split at h
  · cases h
    exact hone
  · cases h
    exact hone
  · split at h
    · simp at h
    next hstep =>
      cases h
      exact hstep
  · simp at h

theorem rangeCall_eq_ok {span : Span} {inside : List Token} {r : Range}
    (h : rangeCall source span inside = .ok r) :
    ∃ bounds, (arguments inside).mapM (rangeBound source) = .ok bounds ∧
      rangeOf bounds = .ok r := by
  unfold rangeCall at h
  dsimp only at h
  split at h
  · simp at h
  · obtain ⟨bounds, hbounds, hmatch⟩ := bind_eq_ok.mp h
    split at hmatch
    next r' hr =>
      obtain rfl := pure_eq_ok.mp hmatch
      exact ⟨bounds, hbounds, hr⟩
    · simp at hmatch

/-- A loop runs over a range if the tokens have the form of a call, and over a text otherwise. -/
theorem iterable_eq_ok {items : Source} (h : iterable source ts = .ok (items, rest)) :
    ∃ first run, captureRun endsFilter ts = .ok ((first, run), rest) ∧
      ((∃ inside r, rangeArguments? first run = some inside ∧
          rangeCall source (runSpan first run) inside = .ok r ∧ items = .range r) ∨
        (rangeArguments? first run = none ∧ items = .text ((runSpan first run).text source))) := by
  obtain ⟨⟨⟨first, run⟩, us⟩, hrun, hmatch⟩ := bind_eq_ok.mp h
  dsimp only at hmatch
  split at hmatch
  next inside hinside =>
    obtain ⟨r, hcall, hpure⟩ := bind_eq_ok.mp hmatch
    obtain ⟨rfl, rfl⟩ := Prod.mk.inj (pure_eq_ok.mp hpure)
    exact ⟨first, run, hrun, .inl ⟨inside, r, hinside, hcall, rfl⟩⟩
  next hnone =>
    obtain ⟨rfl, rfl⟩ := Prod.mk.inj (pure_eq_ok.mp hmatch)
    exact ⟨first, run, hrun, .inr ⟨hnone, rfl⟩⟩

theorem exists_range {r : Range} (h : r.step ≠ 0) : ∃ i : Iterable, i.values = .range r := by
  obtain ⟨start⟩ := nonempty_bound r.start
  obtain ⟨stop⟩ := nonempty_bound r.stop
  obtain ⟨step⟩ := nonempty_bound r.step
  exact ⟨.range r start stop step h, rfl⟩

theorem Stream.iterable (h : Stream source depth ts) (hdepth : 0 < depth) {items : Source}
    (hitems : iterable source ts = .ok (items, rest)) : ∃ i : Iterable, i.values = items := by
  obtain ⟨first, run, hrun, ⟨inside, r, -, hcall, rfl⟩ | ⟨hnone, rfl⟩⟩ := iterable_eq_ok hitems
  · obtain ⟨bounds, -, hrange⟩ := rangeCall_eq_ok hcall
    exact exists_range (step_ne_zero_of_rangeOf hrange)
  · obtain ⟨⟨f, p, htokens, hsource⟩, -⟩ := h.captureRun hdepth hrun
    rw [rangeArguments?_eq_none, ← htokens, Piece.kinds_tokens] at hnone
    refine ⟨.text f hnone, ?_⟩
    rw [Iterable.values, Fragment.text_of_tokens htokens hsource]

/-! Brackets -/

theorem depthAfter_opening {k : TokenKind} (hk : k.isOpening = true) (depth : Nat) :
    k.depthAfter depth = depth + 1 := by
  simp [TokenKind.depthAfter, hk]

/-- Behind an opening bracket, the stream is inside brackets. -/
theorem Stream.opened (h : Stream source depth ts) (hopen : (peek ts).isOpening = true) :
    Stream source (depth + 1) (ts.drop 1) := by
  rw [← depthAfter_opening hopen]
  exact h.drop rfl (opening_facts hopen).1

theorem Stream.suffix (h : Stream source depth ts) {us : List Token} (hsuffix : us <:+ ts)
    (hne : us ≠ []) : ∃ d, Stream source d us := by
  obtain ⟨vs, rfl⟩ := hsuffix
  obtain ⟨-, -, -, -, -, -, -, hus⟩ := h.split hne
  exact ⟨_, hus⟩

end Comprehension

end Comprehend
