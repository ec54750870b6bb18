import Mathlib
import Comprehend.Proofs.Captures

/-! Tokens tile the source. Each token stands behind the one before it, and between the two there is
nothing but blanks, line feeds inside brackets, continued lines and comments. -/
namespace Comprehend.Token

open Piece Parse Text

/-- What may stand before a token at the given bracket depth; `rest` is the source from the token
on. -/
inductive Skipped (depth : Nat) (rest : List Char) : List Char → Prop
  | done : Skipped depth rest []
  | blank {c cs} : isBlank c = true → c ≠ '\n' → Skipped depth rest cs →
      Skipped depth rest (c :: cs)
  | line {cs} : 0 < depth → Skipped depth rest cs → Skipped depth rest ('\n' :: cs)
  | continued {cs} : Skipped depth rest cs → Skipped depth rest ('\\' :: '\n' :: cs)
  | comment {cs ds} : '\n' ∉ cs → (∀ c ∈ (ds ++ rest).head?, c = '\n') → Skipped depth rest ds →
      Skipped depth rest ('#' :: cs ++ ds)

/-- The bracket depth behind tokens; a closing bracket does not take it below zero. -/
def depthBehind (ts : List Token) : Nat :=
  (kinds ts).foldl TokenKind.depthAfter 0

/-- Where the last of the tokens stops; the start of the source if there is none. -/
def stopOf (ts : List Token) : Nat :=
  (ts.getLast?.map (·.span.stop)).getD 0

variable {depth : Nat} {p : Place} {rest : List Char} {qs gs ms : List Piece} {us vs : List Token}
  {t : Token}

/-! Gaps -/

theorem takeWhile_eq_self {r : Char → Bool} {cs ds : List Char}
    (h : ((cs ++ ds).takeWhile r).length = cs.length) :
    (∀ c ∈ cs, r c = true) ∧ ∀ c ∈ ds.head?, r c = false := by
  induction cs with
  | nil =>
    refine ⟨by simp, fun c hc => ?_⟩
    cases ds with
    | nil => simp at hc
    | cons d ds =>
      obtain rfl : d = c := by simpa using hc
      simpa [List.takeWhile_cons] using h
  | cons c cs ih =>
    simp only [List.cons_append, List.takeWhile_cons] at h
    split at h
    next hc =>
      obtain ⟨hcs, hds⟩ := ih (by simpa using h)
      exact ⟨by simpa [hc] using hcs, hds⟩
    next => simp at h

/-- One gap of the scanner in front of what may be skipped. -/
theorem Skipped.gap {c : Char} {cs ds : List Char}
    (h : Token.gap depth c (cs ++ (ds ++ rest)) = cs.length + 1) (hds : Skipped depth rest ds) :
    Skipped depth rest (c :: cs ++ ds) := by
  unfold Token.gap at h
  split at h
  next hline =>
    subst hline
    split at h
    next hdepth =>
      obtain rfl : cs = [] := List.eq_nil_of_length_eq_zero (by omega)
      exact .line hdepth hds
    next => omega
  next hline =>
  split at h
  next hblank =>
    obtain rfl : cs = [] := List.eq_nil_of_length_eq_zero (by omega)
    exact .blank hblank hline hds
  split at h
  next hback =>
    obtain ⟨rfl, hhead⟩ := hback
    obtain ⟨d, rfl⟩ := List.length_eq_one_iff.mp (show cs.length = 1 by omega)
    obtain rfl : d = '\n' := by simpa using hhead
    exact .continued hds
  split at h
  next hhash =>
    subst hhash
    obtain ⟨hbody, hend⟩ := takeWhile_eq_self (Nat.add_left_cancel (h.trans (Nat.add_comm _ _)))
    refine .comment (fun hmem => ?_) (fun d hd => ?_) hds
    · simpa using hbody '\n' hmem
    · simpa using hend d hd
  next => omega

theorem Tiles.skipped (h : Tiles rest depth gs) (hgs : Piece.kinds gs = []) :
    Skipped depth rest (text gs) := by
  induction h with
  | done => exact .done
  | gap hgap _ ih => exact .gap hgap (ih hgs)
  | line _ _ => simp at hgs
  | word _ _ _ => simp at hgs

/-! The tokens of pieces, one by one -/

/-- The tokens in front stop where the piece of the last of them does. -/
theorem stopOf_tokens (hms : ∀ q ∈ ms.getLast?, q.kind ≠ none) :
    stopOf (tokens {} ms) = (text ms).length := by
  rcases List.eq_nil_or_concat ms with rfl | ⟨ns, ⟨cs, kind⟩, rfl⟩
  · rfl
  · obtain ⟨k, rfl⟩ := Option.ne_none_iff_exists'.mp (hms ⟨cs, kind⟩ (by simp))
    simp [stopOf, tokens_append, Place.span, List.getLast?_append]

/-- A token is made of a piece, with a gap between this piece and the tokens in front. -/
theorem exists_piece (h : tokens p qs = us ++ t :: vs) :
    ∃ ms gs cs rs, qs = ms ++ (gs ++ ⟨cs, some t.kind⟩ :: rs) ∧ us = tokens p ms ∧
      (∀ q ∈ ms.getLast?, q.kind ≠ none) ∧ Piece.kinds gs = [] ∧
      t.span = (p.over (text ms ++ text gs)).span cs.length := by
  obtain ⟨ms, ns, rfl, hus, htail, hms⟩ := tokens_eq_append h
  obtain ⟨gs, cs, rs, rfl, hgs⟩ := exists_first_piece htail.symm
  rw [tokens_append, tokens_of_kinds_nil hgs, List.nil_append, tokens_some] at htail
  refine ⟨ms, gs, cs, rs, rfl, hus, hms, hgs, ?_⟩
  rw [Place.over_append, (List.cons.inj htail).1]

/-- A token stands behind the tokens in front of it, and what is between is skipped. -/
structure Follows (source : List Char) (us : List Token) (t : Token) : Prop where
  behind : stopOf us ≤ t.span.start
  skipped : Skipped (depthBehind us) (source.drop t.span.start)
    ((source.take t.span.start).drop (stopOf us))
  newline : t.kind = .newline → depthBehind us = 0

/-- Tokens, gaps behind them and a token behind the gaps. -/
theorem Follows.of_pieces {rs : List Piece} (h : Tiles [] 0 (ms ++ (gs ++ rs)))
    (hms : ∀ q ∈ ms.getLast?, q.kind ≠ none) (hgs : Piece.kinds gs = [])
    (hstart : t.span.start = (text ms ++ text gs).length)
    (hline : t.kind = .newline → depthBehind (tokens {} ms) = 0) :
    Follows (text (ms ++ (gs ++ rs))) (tokens {} ms) t := by
  have hstop := stopOf_tokens hms
  have hdepth : depthOver 0 ms = depthBehind (tokens {} ms) := by
    rw [depthOver_eq_foldl, ← kinds_tokens {}, depthBehind]
  obtain ⟨hgap, -⟩ := tiles_append.mp (tiles_append.mp h).2
  rw [List.append_nil, hdepth] at hgap
  have hsource : text (ms ++ (gs ++ rs)) = (text ms ++ text gs) ++ text rs := by simp
  refine ⟨?_, ?_, hline⟩
  · rw [hstop, hstart, List.length_append]
    omega
  · rw [hsource, hstart, hstop, List.take_left, List.drop_left, List.drop_left]
    exact hgap.skipped hgs

/-- The piece of a token is not empty, and that of a line feed stands outside brackets. -/
theorem Tiles.head {cs : List Char} {k : TokenKind} (h : Tiles rest depth (⟨cs, some k⟩ :: qs)) :
    cs ≠ [] ∧ (k = .newline → depth = 0) := by
  cases h with
  | line _ => simp
  | word hword _ =>
    refine ⟨by simp, ?_⟩
    rintro rfl
    have hk := isWordKind_of_lexeme hword
    simp [isWordKind] at hk

/-- A token before the end stands in the source, behind the tokens in front of it. -/
theorem follows_of_tokens (h : Tiles [] 0 qs) (htokens : tokens {} qs = us ++ t :: vs) :
    t.span.start < t.span.stop ∧ t.span.stop ≤ (text qs).length ∧ Follows (text qs) us t := by
  obtain ⟨ms, gs, cs, rs, rfl, rfl, hms, hgs, hspan⟩ := exists_piece htokens
  obtain ⟨-, hrest⟩ := tiles_append.mp h
  obtain ⟨hne, hline⟩ := (tiles_append.mp hrest).2.head
  have hpos := List.length_pos_iff.mpr hne
  rw [depthOver_eq_foldl, hgs, List.foldl_nil, depthOver_eq_foldl, ← kinds_tokens {}] at hline
  refine ⟨?_, ?_, .of_pieces h hms hgs (by simp [hspan, Place.span]) hline⟩
  · simpa [hspan, Place.span] using hpos
  · simp only [hspan, Place.span, Place.offset_over, text_append, text_cons, List.length_append]
    omega

/-- The end mark stands behind all tokens, at the end of the source. -/
theorem follows_endOf (h : Tiles [] 0 qs) : Follows (text qs) (tokens {} qs) (endOf (text qs)) := by
  obtain ⟨ms, gs, rfl, hus, hgs, hms⟩ :=
    tokens_eq_append ((List.append_nil (tokens {} qs)).symm)
  have hkinds : Piece.kinds gs = [] := by
    rw [← kinds_tokens (Place.over {} (text ms)), ← hgs, Parse.kinds_nil]
  have htiles : Tiles [] 0 (ms ++ (gs ++ [])) := by simpa using h
  have hfollows := Follows.of_pieces (t := endOf (text (ms ++ gs))) htiles hms hkinds
    (by simp [endOf, Place.span]) (by simp [endOf])
  rw [hus]
  simpa using hfollows

/-- Tokens tile the source: only the last one is an end mark, at the end of the source; the others
are stretches of the source that are not empty; and each stands behind those in front of it, with
nothing between but what is skipped. -/
theorem scan_tiles {source : List Char} {ts : List Token} (h : scan source = .ok ts) :
    (∃ us last, ts = us ++ [last] ∧ last.kind = .eof ∧ last.span.start = source.length ∧
      last.span.stop = source.length ∧
      ∀ t ∈ us, t.kind ≠ .eof ∧ t.span.start < t.span.stop ∧ t.span.stop ≤ source.length) ∧
    ∀ us t vs, ts = us ++ t :: vs → Follows source us t := by
  obtain ⟨qs, rfl, htiles, rfl⟩ := scan_eq_ok_iff.mp h
  refine ⟨⟨_, _, rfl, rfl, ?_, ?_, fun t ht => ?_⟩, fun us t vs hts => ?_⟩
  · simp [endOf, Place.span]
  · simp [endOf, Place.span]
  · obtain ⟨us, vs, hsplit⟩ := List.append_of_mem ht
    obtain ⟨hpos, hstop, -⟩ := follows_of_tokens htiles hsplit
    refine ⟨htiles.kinds_ne_eof _ ?_, hpos, hstop⟩
    rw [← kinds_tokens {}]
    exact List.mem_map_of_mem ht
  · rcases List.eq_nil_or_concat vs with rfl | ⟨ws, last, rfl⟩
    · obtain ⟨rfl, hlast⟩ := List.append_inj' hts rfl
      obtain rfl := List.singleton_inj.mp hlast
      exact follows_endOf htiles
    · rw [List.concat_eq_append, ← List.cons_append, ← List.append_assoc] at hts
      exact (follows_of_tokens htiles (List.append_inj' hts rfl).1).2.2

theorem scan_tiles_comment :
    scan "(#\n1)\\\n\n".toList = .ok [⟨.lparen, ⟨0, 1, 1, 1⟩⟩, ⟨.int 1, ⟨3, 4, 2, 1⟩⟩,
        ⟨.rparen, ⟨4, 5, 2, 2⟩⟩, ⟨.newline, ⟨7, 8, 3, 1⟩⟩, ⟨.eof, ⟨8, 8, 4, 1⟩⟩] ∧
      Skipped 1 "1)\\\n\n".toList "#\n".toList ∧ Skipped 0 "\n".toList "\\\n".toList := by
  have hscan : scan "(#\n1)\\\n\n".toList = .ok [⟨.lparen, ⟨0, 1, 1, 1⟩⟩,
      ⟨.int 1, ⟨3, 4, 2, 1⟩⟩, ⟨.rparen, ⟨4, 5, 2, 2⟩⟩, ⟨.newline, ⟨7, 8, 3, 1⟩⟩,
      ⟨.eof, ⟨8, 8, 4, 1⟩⟩] := by cbv
  have hfollows := (scan_tiles hscan).2
  exact ⟨hscan, (hfollows [_] _ _ rfl).skipped, (hfollows [_, _, _] _ _ rfl).skipped⟩

end Comprehend.Token
