import Comprehend.Proofs.Brackets
import Comprehend.Proofs.GrammarSound
import Comprehend.Proofs.Lexeme

/-! A scanned source as a sequence of pieces: words, line feeds that count, and the gaps between
them. A text can be scanned if and only if it can be laid out in pieces, and the tokens are those of
the pieces. A layout can be cut, joined, and moved to another place of another text. -/
namespace Comprehend

def Place.over (p : Place) (cs : List Char) : Place :=
  cs.foldl Place.next p

@[simp] theorem Place.over_nil (p : Place) : p.over [] = p := rfl

@[simp] theorem Place.over_cons (p : Place) (c : Char) (cs : List Char) :
    p.over (c :: cs) = (p.next c).over cs := rfl

@[simp] theorem Place.over_append (p : Place) (cs ds : List Char) :
    p.over (cs ++ ds) = (p.over cs).over ds := by
  simp [Place.over]

@[simp] theorem Place.offset_over (p : Place) (cs : List Char) :
    (p.over cs).offset = p.offset + cs.length := by
  induction cs generalizing p with
  | nil => rfl
  | cons c cs ih => simp only [over_cons, ih, offset_next, List.length_cons]; omega

/-- Characters that stand together in a source, with the kind of the token they make. A gap makes
none. -/
structure Piece where
  chars : List Char
  kind : Option TokenKind

namespace Piece

def depthAfter (depth : Nat) (q : Piece) : Nat :=
  match q.kind with
  | some k => k.depthAfter depth
  | none => depth

@[simp] theorem depthAfter_gap (depth : Nat) (cs : List Char) :
    depthAfter depth ⟨cs, none⟩ = depth := rfl

@[simp] theorem depthAfter_some (depth : Nat) (cs : List Char) (k : TokenKind) :
    depthAfter depth ⟨cs, some k⟩ = k.depthAfter depth := rfl

def depthOver (depth : Nat) (qs : List Piece) : Nat :=
  qs.foldl depthAfter depth

@[simp] theorem depthOver_nil (depth : Nat) : depthOver depth [] = depth := rfl

@[simp] theorem depthOver_cons (depth : Nat) (q : Piece) (qs : List Piece) :
    depthOver depth (q :: qs) = depthOver (q.depthAfter depth) qs := rfl

@[simp] theorem depthOver_append (depth : Nat) (qs rs : List Piece) :
    depthOver depth (qs ++ rs) = depthOver (depthOver depth qs) rs := by
  simp [depthOver]

def text (qs : List Piece) : List Char :=
  qs.flatMap (·.chars)

@[simp] theorem text_nil : text [] = [] := rfl

@[simp] theorem text_cons (q : Piece) (qs : List Piece) : text (q :: qs) = q.chars ++ text qs := rfl

@[simp] theorem text_append (qs rs : List Piece) : text (qs ++ rs) = text qs ++ text rs := by
  simp [text]

def tokens : Place → List Piece → List Token
  | _, [] => []
  | p, q :: qs =>
    match q.kind with
    | some k => ⟨k, p.span q.chars.length⟩ :: tokens (p.over q.chars) qs
    | none => tokens (p.over q.chars) qs

@[simp] theorem tokens_nil (p : Place) : tokens p [] = [] := rfl

@[simp] theorem tokens_gap (p : Place) (cs : List Char) (qs : List Piece) :
    tokens p (⟨cs, none⟩ :: qs) = tokens (p.over cs) qs := rfl

@[simp] theorem tokens_some (p : Place) (cs : List Char) (k : TokenKind) (qs : List Piece) :
    tokens p (⟨cs, some k⟩ :: qs) = ⟨k, p.span cs.length⟩ :: tokens (p.over cs) qs := rfl

@[simp] theorem tokens_append (p : Place) (qs rs : List Piece) :
    tokens p (qs ++ rs) = tokens p qs ++ tokens (p.over (text qs)) rs := by
  induction qs generalizing p with
  | nil => rfl
  | cons q qs ih =>
    obtain ⟨cs, _ | k⟩ := q <;> simp [ih]

def kinds (qs : List Piece) : List TokenKind :=
  qs.filterMap (·.kind)

@[simp] theorem kinds_nil : kinds [] = [] := rfl

@[simp] theorem kinds_gap (cs : List Char) (qs : List Piece) :
    kinds (⟨cs, none⟩ :: qs) = kinds qs := rfl

@[simp] theorem kinds_some (cs : List Char) (k : TokenKind) (qs : List Piece) :
    kinds (⟨cs, some k⟩ :: qs) = k :: kinds qs := rfl

@[simp] theorem kinds_append (qs rs : List Piece) : kinds (qs ++ rs) = kinds qs ++ kinds rs := by
  simp [kinds]

theorem kinds_tokens (p : Place) (qs : List Piece) : Parse.kinds (tokens p qs) = kinds qs := by
  induction qs generalizing p with
  | nil => rfl
  | cons q qs ih =>
    obtain ⟨cs, _ | k⟩ := q <;> simp [ih]

theorem length_tokens (p : Place) (qs : List Piece) : (tokens p qs).length = (kinds qs).length := by
  rw [← kinds_tokens p qs, Parse.kinds, List.length_map]

end Piece

namespace Token

open Piece Text

/-- The pieces are what the scanner makes of their characters, at the given bracket depth and with
`rest` behind them. -/
inductive Tiles (rest : List Char) : Nat → List Piece → Prop
  | done {depth} : Tiles rest depth []
  | gap {depth c cs qs} : gap depth c (cs ++ (text qs ++ rest)) = cs.length + 1 →
      Tiles rest depth qs → Tiles rest depth (⟨c :: cs, none⟩ :: qs)
  | line {qs} : Tiles rest 0 qs → Tiles rest 0 (⟨['\n'], some .newline⟩ :: qs)
  | word {depth c cs k qs} : lexeme c (cs ++ (text qs ++ rest)) = .ok (k, cs.length + 1) →
      Tiles rest (k.depthAfter depth) qs → Tiles rest depth (⟨c :: cs, some k⟩ :: qs)

theorem scanFrom_skip (depth n : Nat) (p : Place) (cs : List Char) :
    scanFrom depth n p cs = scanFrom depth 0 (p.over (cs.take n)) (cs.drop n) := by
  induction n generalizing p cs with
  | zero => simp
  | succ n ih =>
    cases cs with
    | nil => simp [scanFrom]
    | cons c cs => simp [scanFrom, ih (p.next c) cs]

/-- A gap is passed over as a whole. -/
theorem scanFrom_gap {depth : Nat} {c : Char} {cs rest : List Char}
    (h : gap depth c (cs ++ rest) = cs.length + 1) (p : Place) :
    scanFrom depth 0 p (c :: (cs ++ rest)) = scanFrom depth 0 (p.over (c :: cs)) rest := by
  rw [scanFrom, h]
  simp only
  rw [scanFrom_skip]
  simp

theorem scanFrom_line (p : Place) (rest : List Char) :
    scanFrom 0 0 p ('\n' :: rest) =
      (scanFrom 0 0 (p.next '\n') rest).map (⟨.newline, p.span 1⟩ :: ·) := by
  simp [scanFrom, gap]

theorem scanFrom_word {depth : Nat} {c : Char} {cs rest : List Char} {k : TokenKind}
    (h : lexeme c (cs ++ rest) = .ok (k, cs.length + 1)) (p : Place) :
    scanFrom depth 0 p (c :: (cs ++ rest)) =
      (scanFrom (k.depthAfter depth) 0 (p.over (c :: cs)) rest).map
        (⟨k, p.span (cs.length + 1)⟩ :: ·) := by
  obtain ⟨hne, hgap⟩ := gap_eq_zero (isGapStart_of_lexeme h).1 depth (cs ++ rest)
  rw [scanFrom, hgap]
  simp only [hne, ↓reduceIte, h, Nat.add_sub_cancel]
  rw [scanFrom_skip]
  simp

theorem map_map_ok {ε α β γ : Type} (f : α → β) (g : β → γ) (x : Except ε α) :
    (x.map f).map g = x.map (g ∘ f) := by
  cases x <;> rfl

/-- Pieces make their tokens, whatever the scanner makes of the rest. -/
theorem scanFrom_tiles {rest : List Char} {depth : Nat} {qs : List Piece} (h : Tiles rest depth qs)
    (p : Place) :
    scanFrom depth 0 p (text qs ++ rest) =
      (scanFrom (depthOver depth qs) 0 (p.over (text qs)) rest).map (tokens p qs ++ ·) := by
  induction h generalizing p with
  | @done depth =>
    simp only [text_nil, List.nil_append, depthOver_nil, Place.over_nil, tokens_nil]
    cases scanFrom depth 0 p rest <;> rfl
  | gap hgap _ ih =>
    simp only [text_cons, List.cons_append, List.append_assoc, scanFrom_gap hgap, ih]
    simp
  | line _ ih =>
    simp only [text_cons, List.cons_append, List.nil_append, scanFrom_line, ih, map_map_ok]
    rfl
  | word hword _ ih =>
    simp only [text_cons, List.cons_append, List.append_assoc, scanFrom_word hword, ih, map_map_ok]
    simp [Function.comp_def]

theorem gap_le (depth : Nat) (c : Char) (cs : List Char) : gap depth c cs ≤ cs.length + 1 := by
  have hrun := (List.takeWhile_prefix (· != '\n') (l := cs)).length_le
  unfold gap
  split
  · split <;> omega
  split
  · omega
  split
  next hline =>
    cases cs with
    | nil => simp at hline
    | cons d cs => simp
  split <;> omega

theorem map_eq_ok {ε α β : Type} {f : α → β} {x : Except ε α} {b : β} :
    x.map f = .ok b ↔ ∃ a, x = .ok a ∧ f a = b := by
  cases x <;> simp [Except.map]

/-- What can be scanned can be laid out in pieces. -/
theorem exists_tiles {depth : Nat} {p : Place} {cs : List Char} {ts : List Token}
    (h : scanFrom depth 0 p cs = .ok ts) :
    ∃ qs, text qs = cs ∧ Tiles [] depth qs ∧ ts = tokens p qs ++ [⟨.eof, (p.over cs).span 0⟩] := by
  induction hn : cs.length using Nat.strongRecOn generalizing depth p cs ts with
  | ind n ih =>
  subst hn
  cases cs with
  | nil => exact ⟨[], rfl, .done, by simpa [scanFrom, eq_comm] using h⟩
  | cons c cs =>
  -- the pieces behind the first `n` characters, by induction
  have hbehind {d : Nat} {q : Place} {us : List Token} (n : Nat)
      (hus : scanFrom d 0 q (cs.drop n) = .ok us) := ih _ (by grind) hus rfl
  cases hgap : gap depth c cs with
  | succ n =>
    have hle := gap_le depth c cs
    have hlength : (cs.take n).length = n := List.length_take_of_le (by omega)
    rw [← List.take_append_drop n cs] at h hgap
    rw [scanFrom_gap (by rw [hgap, hlength])] at h
    obtain ⟨qs, htext, htiles, rfl⟩ := hbehind n h
    refine ⟨⟨c :: cs.take n, none⟩ :: qs, by simp [htext], .gap ?_ htiles, ?_⟩
    · rw [htext, List.append_nil, hgap, hlength]
    · simp [← Place.over_append]
  | zero =>
    by_cases hline : c = '\n'
    · subst hline
      obtain rfl : depth = 0 := by
        simp only [gap, ↓reduceIte] at hgap
        split at hgap <;> omega
      rw [scanFrom_line, map_eq_ok] at h
      obtain ⟨us, hus, rfl⟩ := h
      obtain ⟨qs, htext, htiles, rfl⟩ := hbehind 0 hus
      exact ⟨⟨['\n'], some .newline⟩ :: qs, by simp [htext], .line htiles, by simp⟩
    · rw [scanFrom, hgap] at h
      simp only [hline, ↓reduceIte] at h
      split at h
      · simp at h
      next k w hword =>
        obtain ⟨hpos, hle⟩ := lexeme_width hword
        obtain ⟨n, rfl⟩ : ∃ n, w = n + 1 := ⟨w - 1, by omega⟩
        have hlength : (cs.take n).length = n := List.length_take_of_le (by omega)
        rw [Nat.add_sub_cancel, scanFrom_skip, map_eq_ok] at h
        obtain ⟨us, hus, rfl⟩ := h
        obtain ⟨qs, htext, htiles, rfl⟩ := hbehind n hus
        refine ⟨⟨c :: cs.take n, some k⟩ :: qs, by simp [htext], .word ?_ htiles, ?_⟩
        · rw [htext, List.append_nil, List.take_append_drop, hword, hlength]
        · simp [← Place.over_append, hlength]

/-! Cutting and joining -/

theorem tiles_append {rest : List Char} {depth : Nat} {qs rs : List Piece} :
    Tiles rest depth (qs ++ rs) ↔
      Tiles (text rs ++ rest) depth qs ∧ Tiles rest (depthOver depth qs) rs := by
  constructor
  · intro h
    induction qs generalizing depth with
    | nil => exact ⟨.done, h⟩
    | cons q qs ih =>
      cases h with
      | gap hgap h =>
        obtain ⟨hqs, hrs⟩ := ih h
        exact ⟨.gap (by simpa using hgap) hqs, hrs⟩
      | line h =>
        obtain ⟨hqs, hrs⟩ := ih h
        exact ⟨.line hqs, hrs⟩
      | word hword h =>
        obtain ⟨hqs, hrs⟩ := ih h
        exact ⟨.word (by simpa using hword) hqs, hrs⟩
  · rintro ⟨hqs, hrs⟩
    induction hqs with
    | done => exact hrs
    | gap hgap _ ih => exact .gap (by simpa using hgap) (ih hrs)
    | line _ ih => exact .line (ih hrs)
    | word hword _ ih => exact .word (by simpa using hword) (ih hrs)

/-! Moving -/

/-- The pieces as they are inside brackets, where a line feed does not count. -/
def sunk (qs : List Piece) : List Piece :=
  qs.map fun q => if q.kind = some .newline then ⟨q.chars, none⟩ else q

@[simp] theorem sunk_gap (cs : List Char) (qs : List Piece) :
    sunk (⟨cs, none⟩ :: qs) = ⟨cs, none⟩ :: sunk qs := rfl

@[simp] theorem sunk_line (cs : List Char) (qs : List Piece) :
    sunk (⟨cs, some .newline⟩ :: qs) = ⟨cs, none⟩ :: sunk qs := rfl

theorem sunk_word {k : TokenKind} (hk : k ≠ .newline) (cs : List Char) (qs : List Piece) :
    sunk (⟨cs, some k⟩ :: qs) = ⟨cs, some k⟩ :: sunk qs := by
  simp [sunk, hk]

@[simp] theorem text_sunk (qs : List Piece) : text (sunk qs) = text qs := by
  induction qs with
  | nil => rfl
  | cons q qs ih =>
    simp only [sunk, List.map_cons, text_cons] at ih ⊢
    rw [ih]
    split <;> rfl

theorem kinds_sunk (qs : List Piece) :
    Piece.kinds (sunk qs) = (Piece.kinds qs).filter (· != .newline) := by
  induction qs with
  | nil => rfl
  | cons q qs ih =>
    obtain ⟨cs, _ | k⟩ := q
    · simpa using ih
    · by_cases hk : k = .newline
      · subst hk
        simpa using ih
      · simpa [sunk_word hk, hk] using ih

def EndsInWord (qs : List Piece) : Prop :=
  ∀ q ∈ qs.getLast?, ∃ k, q.kind = some k ∧ isWordKind k = true

theorem EndsInWord.exists_last {qs : List Piece} (h : EndsInWord qs) (hne : qs ≠ []) :
    ∃ rs cs k, qs = rs ++ [⟨cs, some k⟩] ∧ isWordKind k = true := by
  rcases List.eq_nil_or_concat qs with rfl | ⟨rs, ⟨cs, kind⟩, rfl⟩
  · exact absurd rfl hne
  · obtain ⟨k, hk, hword⟩ := h ⟨cs, kind⟩ (by simp)
    exact ⟨rs, cs, k, by simpa using hk, hword⟩

theorem EndsInWord.append {rs : List Piece} (h : EndsInWord rs) (hne : rs ≠ []) (qs : List Piece) :
    EndsInWord (qs ++ rs) := by
  intro q hq
  obtain ⟨r, hr⟩ := Option.ne_none_iff_exists'.mp (mt List.getLast?_eq_none_iff.mp hne)
  exact h q (by simpa [List.getLast?_append, hr] using hq)

def StartsInWord (qs : List Piece) : Prop :=
  ∃ cs k rs, qs = ⟨cs, some k⟩ :: rs ∧ isWordKind k = true

theorem StartsInWord.ne_nil {qs : List Piece} (h : StartsInWord qs) : qs ≠ [] := by
  obtain ⟨cs, k, rs, rfl, -⟩ := h
  simp

theorem StartsInWord.append {qs : List Piece} (h : StartsInWord qs) (rs : List Piece) :
    StartsInWord (qs ++ rs) := by
  obtain ⟨cs, k, vs, rfl, hk⟩ := h
  exact ⟨cs, k, vs ++ rs, rfl, hk⟩

theorem EndsInWord.tail {q : Piece} {qs : List Piece} (h : EndsInWord (q :: qs)) :
    EndsInWord qs := by
  intro r hr
  refine h r ?_
  cases qs with
  | nil => simp at hr
  | cons => simpa [List.getLast?_cons_cons] using hr

theorem StartsInWord.sunk {qs : List Piece} (h : StartsInWord qs) : StartsInWord (sunk qs) := by
  obtain ⟨cs, k, rs, rfl, hk⟩ := h
  have hline : k ≠ .newline := by
    rintro rfl
    simp [isWordKind] at hk
  exact ⟨cs, k, _, sunk_word hline cs rs, hk⟩

theorem EndsInWord.sunk {qs : List Piece} (h : EndsInWord qs) : EndsInWord (sunk qs) := by
  intro q hq
  rw [Token.sunk, List.getLast?_map] at hq
  obtain ⟨r, hr, rfl⟩ := Option.map_eq_some_iff.mp hq
  obtain ⟨k, hk, hword⟩ := h r hr
  have hline : k ≠ .newline := by
    rintro rfl
    simp [isWordKind] at hword
  exact ⟨k, by simp [hk, hline], hword⟩

theorem depthAfter_add {k : TokenKind} {x : Nat} (h : k.isClosing = true → 0 < x) (a : Nat) :
    k.depthAfter (a + x) = a + k.depthAfter x := by
  unfold TokenKind.depthAfter
  split
  · omega
  split
  next hclose =>
    have := h hclose
    omega
  next => rfl

theorem takeWhile_stops {p : Char → Bool} {cs us us' : List Char}
    (h : ((cs ++ us).takeWhile p).length = cs.length) (hhead : us'.head? = us.head?) :
    ((cs ++ us').takeWhile p).length = cs.length := by
  induction cs with
  | nil =>
    cases us' with
    | nil => rfl
    | cons c us' =>
      cases us with
      | nil => simp at hhead
      | cons d us => simp_all [List.takeWhile_cons]
  | cons c cs ih =>
    simp only [List.cons_append, List.takeWhile_cons] at h ⊢
    split at h <;> simp_all

/-- A gap stays one at another depth, a line feed only inside brackets, when what follows it changes
behind its first character. -/
theorem gap_moved {a b : Nat} {c : Char} {cs us us' : List Char}
    (h : gap a c (cs ++ us) = cs.length + 1) (hb : c = '\n' → 0 < b)
    (hhead : us'.head? = us.head?) : gap b c (cs ++ us') = cs.length + 1 := by
  by_cases hline : c = '\n'
  · simp only [gap, hline, hb hline, ↓reduceIte] at h ⊢
    split at h <;> omega
  by_cases hblank : isBlank c = true
  · simpa only [gap, hline, hblank, ↓reduceIte] using h
  by_cases hback : c = '\\'
  · subst hback
    cases cs with
    | nil => simp [gap, isBlank] at h; split at h <;> omega
    | cons d cs => simpa [gap, hblank] using h
  by_cases hhash : c = '#'
  · subst hhash
    have hcomment (d : Nat) (vs : List Char) :
        gap d '#' vs = 1 + (vs.takeWhile (· != '\n')).length := by
      simp [gap, isBlank]
    rw [hcomment] at h ⊢
    rw [takeWhile_stops (Nat.add_left_cancel (h.trans (Nat.add_comm _ _))) hhead, Nat.add_comm]
  · simp [gap, hline, hblank, hback, hhash] at h

theorem depthAfter_sealed {stop : TokenKind → Bool} {k : TokenKind} {x : Nat} {ks : List TokenKind}
    (h : Comprehension.Sealed stop x (k :: ks)) (a : Nat) :
    k.depthAfter (a + x) = a + k.depthAfter x := by
  refine depthAfter_add (fun hclose => Nat.pos_of_ne_zero fun hzero => ?_) a
  have := h.2.1 hzero
  simp [Comprehension.endsRun, hclose] at this

theorem gap_line {b : Nat} (hb : 0 < b) (us : List Char) : gap b '\n' us = 1 := by
  simp [gap, hb]

theorem Tiles.text_ne_nil {rest : List Char} {depth : Nat} {qs : List Piece}
    (h : Tiles rest depth qs) (hne : qs ≠ []) : text qs ≠ [] := by
  cases h <;> simp_all

/-- Pieces that end in a word, and whose brackets are closed, may stand in any brackets before any
break. -/
theorem Tiles.sink {rest rest' : List Char} {a₀ b₀ : Nat} {stop : TokenKind → Bool}
    (hrest : Breaks rest') (hb : 0 < b₀) {a x : Nat} {qs : List Piece} (h : Tiles rest a qs)
    (ha : a = a₀ + x) (hlast : EndsInWord qs)
    (hsealed : Comprehension.Sealed stop x (Piece.kinds (sunk qs))) :
    Tiles rest' (b₀ + x) (sunk qs) := by
  induction h generalizing x with
  | done => exact .done
  | @gap depth c cs qs hgap htiles ih =>
    rw [sunk_gap] at hsealed ⊢
    refine .gap (gap_moved hgap (fun _ => by omega) ?_) (ih ha hlast.tail hsealed)
    have hne : qs ≠ [] := by
      rintro rfl
      simp [EndsInWord] at hlast
    obtain ⟨d, ds, hd⟩ := List.exists_cons_of_ne_nil (htiles.text_ne_nil hne)
    simp [hd]
  | @line qs htiles ih =>
    rw [sunk_line] at hsealed ⊢
    exact .gap (gap_line (by omega) _) (ih ha hlast.tail hsealed)
  | @word depth c cs k qs hword htiles ih =>
    have hk : k ≠ .newline := by
      have := isWordKind_of_lexeme hword
      simp_all [isWordKind]
    rw [sunk_word hk] at hsealed ⊢
    have hstays := depthAfter_sealed hsealed
    refine .word ?_ ?_
    · rw [text_sunk, ← List.append_assoc]
      rw [← List.append_assoc] at hword
      exact lexeme_local hword (by simp) hrest
    · rw [hstays]
      exact ih (by rw [ha, hstays]) hlast.tail hsealed.2.2

/-- Pieces inside brackets that close all of their own are what they were when they stand outside:
only line feeds count there. -/
theorem Tiles.rise {rest : List Char} {a₀ : Nat} {stop : TokenKind → Bool} (hpos : 0 < a₀)
    {a x : Nat} {qs : List Piece} (h : Tiles rest a qs) (ha : a = a₀ + x)
    (hsealed : Comprehension.Sealed stop x (Piece.kinds qs)) :
    ∃ rs, sunk rs = qs ∧ Tiles rest x rs := by
  induction h generalizing x with
  | done => exact ⟨[], rfl, .done⟩
  | @gap depth c cs qs hgap htiles ih =>
    obtain ⟨rs, rfl, hrs⟩ := ih ha hsealed
    rw [text_sunk] at hgap
    by_cases hline : c = '\n' ∧ x = 0
    · obtain ⟨rfl, rfl⟩ := hline
      have hcs : cs.length + 1 = 1 := hgap.symm.trans (gap_line (by omega) _)
      obtain rfl : cs = [] := List.length_eq_zero_iff.mp (by omega)
      exact ⟨⟨['\n'], some .newline⟩ :: rs, rfl, .line hrs⟩
    · refine ⟨⟨c :: cs, none⟩ :: rs, rfl, .gap (gap_moved hgap (fun hc => ?_) rfl) hrs⟩
      exact Nat.pos_of_ne_zero fun hx => hline ⟨hc, hx⟩
  | line _ _ => omega
  | @word depth c cs k qs hword htiles ih =>
    have hk : k ≠ .newline := by
      have := isWordKind_of_lexeme hword
      simp_all [isWordKind]
    obtain ⟨rs, rfl, hrs⟩ := ih (by rw [ha, depthAfter_sealed hsealed]) hsealed.2.2
    rw [text_sunk] at hword
    exact ⟨⟨c :: cs, some k⟩ :: rs, sunk_word hk _ _, .word hword hrs⟩

end Token

end Comprehend
