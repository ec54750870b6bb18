import Comprehend.Proofs.Loops

/-! Comprehensions in writing. A statement is a text in pieces together with the comprehension that
is read from it, in whatever source it stands: a comprehension of each shape, and a reducer applied
to one. -/
namespace Comprehend

namespace Comprehension

open Token Parse Text

variable {stop : TokenKind → Bool} {source : List Char} {p : Place} {us rest : List Token}
  {shape : Shape}

/-! Loops of a comprehension -/

structure Loops where
  list : List Loop
  ne_nil : list ≠ []
  nodup : (list.map Loop.var).Nodup

namespace Loops

variable (L : Loops)

def pieces : List Piece :=
  loopPieces L.list

def generators : List Generator :=
  L.list.map Loop.generator

theorem text_pieces :
    Piece.text L.pieces = (String.join (L.generators.map Generator.written)).toList :=
  text_loops L.list

theorem tokens_pieces (p : Place) :
    ∃ span us, Piece.tokens p L.pieces = ⟨.kwFor, span⟩ :: us := by
  obtain ⟨l, loops, hlist⟩ := List.exists_cons_of_ne_nil L.ne_nil
  exact ⟨_, _, by rw [pieces, hlist, loopPieces_cons, Piece.tokens_gap, Piece.tokens_some]⟩

theorem peek_tokens (p : Place) (rest : List Token) :
    peek (Piece.tokens p L.pieces ++ rest) = .kwFor := by
  obtain ⟨span, us, hus⟩ := L.tokens_pieces p
  rw [hus]
  rfl

theorem endsAt_tokens (hstop : stop .kwFor = true) (p : Place) (rest : List Token) :
    EndsAt stop (Piece.tokens p L.pieces ++ rest) := by
  obtain ⟨span, us, hus⟩ := L.tokens_pieces p
  rw [hus]
  exact ⟨_, _, rfl, .inr (by simp [endsRun, hstop])⟩

theorem nested_behind {qs : List Piece} (h : Nested qs) : Nested (qs ++ L.pieces) :=
  h.append (nested_loops L.list) fun _ hcs => breaks_spread _ hcs

variable {L}

theorem loopsFrom (hsource : Located source p (Piece.text L.pieces)) (hrest : ClosesAt rest) :
    loopsFrom source (Piece.tokens p L.pieces ++ rest) = .ok (L.generators, rest) :=
  loopsFrom_written hsource hrest L.nodup

end Loops

theorem exists_map_eq {α β : Type} {f : α → β} {bs : List β} (h : ∀ b ∈ bs, ∃ a, f a = b) :
    ∃ as : List α, as.map f = bs := by
  induction bs with
  | nil => exact ⟨[], rfl⟩
  | cons b bs ih =>
    obtain ⟨a, rfl⟩ := h b (by simp)
    obtain ⟨as, rfl⟩ := ih fun c hc => h c (by simp [hc])
    exact ⟨a :: as, rfl⟩

theorem exists_loops {gs : List Generator} (h : ∀ g ∈ gs, ∃ l : Loop, l.generator = g)
    (hne : gs ≠ []) (hnodup : (gs.map (·.var)).Nodup) : ∃ L : Loops, L.generators = gs := by
  obtain ⟨loops, rfl⟩ := exists_map_eq h
  refine ⟨⟨loops, by simpa using hne, ?_⟩, rfl⟩
  rwa [List.map_map] at hnodup

/-! Comprehensions in brackets -/

def opener : Shape → Char × TokenKind
  | .list => ('[', .lbracket)
  | .generator => ('(', .lparen)
  | .set | .dict => ('\x7b', .lbrace)

def closer : Shape → Char × TokenKind
  | .list => (']', .rbracket)
  | .generator => (')', .rparen)
  | .set | .dict => ('\x7d', .rbrace)

theorem closer_facts (shape : Shape) :
    isBreak (closer shape).1 = true ∧ (closer shape).2.isClosing = true := by
  cases shape <;> decide

theorem opener_facts (shape : Shape) : (opener shape).2.isOpening = true := by
  cases shape <;> rfl

theorem lexeme_opener (shape : Shape) (us : List Char) :
    lexeme (opener shape).1 us = .ok ((opener shape).2, 1) := by
  cases shape <;> exact lexeme_solo rfl (by decide) rfl us

theorem lexeme_closer (shape : Shape) (us : List Char) :
    lexeme (closer shape).1 us = .ok ((closer shape).2, 1) := by
  cases shape <;> exact lexeme_solo rfl (by decide) rfl us

def enclosed (shape : Shape) (qs : List Piece) : List Piece :=
  ⟨[(opener shape).1], some (opener shape).2⟩ ::
    (qs ++ [⟨[(closer shape).1], some (closer shape).2⟩])

theorem tiles_enclosed {qs : List Piece} (h : Nested qs) (shape : Shape) (depth : Nat)
    (rest : List Char) : Tiles rest depth (enclosed shape qs) := by
  have hopen : (opener shape).2.depthAfter depth = depth + 1 := by cases shape <;> rfl
  refine .word (lexeme_opener shape _) (tiles_append.mpr ⟨?_, .word (lexeme_closer shape _) .done⟩)
  rw [hopen]
  exact h.tiles (depth + 1) _ (by omega) (by simpa using (closer_facts shape).1)

/-- The name that stands as the origin of a comprehension in the brackets of a shape. -/
def originName : Shape → String
  | .list => "list_comp"
  | .generator => "genexp"
  | .set => "set_comp"
  | .dict => "dict_comp"

theorem bracketed_written {f : Fragment isFor} {L : Loops}
    (hshape : shape = .list ∨ shape = .generator)
    (hsource : Located source p (Piece.text (enclosed shape (f.pieces ++ L.pieces)))) :
    bracketed source shape (Piece.tokens p (enclosed shape (f.pieces ++ L.pieces)) ++ rest) =
      .ok ({ ofElement shape f.text L.generators with
        provenance := origin (originName shape) }, rest) := by
  simp only [enclosed, Piece.text_cons, Piece.text_append, located_append] at hsource
  obtain ⟨-, ⟨hf, hL⟩, -⟩ := hsource
  simp only [enclosed, Piece.tokens_some, Piece.tokens_append, Piece.tokens_nil, List.cons_append,
    List.append_assoc, List.nil_append, bracketed, List.drop_succ_cons, List.drop_zero]
  rw [Fragment.capture hf (L.endsAt_tokens rfl _ _), ok_bind]
  simp only [L.peek_tokens, ↓reduceIte]
  rw [Loops.loopsFrom hL ⟨_, _, rfl, (closer_facts shape).2⟩, ok_bind]
  rcases hshape with rfl | rfl <;> rfl

theorem braced_set {f : Fragment endsKey} {L : Loops}
    (hsource : Located source p (Piece.text (enclosed .set (f.pieces ++ L.pieces)))) :
    braced source (Piece.tokens p (enclosed .set (f.pieces ++ L.pieces)) ++ rest) =
      .ok ({ ofElement .set f.text L.generators with
        provenance := origin (originName .set) }, rest) := by
  simp only [enclosed, Piece.text_cons, Piece.text_append, located_append] at hsource
  obtain ⟨-, ⟨hf, hL⟩, -⟩ := hsource
  simp only [enclosed, Piece.tokens_some, Piece.tokens_append, Piece.tokens_nil, List.cons_append,
    List.append_assoc, List.nil_append, braced, List.drop_succ_cons, List.drop_zero]
  rw [Fragment.capture hf (L.endsAt_tokens rfl _ _), ok_bind]
  simp only [L.peek_tokens, reduceCtorEq, ↓reduceIte]
  rw [Loops.loopsFrom hL ⟨_, _, rfl, (closer_facts .set).2⟩, ok_bind]
  rfl

def pairPieces (key : Fragment endsKey) (value : Fragment isFor) : List Piece :=
  key.pieces ++ ⟨[':'], some .colon⟩ :: space :: value.pieces

theorem nested_pair (key : Fragment endsKey) (value : Fragment isFor) :
    Nested (pairPieces key value) := by
  have hcolon : Nested [⟨[':'], some .colon⟩] := nested_word (word_operator rfl (by decide)) rfl
  have hvalue := hcolon.append value.nested.spaced fun _ _ => by simp [isBreak]
  exact key.nested.append hvalue fun _ _ => by simp [isBreak]

theorem braced_dict {key : Fragment endsKey} {value : Fragment isFor} {L : Loops}
    (hsource : Located source p (Piece.text (enclosed .dict (pairPieces key value ++ L.pieces)))) :
    braced source (Piece.tokens p (enclosed .dict (pairPieces key value ++ L.pieces)) ++ rest) =
      .ok ({ ofPair key.text value.text L.generators with
        provenance := origin (originName .dict) }, rest) := by
  simp only [enclosed, pairPieces, Piece.text_cons, Piece.text_append, located_append,
    Place.over_append] at hsource
  obtain ⟨-, ⟨⟨hkey, -, -, hvalue⟩, hL⟩, -⟩ := hsource
  simp only [enclosed, pairPieces, Piece.tokens_some, Piece.tokens_gap, Piece.tokens_append,
    Piece.tokens_nil, List.cons_append, List.append_assoc, List.nil_append, braced,
    List.drop_succ_cons, List.drop_zero]
  rw [Fragment.capture hkey ⟨_, _, rfl, .inr rfl⟩, ok_bind]
  simp only [peek_cons, ↓reduceIte, List.drop_succ_cons, List.drop_zero]
  rw [Fragment.capture hvalue (L.endsAt_tokens rfl _ _), ok_bind]
  simp only [L.peek_tokens, ↓reduceIte]
  rw [Loops.loopsFrom hL ⟨_, _, rfl, (closer_facts .dict).2⟩, ok_bind]
  rfl

/-! Arguments of reducers -/

theorem nested_enclosed {qs : List Piece} (h : Nested qs) (shape : Shape) :
    Nested (enclosed shape qs) := by
  refine ⟨fun depth rest _ _ => tiles_enclosed h shape depth rest, ?_⟩
  simp only [enclosed, Piece.kinds_some, Piece.kinds_append, Piece.kinds_nil]
  exact closed_brackets (opener_facts shape) (closer_facts shape).2 h.closed

theorem isWholeArgument_enclosed {f : Fragment isFor} {L : Loops} {t : Token}
    (ht : t.kind = .rparen) :
    isWholeArgument (Piece.tokens p (enclosed shape (f.pieces ++ L.pieces)) ++ t :: rest) =
      true := by
  have hopen := opener_facts shape
  have hclosed := (L.nested_behind f.nested).closed
  have hsealed := f.sealed
  rw [← Piece.kinds_tokens (p.over [(opener shape).1])] at hclosed hsealed
  obtain ⟨span, us, hus⟩ :=
    L.tokens_pieces ((p.over [(opener shape).1]).over (Piece.text f.pieces))
  simp only [enclosed, Piece.tokens_some, Piece.tokens_append, Piece.tokens_nil, List.cons_append,
    List.append_assoc, List.nil_append, isWholeArgument, hopen] at hclosed ⊢
  rw [← List.append_assoc, splitAtClose_of_closed hclosed (closer_facts shape).2, hus]
  simp only [peek_cons, ht, hasLoop_of_sealed hsealed]
  rfl

theorem hasLoop_native {depth : Nat} (h : Grammar.Native (kinds us)) :
    hasLoop depth us = false := by
  induction us generalizing depth with
  | nil => rfl
  | cons u us ih =>
    obtain ⟨hu, hus⟩ := Grammar.native_cons.mp h
    have hfor : isFor u.kind = false := by
      refine Bool.not_eq_true _ ▸ fun hfor => ?_
      simp only [isFor, decide_eq_true_eq] at hfor
      simp [hfor, Grammar.isForeign] at hu
    simp [hasLoop, hfor, ih hus]

/-- A bracket that is closed later among the tokens is closed there. -/
theorem splitAtClose_within {depth : Nat} (h : Closed (depth + 1) (kinds us)) :
    ∃ inside after, splitAtClose depth (us ++ rest) = some (inside, after) ∧
      ∀ t ∈ inside, t ∈ us := by
  induction us generalizing depth with
  | nil => simp [Closed] at h
  | cons u us ih =>
    rw [List.cons_append, splitAtClose]
    split
    next => exact ⟨[], us ++ rest, rfl, by simp⟩
    next hgoes =>
      have hdepth : u.kind.depthAfter (depth + 1) = u.kind.depthAfter depth + 1 := by
        have hpos : u.kind.isClosing = true → 0 < depth := by
          intro hclose
          simp [hclose] at hgoes
          omega
        rw [Nat.add_comm, depthAfter_add hpos, Nat.add_comm]
      have hclosed := h.2
      rw [hdepth] at hclosed
      obtain ⟨inside, after, hsplit, hmem⟩ := ih hclosed
      refine ⟨u :: inside, after, by rw [hsplit]; rfl, fun t ht => ?_⟩
      rcases List.mem_cons.mp ht with rfl | ht
      · simp
      · simp [hmem t ht]

theorem isWholeArgument_native (hus : Sealed stop 0 (kinds us)) (h : Grammar.Native (kinds us))
    (hne : us ≠ []) : isWholeArgument (us ++ rest) = false := by
  obtain ⟨u, us, rfl⟩ := List.exists_cons_of_ne_nil hne
  rw [List.cons_append, isWholeArgument]
  cases hopen : u.kind.isOpening with
  | false => rfl
  | true =>
    have hclosed : Closed (u.kind.depthAfter 0) (kinds us) := hus.closed.2
    simp only [TokenKind.depthAfter, hopen, ↓reduceIte] at hclosed
    obtain ⟨inside, after, hsplit, hmem⟩ := splitAtClose_within hclosed
    have hnative : Grammar.Native (kinds inside) := by
      intro k hk
      obtain ⟨t, ht, rfl⟩ := List.mem_map.mp hk
      exact h _ (List.mem_map_of_mem (by simp [hmem t ht]))
    rw [hsplit]
    simp [hasLoop_native hnative]

theorem reducerArgument_bracketed {f : Fragment isFor} {L : Loops}
    (hshape : shape = .list ∨ shape = .generator)
    (hsource : Located source p (Piece.text (enclosed shape (f.pieces ++ L.pieces))))
    (span : Span) (name : String) :
    reducerArgument source name
        (Piece.tokens p (enclosed shape (f.pieces ++ L.pieces)) ++ ⟨.rparen, span⟩ :: rest) =
      .ok ({ ofElement shape f.text L.generators with
        provenance := origin (originName shape) }, ⟨.rparen, span⟩ :: rest) := by
  have hwhole : isWholeArgument
      (Piece.tokens p (enclosed shape (f.pieces ++ L.pieces)) ++ ⟨.rparen, span⟩ :: rest) = true :=
    isWholeArgument_enclosed rfl
  have hpeek : peek (Piece.tokens p (enclosed shape (f.pieces ++ L.pieces)) ++
      ⟨.rparen, span⟩ :: rest) = (opener shape).2 := rfl
  rw [← bracketed_written hshape hsource, reducerArgument, hwhole, hpeek]
  rcases hshape with rfl | rfl <;> rfl

theorem reducerArgument_bare {f : Fragment endsElement} {L : Loops}
    (h : Grammar.Native (Piece.kinds f.pieces))
    (hsource : Located source p (Piece.text (f.pieces ++ L.pieces)))
    (span : Span) (name : String) :
    reducerArgument source name (Piece.tokens p (f.pieces ++ L.pieces) ++ ⟨.rparen, span⟩ :: rest) =
      .ok (ofElement .generator f.text L.generators, ⟨.rparen, span⟩ :: rest) := by
  obtain ⟨cs, k, qs, hpieces, -⟩ := f.starts
  have hsealed := f.sealed
  rw [Piece.text_append, located_append] at hsource
  rw [← Piece.kinds_tokens p] at h hsealed
  rw [Piece.tokens_append, List.append_assoc]
  have hwhole : isWholeArgument (Piece.tokens p f.pieces ++
      (Piece.tokens (p.over (Piece.text f.pieces)) L.pieces ++ ⟨.rparen, span⟩ :: rest)) = false :=
    isWholeArgument_native hsealed h (by rw [hpieces]; simp)
  have hbrace : peek (Piece.tokens p f.pieces ++ (Piece.tokens (p.over (Piece.text f.pieces))
      L.pieces ++ ⟨.rparen, span⟩ :: rest)) ≠ .lbrace := by
    rw [hpieces] at h ⊢
    simp only [Piece.tokens_some, kinds_cons, Grammar.native_cons] at h
    rintro hk
    obtain rfl : k = .lbrace := hk
    simp [Grammar.isForeign] at h
  rw [reducerArgument, hwhole]
  simp only [Bool.and_false, Bool.false_eq_true, ↓reduceIte, hbrace]
  rw [Fragment.capture hsource.1 (L.endsAt_tokens rfl _ _), ok_bind]
  simp only [L.peek_tokens, ↓reduceIte]
  rw [Loops.loopsFrom hsource.2 ⟨_, _, rfl, rfl⟩, ok_bind]
  rfl

theorem starts_bare {f : Fragment endsElement} {L : Loops}
    (h : Grammar.Native (Piece.kinds f.pieces)) :
    peek (Piece.tokens p (f.pieces ++ L.pieces) ++ rest) ≠ .rparen ∧
      startsKeyword (Piece.tokens p (f.pieces ++ L.pieces) ++ rest) = false := by
  obtain ⟨cs, k, qs, hpieces, -⟩ := f.starts
  rw [Piece.tokens_append, List.append_assoc]
  constructor
  · have hsealed := f.sealed
    rw [hpieces] at hsealed ⊢
    intro hk
    obtain rfl : k = .rparen := hk
    simpa [endsRun, TokenKind.isClosing] using hsealed.2.1 rfl
  · rw [← Piece.kinds_tokens p] at h
    exact Expr.startsKeyword_append h (by rw [hpieces]; simp) (by simp [L.peek_tokens])

/-- An argument of a reducer in writing, and what is read from it. -/
structure Argument where
  pieces : List Piece
  comprehension : Comprehension
  nested : Nested pieces
  starts : ∀ p rest, peek (Piece.tokens p pieces ++ rest) ≠ .rparen ∧
    startsKeyword (Piece.tokens p pieces ++ rest) = false
  reads : ∀ {source p} span rest name, Located source p (Piece.text pieces) →
    reducerArgument source name (Piece.tokens p pieces ++ ⟨.rparen, span⟩ :: rest) =
      .ok (comprehension, ⟨.rparen, span⟩ :: rest)

namespace Argument

def bracketed (shape : Shape) (hshape : shape = .list ∨ shape = .generator) (f : Fragment isFor)
    (L : Loops) : Argument where
  pieces := enclosed shape (f.pieces ++ L.pieces)
  comprehension :=
    { ofElement shape f.text L.generators with provenance := origin (originName shape) }
  nested := nested_enclosed (L.nested_behind f.nested) shape
  starts := fun _ _ => by
    rcases hshape with rfl | rfl <;> exact ⟨by simp [enclosed, opener, peek], rfl⟩
  reads := fun span _ name hsource => reducerArgument_bracketed hshape hsource span name

/-- A generator without brackets of its own. -/
def bare (f : Fragment endsElement) (h : Grammar.Native (Piece.kinds f.pieces)) (L : Loops) :
    Argument where
  pieces := f.pieces ++ L.pieces
  comprehension := ofElement .generator f.text L.generators
  nested := L.nested_behind f.nested
  starts := fun _ _ => starts_bare h
  reads := fun span _ name hsource => reducerArgument_bare h hsource span name

end Argument

/-! Calls of reducers -/

inductive Callee : Reducer → Type
  | plain (r : Reducer) : Callee r
  | math : Callee .prod

namespace Callee

variable {r : Reducer}

def pieces : Callee r → List Piece
  | plain r => [⟨r.name.toList, some (.ident r.name)⟩]
  | math => [⟨"math".toList, some (.ident "math")⟩, ⟨['.'], some .dot⟩,
      ⟨"prod".toList, some (.ident "prod")⟩]

def written : Callee r → String
  | plain r => r.name
  | math => "math.prod"

theorem text_pieces (c : Callee r) : Piece.text c.pieces = c.written.toList := by
  cases c <;> simp [pieces, written]

theorem isName_name (r : Reducer) : isName r.name = true := by
  cases r <;> decide

/-- No break stands behind the name of the module, but a point ends it as well. -/
theorem lexeme_math (us : List Char) :
    lexeme 'm' ("ath.".toList ++ us) = .ok (.ident "math", 4) :=
  lexeme_iff.mpr (.word (by decide) rfl (by decide))

theorem lexeme_point (us : List Char) : lexeme '.' ('p' :: us) = .ok (.dot, 1) :=
  lexeme_iff.mpr (.operator (by decide) rfl (by decide) rfl)

theorem tiles (c : Callee r) {rest : List Char} (hrest : Breaks rest) (depth : Nat) :
    Tiles rest depth c.pieces := by
  cases c with
  | plain r => exact (word_name (isName_name r)).tiles (by simpa using hrest) .done
  | math =>
    have hprod : Tiles rest depth [⟨"prod".toList, some (.ident "prod")⟩] :=
      (word_name (by decide)).tiles (by simpa using hrest) .done
    exact .word (lexeme_math _) (.word (lexeme_point _) hprod)

theorem reducerName (c : Callee r) (span : Span) :
    reducerName (Piece.tokens p c.pieces ++ ⟨.lparen, span⟩ :: rest) =
      .ok ((r, r.name), ⟨.lparen, span⟩ :: rest) := by
  cases c with
  | plain r => cases r <;> rfl
  | math => rfl

end Callee

theorem reducerCall_written {r : Reducer} {c : Callee r} {arg : Argument}
    (hsource : Located source p (Piece.text (c.pieces ++ enclosed .generator arg.pieces))) :
    reducerCall source (Piece.tokens p (c.pieces ++ enclosed .generator arg.pieces) ++ rest) =
      .ok ({ arg.comprehension with
        reduction := some { reducer := r }
        provenance := origin ("call_" ++ r.name) }, rest) := by
  simp only [enclosed, Piece.text_append, Piece.text_cons, located_append] at hsource
  obtain ⟨-, -, harg, -⟩ := hsource
  simp only [enclosed, opener, closer, Piece.tokens_append, Piece.tokens_some, Piece.tokens_nil,
    List.append_assoc, List.cons_append, List.nil_append] at harg ⊢
  rw [reducerCall, c.reducerName, ok_bind]
  simp only [peek_cons, ne_eq, not_true_eq_false, ↓reduceIte, List.drop_succ_cons, List.drop_zero,
    arg.starts, Bool.false_eq_true]
  rw [arg.reads _ _ _ harg, ok_bind]
  rfl

/-! Statements -/

/-- A comprehension comes next, with no import and no assignment before it. -/
structure Begins (ts : List Token) : Prop where
  separator : isSeparator (peek ts) = false
  notImport : isImport (peek ts) = false
  notEnd : peek ts ≠ .eof
  unassigned : assignment ts = (none, ts)

/-- A comprehension in writing, and what is read from it. -/
structure Statement where
  pieces : List Piece
  comprehension : Comprehension
  tiles : Tiles [] 0 pieces
  begins : ∀ p rest, Begins (Piece.tokens p pieces ++ rest)
  reads : ∀ {source p} rest, Located source p (Piece.text pieces) →
    topLevel source (Piece.tokens p pieces ++ rest) = .ok (comprehension, rest)

theorem begins_enclosed (shape : Shape) (qs : List Piece) (p : Place) (rest : List Token) :
    Begins (Piece.tokens p (enclosed shape qs) ++ rest) := by
  cases shape <;> exact ⟨rfl, rfl, by simp [enclosed, opener, peek], rfl⟩

theorem begins_callee {r : Reducer} (c : Callee r) (qs : List Piece) (p : Place)
    (rest : List Token) :
    Begins (Piece.tokens p (c.pieces ++ enclosed .generator qs) ++ rest) := by
  cases c with
  | plain r => cases r <;> exact ⟨rfl, rfl, by simp [Callee.pieces, peek], rfl⟩
  | math => exact ⟨rfl, rfl, by simp [Callee.pieces, peek], rfl⟩

theorem topLevel_callee {r : Reducer} (c : Callee r) (qs : List Piece) (rest : List Token) :
    topLevel source (Piece.tokens p (c.pieces ++ qs) ++ rest) =
      reducerCall source (Piece.tokens p (c.pieces ++ qs) ++ rest) := by
  cases c <;> rfl

namespace Statement

def text (s : Statement) : String :=
  String.ofList (Piece.text s.pieces)

def bracketed (shape : Shape) (hshape : shape = .list ∨ shape = .generator) (f : Fragment isFor)
    (L : Loops) : Statement where
  pieces := enclosed shape (f.pieces ++ L.pieces)
  comprehension :=
    { ofElement shape f.text L.generators with provenance := origin (originName shape) }
  tiles := tiles_enclosed (L.nested_behind f.nested) shape 0 []
  begins := begins_enclosed shape _
  reads := fun rest hsource => by
    rw [← bracketed_written hshape hsource]
    rcases hshape with rfl | rfl <;> rfl

def set (f : Fragment endsKey) (L : Loops) : Statement where
  pieces := enclosed .set (f.pieces ++ L.pieces)
  comprehension :=
    { ofElement .set f.text L.generators with provenance := origin (originName .set) }
  tiles := tiles_enclosed (L.nested_behind f.nested) .set 0 []
  begins := begins_enclosed .set _
  reads := fun _ hsource => braced_set hsource

def dict (key : Fragment endsKey) (value : Fragment isFor) (L : Loops) : Statement where
  pieces := enclosed .dict (pairPieces key value ++ L.pieces)
  comprehension :=
    { ofPair key.text value.text L.generators with provenance := origin (originName .dict) }
  tiles := tiles_enclosed (L.nested_behind (nested_pair key value)) .dict 0 []
  begins := begins_enclosed .dict _
  reads := fun _ hsource => braced_dict hsource

def call {r : Reducer} (c : Callee r) (arg : Argument) : Statement where
  pieces := c.pieces ++ enclosed .generator arg.pieces
  comprehension := { arg.comprehension with
    reduction := some { reducer := r }
    provenance := origin ("call_" ++ r.name) }
  tiles := tiles_append.mpr
    ⟨c.tiles (by simp [enclosed, opener, isBreak]) 0, tiles_enclosed arg.nested .generator _ []⟩
  begins := begins_callee c arg.pieces
  reads := fun rest hsource => by
    rw [topLevel_callee]
    exact reducerCall_written hsource

end Statement

def Assignable (target : Option String) : Prop :=
  ∀ n ∈ target, isName n = true ∧ isImport (.ident n) = false

def targetText : Option String → String
  | some n => n ++ " = "
  | none => ""

def targetPieces : Option String → List Piece
  | some n => [⟨n.toList, some (.ident n)⟩, space, ⟨['='], some .assign⟩, space]
  | none => []

theorem text_targetPieces (target : Option String) :
    Piece.text (targetPieces target) = (targetText target).toList := by
  cases target <;> simp [targetPieces, targetText]

theorem tiles_target {target : Option String} (h : Assignable target) {qs : List Piece}
    (hqs : Tiles [] 0 qs) : Tiles [] 0 (targetPieces target ++ qs) := by
  cases target with
  | none => exact hqs
  | some n =>
    have hassign : Word .assign ['='] := word_operator rfl (by decide)
    refine (word_name (h n rfl).1).tiles (by simp [isBreak]) (.gap (gap_space _ _) ?_)
    exact hassign.tiles (by simp [isBreak]) (.gap (gap_space _ _) hqs)

theorem skipSeparators_of_not {ts : List Token} (h : isSeparator (peek ts) = false) :
    skipSeparators ts = ts := by
  cases ts with
  | nil => rfl
  | cons t ts => exact List.dropWhile_cons_of_neg (by simpa [peek] using h)

/-- A statement that starts with its comprehension, or with the name it is assigned to. -/
theorem statement_of_topLevel {ts us : List Token} {target : Option String} {c : Comprehension}
    {last : Token} (hseparator : isSeparator (peek ts) = false)
    (hnot : isImport (peek ts) = false) (hend : peek ts ≠ .eof)
    (hassign : assignment ts = (target, us)) (hread : topLevel source us = .ok (c, [last]))
    (hlast : last.kind = .eof) : statement source ts = .ok (assigned target c) := by
  rw [statement, skipSeparators_of_not hseparator, skipImports, hnot]
  simp only [Bool.false_eq_true, ↓reduceIte, ok_bind, hend, hassign, hread]
  rw [skipSeparators_of_not (by rw [peek_cons, hlast]; rfl)]
  simp only [peek_cons, hlast, ↓reduceIte]
  rfl

/-- A statement in writing is read back, with the name it is assigned to. -/
theorem Statement.parse_text (s : Statement) {target : Option String} (h : Assignable target) :
    parse (targetText target ++ s.text) = .ok (assigned target s.comprehension) := by
  have htext : (targetText target ++ s.text).toList =
      Piece.text (targetPieces target ++ s.pieces) := by
    simp [Statement.text, text_targetPieces]
  have hscan := scan_eq_ok_iff.mpr ⟨_, rfl, tiles_target h s.tiles, rfl⟩
  obtain ⟨source, hwhole⟩ : ∃ source, source = Piece.text (targetPieces target ++ s.pieces) :=
    ⟨_, rfl⟩
  rw [parse, htext, hscan, ← hwhole, Piece.tokens_append, List.append_assoc]
  have hsource : Located source {} (Piece.text (targetPieces target) ++ Piece.text s.pieces) := by
    rw [← Piece.text_append, ← hwhole]
    exact located_start source
  have hread := s.reads [endOf source] (located_append.mp hsource).2
  cases target with
  | none =>
    have hbegins := s.begins {} [endOf source]
    exact statement_of_topLevel hbegins.separator hbegins.notImport hbegins.notEnd
      hbegins.unassigned hread rfl
  | some n =>
    exact statement_of_topLevel rfl (h n rfl).2 (by simp [targetPieces, peek]) rfl hread rfl

theorem Statement.parse_eq (s : Statement) {text : String} (h : text.toList = Piece.text s.pieces) :
    parse text = .ok s.comprehension := by
  have hnone : Assignable none := by simp [Assignable]
  have htext : targetText none ++ s.text = text := by
    rw [← String.toList_inj, h]
    simp [targetText, Statement.text]
  rw [← htext]
  exact s.parse_text hnone

end Comprehension

end Comprehend
