import Comprehend.Proofs.Fragments
import Comprehend.Proofs.Spelling

/-! Loops in writing. A loop is written as its variable, what it runs over and its filters, with
single spaces between them; what a range runs over is written with all three bounds. Inside
brackets, loops written in this way are read back one by one. -/
namespace Comprehend

/-! The text of a loop -/

/-- A constant expression of the given value. The least integer has no literal of its own. -/
def constantText (n : Int64) : String :=
  if n.toInt = -0x8000000000000000 then "-9223372036854775807 - 1" else toString n.toInt

def Source.written : Source → String
  | .range r =>
    "range(" ++ constantText r.start ++ ", " ++ constantText r.stop ++ ", " ++
      constantText r.step ++ ")"
  | .text s => s

def Generator.written (g : Generator) : String :=
  " for " ++ g.var ++ " in " ++ g.source.written ++ String.join (g.filters.map (" if " ++ ·))

namespace Comprehension

open Token Parse Text

variable {stop : TokenKind → Bool} {source : List Char} {p : Place} {depth : Nat}
  {us rest : List Token} {t : Token}

/-! Pieces with spaces between them -/

/-- The pieces may stand in any brackets before any break, and their own brackets are closed. -/
structure Nested (qs : List Piece) : Prop where
  tiles : ∀ depth rest, 0 < depth → Breaks rest → Tiles rest depth qs
  closed : Closed 0 (Piece.kinds qs)

theorem Nested.level {qs : List Piece} (h : Nested qs) (depth : Nat) :
    Piece.depthOver depth qs = depth :=
  h.closed.depthOver depth

theorem Nested.append {qs rs : List Piece} (hqs : Nested qs) (hrs : Nested rs)
    (hbreaks : ∀ cs, Breaks cs → Breaks (Piece.text rs ++ cs)) : Nested (qs ++ rs) := by
  refine ⟨fun depth cs hdepth hcs => tiles_append.mpr ⟨?_, ?_⟩, ?_⟩
  · exact hqs.tiles depth _ hdepth (hbreaks cs hcs)
  · rw [hqs.level]
    exact hrs.tiles depth cs hdepth hcs
  · rw [Piece.kinds_append]
    exact hqs.closed.append hrs.closed

theorem Fragment.nested (f : Fragment stop) : Nested f.pieces :=
  ⟨f.tiles, f.sealed.closed⟩

theorem nested_word {k : TokenKind} {s : List Char} (h : Word k s) (hk : isInner k = true) :
    Nested [⟨s, some k⟩] :=
  ⟨fun _ _ _ hrest => h.tiles hrest .done, closed_inner hk rfl⟩

abbrev space : Piece := ⟨[' '], none⟩

def spread (units : List (List Piece)) : List Piece :=
  units.flatMap (space :: ·)

@[simp] theorem spread_nil : spread [] = [] := rfl

@[simp] theorem spread_cons (u : List Piece) (units : List (List Piece)) :
    spread (u :: units) = space :: (u ++ spread units) := rfl

@[simp] theorem spread_append (us vs : List (List Piece)) :
    spread (us ++ vs) = spread us ++ spread vs := by
  simp [spread]

theorem breaks_spread (units : List (List Piece)) {cs : List Char} (h : Breaks cs) :
    Breaks (Piece.text (spread units) ++ cs) := by
  cases units with
  | nil => exact h
  | cons u units => simp [isBreak]

theorem Nested.spaced {qs : List Piece} (h : Nested qs) : Nested (space :: qs) :=
  ⟨fun depth cs hdepth hcs => .gap (gap_space _ _) (h.tiles depth cs hdepth hcs), h.closed⟩

theorem nested_spread {units : List (List Piece)} (h : ∀ u ∈ units, Nested u) :
    Nested (spread units) := by
  induction units with
  | nil => exact ⟨fun _ _ _ _ => .done, rfl⟩
  | cons u units ih =>
    have hunits := ih fun v hv => h v (by simp [hv])
    exact ((h u (by simp)).append hunits fun cs hcs => breaks_spread units hcs).spaced

/-! Ranges -/

def IsRangeCall (ks : List TokenKind) : Prop :=
  ∃ args close, ks = .ident "range" :: .lparen :: (args ++ [close]) ∧
    close.isClosing = true ∧ Closed 0 args

theorem rangeArguments?_call {first close : Token} (hfirst : first.kind = .ident "range")
    (hclose : close.kind.isClosing = true) (hus : Closed 0 (kinds us)) (span : Span) :
    rangeArguments? first (⟨.lparen, span⟩ :: (us ++ [close])) = some us := by
  simp [rangeArguments?, hfirst, splitAtClose_of_closed hus hclose]

theorem rangeArguments?_eq_none (first : Token) (run : List Token) :
    rangeArguments? first run = none ↔ ¬IsRangeCall (kinds (first :: run)) := by
  constructor
  · rintro h ⟨args, close, hkinds, hclose, hargs⟩
    obtain ⟨hfirst, hrun⟩ := List.cons.inj hkinds
    obtain ⟨⟨-, span⟩, us, c, rfl, rfl, rfl, rfl⟩ := Expr.kinds_eq_bracketed hrun
    simp [rangeArguments?_call hfirst hclose hargs] at h
  · intro h
    unfold rangeArguments?
    split
    next span inside =>
      split
      next hfirst =>
        split
        next args hsplit =>
          obtain ⟨t, rfl, ht, hargs⟩ := closed_of_splitAtClose hsplit
          exact absurd ⟨kinds args, t.kind, by simp [hfirst], ht, hargs⟩ h
        next => rfl
      next => rfl
    next => rfl

/-- From the given bracket depth on, all brackets are closed and no comma stands outside of them. -/
def Undivided : Nat → List TokenKind → Prop
  | depth, [] => depth = 0
  | depth, k :: ks =>
    (depth = 0 → k.isClosing = false ∧ k ≠ .comma) ∧ Undivided (k.depthAfter depth) ks

theorem Sealed.undivided {ks : List TokenKind} (h : Sealed stop depth ks)
    (hstop : stop .comma = true) : Undivided depth ks := by
  induction ks generalizing depth with
  | nil => exact h
  | cons k ks ih =>
    refine ⟨fun hzero => ?_, ih h.2.2⟩
    have hends := h.2.1 hzero
    simp only [endsRun, Bool.or_eq_false_iff] at hends
    refine ⟨hends.1.2, ?_⟩
    rintro rfl
    simp [hstop] at hends

/-- Tokens without a comma outside brackets stay together. -/
theorem splitAtCommas_undivided (h : Undivided depth (kinds us)) {run : List Token}
    {runs : List (List Token)} (hrest : splitAtCommas 0 rest = run :: runs) :
    splitAtCommas depth (us ++ rest) = (us ++ run) :: runs := by
  induction us generalizing depth with
  | nil =>
    obtain rfl : depth = 0 := h
    exact hrest
  | cons u us ih =>
    have hgoes : (decide (depth = 0) && decide (u.kind = .comma)) = false := by
      refine Bool.not_eq_true _ ▸ fun hcomma => ?_
      simp only [Bool.and_eq_true, decide_eq_true_eq] at hcomma
      exact (h.1 hcomma.1).2 hcomma.2
    rw [List.cons_append, splitAtCommas, hgoes, ih h.2]
    rfl

theorem splitAtCommas_last (h : Undivided 0 (kinds us)) : splitAtCommas 0 us = [us] := by
  have hnil : splitAtCommas 0 [] = [[]] := rfl
  simpa using splitAtCommas_undivided h hnil

theorem splitAtCommas_comma (h : Undivided 0 (kinds us)) (ht : t.kind = .comma) :
    splitAtCommas 0 (us ++ t :: rest) = us :: splitAtCommas 0 rest := by
  have hsplit : splitAtCommas 0 (t :: rest) = [] :: splitAtCommas 0 rest := by
    simp [splitAtCommas, ht]
  simpa using splitAtCommas_undivided h hsplit

/-- A fragment that spells the given constant. -/
structure Bound (n : Int64) where
  fragment : Fragment endsElement
  native : Grammar.Native (Piece.kinds fragment.pieces)
  text : fragment.text = constantText n

theorem exists_fragment_of_spells {s : String} {ks : List TokenKind} (h : Spells s.toList ks)
    (hks : Sealed stop 0 ks) :
    ∃ f : Fragment stop, f.text = s ∧ Piece.kinds f.pieces = ks := by
  obtain ⟨qs, htext, rfl, hstarts, hends, htiles⟩ := h
  refine ⟨⟨qs, hstarts, hends, fun depth rest _ hrest => htiles depth rest hrest, hks⟩, ?_, rfl⟩
  rw [Fragment.text, htext, String.ofList_toList]

theorem prints_constantText (n : Int64) :
    ∃ level e, 6 ≤ level ∧ Expr.Prints level (constantText n).toList e ∧ e.evalInt = some n := by
  have hle := n.le_toInt
  unfold constantText
  split
  next hmin =>
    have hleft := Expr.prints_const (n := -9223372036854775807) (by decide)
    have hright := Expr.prints_natural (n := 1) (by decide)
    refine ⟨10, _, by decide, Expr.Prints.binary Expr.isSymbol_sub (by decide)
      (hleft.loosen (by decide) (by decide)) (hright.loosen (by decide) (by decide)), ?_⟩
    obtain rfl : n = -9223372036854775808 := Int64.toInt_inj.mp hmin
    rfl
  next hmin =>
    refine ⟨_, _, ?_, Expr.prints_const (by omega), rfl⟩
    simp only [Expr.precedence]
    split <;> decide

theorem nonempty_bound (n : Int64) : Nonempty (Bound n) := by
  obtain ⟨level, e, hlevel, ⟨ks, hspells, hks⟩, -⟩ := prints_constantText n
  have he := Expr.expression_of_phraseAt hks hlevel
  obtain ⟨f, htext, rfl⟩ := exists_fragment_of_spells hspells
    (he.passes fun _ => stopsAtLoops_endsElement).sealed
  exact ⟨f, he.native, htext⟩

theorem evalInt_constantText (n : Int64) :
    (Expr.parse? (constantText n)).bind Expr.evalInt = some n := by
  obtain ⟨level, e, hlevel, ⟨ks, hspells, hks⟩, hvalue⟩ := prints_constantText n
  rw [Expr.parse?, Expr.parse_spelled hspells (Expr.expression_of_phraseAt hks hlevel)]
  exact hvalue

namespace Bound

variable {a b c : Int64} (start : Bound a) (stop : Bound b) (step : Bound c)

def arguments : List Piece :=
  start.fragment.pieces ++ ⟨[','], some .comma⟩ :: space :: (stop.fragment.pieces ++
    ⟨[','], some .comma⟩ :: space :: step.fragment.pieces)

def call : List Piece :=
  ⟨"range".toList, some (.ident "range")⟩ :: ⟨['('], some .lparen⟩ ::
    (arguments start stop step ++ [⟨[')'], some .rparen⟩])

theorem nested_arguments : Nested (arguments start stop step) := by
  have hcomma : Nested [⟨[','], some .comma⟩] := nested_word (word_operator rfl (by decide)) rfl
  have hstep := hcomma.append step.fragment.nested.spaced fun _ _ => by simp [isBreak]
  have hstop := stop.fragment.nested.append hstep fun _ _ => by simp [isBreak]
  have hstop' := hcomma.append hstop.spaced fun _ _ => by simp [isBreak]
  exact start.fragment.nested.append hstop' fun _ _ => by simp [isBreak]

theorem passes_arguments (halt : TokenKind → Bool) :
    Passes halt 1 (Piece.kinds (arguments start stop step)) := by
  simp only [arguments, Piece.kinds_append, Piece.kinds_some, Piece.kinds_gap]
  exact start.fragment.sealed.passes.append (Grammar.passes_comma.cons
    (stop.fragment.sealed.passes.append (Grammar.passes_comma.cons
      step.fragment.sealed.passes)))

theorem tiles_call (rest : List Char) : Tiles rest depth (call start stop step) := by
  have hargs := (nested_arguments start stop step).tiles (depth + 1) (')' :: rest) (by omega)
    (by simp [isBreak])
  refine (word_name (by decide)).tiles (by simp [isBreak]) ?_
  refine .word (lexeme_solo rfl (by decide) rfl _) (tiles_append.mpr ⟨hargs, ?_⟩)
  exact .word (lexeme_solo rfl (by decide) rfl _) .done

def callFragment : Fragment endsFilter where
  pieces := call start stop step
  starts := ⟨_, _, _, rfl, rfl⟩
  ends := (endsInWord_single rfl [')']).append (by simp) (_ :: _ :: arguments start stop step)
  tiles := fun _ rest _ _ => tiles_call start stop step rest
  sealed := by
    have hname : Passes endsFilter 0 [.ident "range"] :=
      passes_plain rfl fun _ => stopsAtClauses_endsFilter
    have hbrackets : Passes endsFilter 0
        (.lparen :: (Piece.kinds (arguments start stop step) ++ [.rparen])) :=
      Grammar.passes_brackets rfl rfl (fun _ => stopsAtClauses_endsFilter)
        (passes_arguments start stop step endsFilter)
    simpa [call] using (hname.cons hbrackets).sealed

variable {start stop step}

theorem rangeBound {n : Int64} {b : Bound n}
    (hsource : Located source p (Piece.text b.fragment.pieces)) :
    ∃ first run, Piece.tokens p b.fragment.pieces = first :: run ∧
      startsKeyword (first :: run) = false ∧ rangeBound source (first, run) = .ok n := by
  obtain ⟨first, run, htokens, htext⟩ := Fragment.exists_run hsource
  refine ⟨first, run, htokens, ?_, ?_⟩
  · have hnative : Grammar.Native (kinds (first :: run)) := by
      rw [← htokens, Piece.kinds_tokens]
      exact b.native
    have hpeek : peek [] ≠ .assign := by simp [peek]
    simpa using Expr.startsKeyword_append hnative (by simp) hpeek
  · simp only [Comprehension.rangeBound, htext, b.text, evalInt_constantText]

theorem rangeCall (hc : c ≠ 0) (hsource : Located source p (Piece.text (arguments start stop step)))
    (span : Span) :
    rangeCall source span (Piece.tokens p (arguments start stop step)) = .ok ⟨a, b, c⟩ := by
  simp only [arguments, Piece.text_append, Piece.text_cons, located_append] at hsource
  obtain ⟨hstart, -, -, hstop, -, -, hstep⟩ := hsource
  obtain ⟨first, run, htokens, hkeyword, hbound⟩ := rangeBound hstart
  obtain ⟨first', run', htokens', hkeyword', hbound'⟩ := rangeBound hstop
  obtain ⟨first'', run'', htokens'', hkeyword'', hbound''⟩ := rangeBound hstep
  have hundivided {n : Int64} (b : Bound n) (p : Place) :
      Undivided 0 (kinds (Piece.tokens p b.fragment.pieces)) := by
    rw [Piece.kinds_tokens]
    exact b.fragment.sealed.undivided rfl
  have hsplit : splitAtCommas 0 (Piece.tokens p (arguments start stop step)) =
      [first :: run, first' :: run', first'' :: run''] := by
    simp only [arguments, Piece.tokens_append, Piece.tokens_some, Piece.tokens_gap]
    rw [splitAtCommas_comma (hundivided start _) rfl, splitAtCommas_comma (hundivided stop _) rfl,
      splitAtCommas_last (hundivided step _), htokens, htokens', htokens'']
  have hargs : Comprehension.arguments (Piece.tokens p (arguments start stop step)) =
      [(first, run), (first', run'), (first'', run'')] := by
    simp [Comprehension.arguments, hsplit]
  have hbounds : [(first, run), (first', run'), (first'', run'')].mapM
      (Comprehension.rangeBound source) = .ok [a, b, c] := by
    simp only [List.mapM_cons, List.mapM_nil, hbound, hbound', hbound'']
    rfl
  have hrange : rangeOf [a, b, c] = .ok ⟨a, b, c⟩ := if_neg hc
  simp only [Comprehension.rangeCall, hargs, List.find?_cons, List.find?_nil, hkeyword, hkeyword',
    hkeyword'', hbounds, ok_bind, hrange]
  rfl

theorem iterable (hc : c ≠ 0) (hsource : Located source p (Piece.text (call start stop step)))
    (hrest : EndsAt endsFilter rest) :
    iterable source (Piece.tokens p (call start stop step) ++ rest) =
      .ok (.range ⟨a, b, c⟩, rest) := by
  obtain ⟨first, run, htokens, -⟩ :=
    Fragment.exists_run (f := callFragment start stop step) hsource
  have hcapture : captureRun endsFilter (Piece.tokens p (call start stop step) ++ rest) =
      .ok ((first, run), rest) :=
    Fragment.captureRun (f := callFragment start stop step) htokens hrest
  simp only [callFragment, call, Piece.tokens_some, Piece.tokens_append, Piece.tokens_nil,
    List.cons.injEq] at htokens
  obtain ⟨rfl, rfl⟩ := htokens
  have hclosed := (nested_arguments start stop step).closed
  rw [← Piece.kinds_tokens ((p.over "range".toList).over ['('])] at hclosed
  simp only [call, Piece.text_append, Piece.text_cons, located_append] at hsource
  have hcall := rangeCall hc hsource.2.2.1
  rw [Comprehension.iterable, hcapture, ok_bind]
  simp only
  rw [rangeArguments?_call ?first ?close hclosed]
  case first | close => rfl
  simp only [hcall, ok_bind]
  rfl

end Bound

/-! Loops -/

inductive Iterable where
  | text (f : Fragment endsFilter) (h : ¬IsRangeCall (Piece.kinds f.pieces))
  | range (r : Range) (start : Bound r.start) (stop : Bound r.stop) (step : Bound r.step)
    (h : r.step ≠ 0)

namespace Iterable

def fragment : Iterable → Fragment endsFilter
  | text f _ => f
  | range _ start stop step _ => Bound.callFragment start stop step

def values : Iterable → Source
  | text f _ => .text f.text
  | range r _ _ _ _ => .range r

theorem text_fragment (i : Iterable) : i.fragment.text = i.values.written := by
  cases i with
  | text f h => rfl
  | range r start stop step h =>
    rw [← String.toList_inj]
    have hbound {n : Int64} (b : Bound n) :
        Piece.text b.fragment.pieces = (constantText n).toList := by
      rw [← b.text, Fragment.toList_text]
    simp [fragment, values, Source.written, Bound.callFragment, Bound.call, Bound.arguments, hbound]

theorem iterable {i : Iterable} (hsource : Located source p (Piece.text i.fragment.pieces))
    (hrest : EndsAt endsFilter rest) :
    iterable source (Piece.tokens p i.fragment.pieces ++ rest) = .ok (i.values, rest) := by
  cases i with
  | text f h =>
    obtain ⟨first, run, htokens, htext⟩ := Fragment.exists_run hsource
    have hnot : rangeArguments? first run = none := by
      rw [rangeArguments?_eq_none, ← htokens, Piece.kinds_tokens]
      exact h
    rw [Comprehension.iterable, Fragment.captureRun htokens hrest, ok_bind]
    simp only [hnot, htext]
    rfl
  | range r start stop step h => exact Bound.iterable h hsource hrest

end Iterable

structure Loop where
  var : String
  isName_var : isName var = true
  items : Iterable
  filters : List (Fragment endsFilter)

namespace Loop

def generator (l : Loop) : Generator :=
  ⟨l.var, l.items.values, l.filters.map Fragment.text⟩

end Loop

def filterUnits (fs : List (Fragment endsFilter)) : List (List Piece) :=
  fs.flatMap fun f => [[⟨"if".toList, some .kwIf⟩], f.pieces]

def Loop.units (l : Loop) : List (List Piece) :=
  [⟨"for".toList, some .kwFor⟩] :: [⟨l.var.toList, some (.ident l.var)⟩] ::
    [⟨"in".toList, some .kwIn⟩] :: l.items.fragment.pieces :: filterUnits l.filters

theorem spread_filterUnits_cons (f : Fragment endsFilter) (fs : List (Fragment endsFilter)) :
    spread (filterUnits (f :: fs)) = space :: ⟨"if".toList, some .kwIf⟩ ::
      space :: (f.pieces ++ spread (filterUnits fs)) := rfl

def loopPieces (loops : List Loop) : List Piece :=
  spread (loops.flatMap Loop.units)

theorem loopPieces_cons (l : Loop) (loops : List Loop) :
    loopPieces (l :: loops) = space :: ⟨"for".toList, some .kwFor⟩ ::
      space :: ⟨l.var.toList, some (.ident l.var)⟩ :: space :: ⟨"in".toList, some .kwIn⟩ ::
      space :: (l.items.fragment.pieces ++
        (spread (filterUnits l.filters) ++ loopPieces loops)) := by
  simp [loopPieces, Loop.units]

theorem text_filters (fs : List (Fragment endsFilter)) :
    Piece.text (spread (filterUnits fs)) =
      (String.join ((fs.map Fragment.text).map (" if " ++ ·))).toList := by
  induction fs with
  | nil => rfl
  | cons f fs ih =>
    rw [spread_filterUnits_cons]
    simp [ih]

theorem text_loops (loops : List Loop) :
    Piece.text (loopPieces loops) =
      (String.join ((loops.map Loop.generator).map Generator.written)).toList := by
  induction loops with
  | nil => rfl
  | cons l loops ih =>
    have hitems : Piece.text l.items.fragment.pieces = l.items.values.written.toList := by
      rw [← l.items.text_fragment, Fragment.toList_text]
    rw [loopPieces_cons]
    simp [Loop.generator, Generator.written, hitems, text_filters, ih]

theorem word_for : Word .kwFor "for".toList :=
  word_ofWord (by decide) (List.all_eq_true.mp (by decide))

theorem word_in : Word .kwIn "in".toList :=
  word_ofWord (by decide) (List.all_eq_true.mp (by decide))

theorem word_if : Word .kwIf "if".toList :=
  word_ofWord (by decide) (List.all_eq_true.mp (by decide))

theorem nested_filters (fs : List (Fragment endsFilter)) :
    ∀ u ∈ filterUnits fs, Nested u := by
  intro u hu
  obtain ⟨f, -, hu⟩ := List.mem_flatMap.mp hu
  simp only [List.mem_cons, List.not_mem_nil, or_false] at hu
  rcases hu with rfl | rfl
  · exact nested_word word_if rfl
  · exact f.nested

theorem nested_loops (loops : List Loop) : Nested (loopPieces loops) := by
  refine nested_spread fun u hu => ?_
  obtain ⟨l, -, hu⟩ := List.mem_flatMap.mp hu
  simp only [Loop.units, List.mem_cons] at hu
  rcases hu with rfl | rfl | rfl | rfl | hu
  · exact nested_word word_for rfl
  · exact nested_word (word_name l.isName_var) rfl
  · exact nested_word word_in rfl
  · exact l.items.fragment.nested
  · exact nested_filters l.filters u hu

/-! Reading loops back -/

def ClosesAt (rest : List Token) : Prop :=
  ∃ t us, rest = t :: us ∧ t.kind.isClosing = true

theorem ClosesAt.endsAt (h : ClosesAt rest) : EndsAt stop rest := by
  obtain ⟨t, us, rfl, ht⟩ := h
  exact ⟨t, us, rfl, .inr (by simp [endsRun, ht])⟩

theorem endsAt_filters (fs : List (Fragment endsFilter)) (p : Place)
    (h : EndsAt endsFilter rest) :
    EndsAt endsFilter (Piece.tokens p (spread (filterUnits fs)) ++ rest) := by
  cases fs with
  | nil => exact h
  | cons f fs => exact ⟨_, _, rfl, .inr rfl⟩

theorem filters_written {fs : List (Fragment endsFilter)} {fuel : Nat}
    (hsource : Located source p (Piece.text (spread (filterUnits fs))))
    (hrest : EndsAt endsFilter rest) (hif : peek rest ≠ .kwIf) (hfuel : fs.length < fuel) :
    filters source fuel (Piece.tokens p (spread (filterUnits fs)) ++ rest) =
      .ok (fs.map Fragment.text, rest) := by
  induction fs generalizing p fuel with
  | nil =>
    obtain ⟨n, rfl⟩ : ∃ n, fuel = n + 1 := ⟨fuel - 1, by omega⟩
    simp [filterUnits, filters, hif]
    rfl
  | cons f fs ih =>
    obtain ⟨n, rfl⟩ : ∃ n, fuel = n + 1 := ⟨fuel - 1, by omega⟩
    rw [spread_filterUnits_cons] at hsource ⊢
    simp only [Piece.text_cons, Piece.text_append, located_append] at hsource
    obtain ⟨-, -, -, hf, hfs⟩ := hsource
    have hread := @ih _ n hfs (by simp at hfuel; omega)
    simp only [Piece.tokens_gap, Piece.tokens_some, Piece.tokens_append, List.cons_append,
      List.append_assoc, filters, peek, ↓reduceIte, List.drop_succ_cons, List.drop_zero]
    rw [Fragment.capture hf (endsAt_filters fs _ hrest), ok_bind]
    simp only [hread]
    rfl

theorem length_filters (fs : List (Fragment endsFilter)) :
    fs.length ≤ (Piece.kinds (spread (filterUnits fs))).length := by
  induction fs with
  | nil => simp
  | cons f fs ih =>
    simp only [spread_filterUnits_cons, Piece.kinds_gap, Piece.kinds_some, Piece.kinds_append,
      List.length_append, List.length_cons]
    omega

theorem length_loops (loops : List Loop) :
    loops.length ≤ (Piece.kinds (loopPieces loops)).length := by
  induction loops with
  | nil => simp
  | cons l loops ih =>
    simp only [loopPieces_cons, Piece.kinds_gap, Piece.kinds_some, Piece.kinds_append,
      List.length_append, List.length_cons]
    omega

theorem endsAt_loops (loops : List Loop) (p : Place) (h : ClosesAt rest) :
    EndsAt endsFilter (Piece.tokens p (loopPieces loops) ++ rest) := by
  cases loops with
  | nil => exact h.endsAt
  | cons l loops => exact ⟨_, _, rfl, .inr rfl⟩

theorem peek_loops_ne_if (loops : List Loop) (p : Place) (h : ClosesAt rest) :
    peek (Piece.tokens p (loopPieces loops) ++ rest) ≠ .kwIf := by
  cases loops with
  | nil =>
    obtain ⟨t, us, rfl, ht⟩ := h
    intro hif
    simp [peek, loopPieces] at hif
    simp [hif, TokenKind.isClosing] at ht
  | cons l loops => simp [loopPieces, Loop.units, peek]

theorem loopVariable_fresh {bound : List String} {var : String} (h : var ∉ bound) (span : Span)
    (ht : t.kind = .kwIn) :
    loopVariable bound (⟨.ident var, span⟩ :: t :: rest) = .ok (var, t :: rest) := by
  simp [loopVariable, peek, ht, h]

theorem clauses_written {loops : List Loop} {bound : List String} {fuel : Nat}
    (hsource : Located source p (Piece.text (loopPieces loops))) (hrest : ClosesAt rest)
    (hnodup : (loops.map Loop.var).Nodup) (hfresh : ∀ l ∈ loops, l.var ∉ bound)
    (hfuel : loops.length < fuel) :
    clauses source bound fuel (Piece.tokens p (loopPieces loops) ++ rest) =
      .ok (loops.map Loop.generator, rest) := by
  induction loops generalizing p bound fuel with
  | nil =>
    obtain ⟨n, rfl⟩ : ∃ n, fuel = n + 1 := ⟨fuel - 1, by omega⟩
    obtain ⟨t, us, rfl, ht⟩ := hrest
    have hfor : t.kind ≠ .kwFor := by
      rintro hfor
      simp [hfor, TokenKind.isClosing] at ht
    simp [loopPieces, clauses, peek, hfor]
    rfl
  | cons l loops ih =>
    obtain ⟨n, rfl⟩ : ∃ n, fuel = n + 1 := ⟨fuel - 1, by omega⟩
    rw [loopPieces_cons] at hsource ⊢
    simp only [Piece.text_cons, Piece.text_append, located_append] at hsource
    obtain ⟨-, -, -, -, -, -, -, hitems, hfilters, hloops⟩ := hsource
    obtain ⟨hnot, hnodup⟩ := List.nodup_cons.mp hnodup
    have hfresh' : ∀ m ∈ loops, m.var ∉ l.var :: bound := by
      intro m hm hmem
      rcases List.mem_cons.mp hmem with heq | hmem
      · exact hnot (heq ▸ List.mem_map_of_mem hm)
      · exact hfresh m (by simp [hm]) hmem
    have hmore := @ih _ (l.var :: bound) n hloops hnodup hfresh' (by simp at hfuel; omega)
    simp only [Piece.tokens_gap, Piece.tokens_some, Piece.tokens_append, List.cons_append,
      List.append_assoc, clauses, peek, ↓reduceIte, List.drop_succ_cons, List.drop_zero]
    rw [loopVariable_fresh (hfresh l (by simp)) _ rfl, ok_bind]
    simp only [expect, ↓reduceIte, ok_bind]
    rw [Iterable.iterable hitems (endsAt_filters _ _ (endsAt_loops loops _ hrest)), ok_bind]
    simp only
    have hlength := length_filters l.filters
    rw [filters_written hfilters (endsAt_loops loops _ hrest) (peek_loops_ne_if loops _ hrest)
      (by simp only [List.length_append, Piece.length_tokens]; omega), ok_bind]
    simp only [hmore, ok_bind]
    rfl

/-- Loops in writing are read back as they are. -/
theorem loopsFrom_written {loops : List Loop}
    (hsource : Located source p (Piece.text (loopPieces loops))) (hrest : ClosesAt rest)
    (hnodup : (loops.map Loop.var).Nodup) :
    loopsFrom source (Piece.tokens p (loopPieces loops) ++ rest) =
      .ok (loops.map Loop.generator, rest) := by
  have hlength := length_loops loops
  refine clauses_written hsource hrest hnodup (by simp) ?_
  simp only [List.length_append, Piece.length_tokens]
  omega

end Comprehension

end Comprehend
