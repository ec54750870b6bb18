import Mathlib
import Comprehend.Proofs.Readings

/-! Calls of `range`. What is read as a range stands in the source as a call whose arguments are
constants. A place between two commas may be empty, and the call may end with any closing bracket;
without these liberties it is well-formed. -/
namespace Comprehend

/-- The values of one, two or three arguments are the bounds of the range. A start that is not given
is `0`, and a step `1`. -/
def Range.HasBounds (r : Range) (bounds : List Int64) : Prop :=
  bounds = [r.stop] ∧ r.start = 0 ∧ r.step = 1 ∨
    bounds = [r.start, r.stop] ∧ r.step = 1 ∨ bounds = [r.start, r.stop, r.step]

theorem Parse.forall₂_of_mapM {α β : Type} {f : α → Attempt β} {as : List α} {bs : List β}
    (h : as.mapM f = .ok bs) : List.Forall₂ (fun a b => f a = .ok b) as bs := by
  induction as generalizing bs with
  | nil =>
    obtain rfl := pure_eq_ok.mp h
    exact .nil
  | cons a as ih =>
    rw [List.mapM_cons] at h
    obtain ⟨b, hb, h⟩ := bind_eq_ok.mp h
    obtain ⟨bs, hbs, h⟩ := bind_eq_ok.mp h
    obtain rfl := pure_eq_ok.mp h
    exact .cons hb (ih hbs)

namespace Comprehension

open Token Parse

variable {source : List Char} {all ts : List Token} {slots : List (List Token)} {depth : Nat}
  {bounds : List Int64} {r : Range}

/-! Places between commas -/

/-- Places with a comma between each two of them; no other comma stands outside of brackets. -/
inductive Separated : List (List Token) → List Token → Prop
  | last {us : List Token} (h : Undivided 0 (kinds us)) : Separated [us] us
  | comma {us rest : List Token} {t : Token} {slots : List (List Token)}
      (h : Undivided 0 (kinds us)) (ht : t.kind = .comma) (hrest : Separated slots rest) :
      Separated (us :: slots) (us ++ t :: rest)

theorem Separated.splitAtCommas_eq (h : Separated slots ts) : splitAtCommas 0 ts = slots := by
  induction h with
  | last h => exact splitAtCommas_last h
  | comma h ht _ ih => rw [splitAtCommas_comma h ht, ih]

theorem Separated.ne_nil (h : Separated slots ts) : slots ≠ [] := by
  cases h <;> simp

/-- The first place runs up to the first comma outside of brackets. -/
theorem splitAtCommas_of_closed (h : Closed depth (kinds ts)) :
    ∃ us slots, splitAtCommas depth ts = us :: slots ∧ Undivided depth (kinds us) ∧
      (slots = [] ∧ ts = us ∨
        ∃ t rest, t.kind = .comma ∧ ts = us ++ t :: rest ∧ Separated slots rest) := by
  induction ts generalizing depth with
  | nil => exact ⟨[], [], rfl, h, .inl ⟨rfl, rfl⟩⟩
  | cons t ts ih =>
    obtain ⟨us, slots, hsplit, hus, hrest⟩ := ih h.2
    by_cases hcomma : depth = 0 ∧ t.kind = .comma
    · obtain ⟨rfl, ht⟩ := hcomma
      have hlevel : t.kind.depthAfter 0 = 0 := by rw [ht]; rfl
      rw [hlevel] at hsplit hus
      refine ⟨[], us :: slots, by simp [splitAtCommas, ht, hsplit], rfl, .inr ⟨t, ts, ht, rfl, ?_⟩⟩
      rcases hrest with ⟨rfl, rfl⟩ | ⟨t', rest, ht', rfl, hseparated⟩
      · exact .last hus
      · exact .comma hus ht' hseparated
    · refine ⟨t :: us, slots, ?_, ⟨fun hzero => ⟨?_, fun ht => hcomma ⟨hzero, ht⟩⟩, hus⟩, ?_⟩
      · rw [splitAtCommas, hsplit, if_neg (by simpa using hcomma)]
      · exact Bool.not_eq_true _ ▸ fun hclose => Nat.ne_of_gt (h.1 hclose) hzero
      · rcases hrest with ⟨rfl, rfl⟩ | ⟨t', rest, ht', rfl, hseparated⟩
        · exact .inl ⟨rfl, rfl⟩
        · exact .inr ⟨t', rest, ht', rfl, hseparated⟩

theorem separated_splitAtCommas (h : Closed 0 (kinds ts)) : Separated (splitAtCommas 0 ts) ts := by
  obtain ⟨us, slots, hsplit, hus, ⟨rfl, rfl⟩ | ⟨t, rest, ht, rfl, hseparated⟩⟩ :=
    splitAtCommas_of_closed h
  · exact hsplit ▸ .last hus
  · exact hsplit ▸ .comma hus ht hseparated

/-! Calls -/

/-- The tokens of a call of `range` that ends with some closing bracket, and the places between its
commas. -/
structure RangeCall where
  name : Token
  opening : Token
  inside : List Token
  closing : Token
  slots : List (List Token)
  name_kind : name.kind = .ident "range"
  opening_kind : opening.kind = .lparen
  closing_kind : closing.kind.isClosing = true
  separated : Separated slots inside

namespace RangeCall

def tokens (call : RangeCall) : List Token :=
  call.name :: call.opening :: (call.inside ++ [call.closing])

def arguments (call : RangeCall) : List (List Token) :=
  call.slots.filter fun us => !us.isEmpty

end RangeCall

theorem exists_call_of_rangeArguments? {first : Token} {run inside : List Token}
    (h : rangeArguments? first run = some inside) :
    ∃ call : RangeCall, call.tokens = first :: run ∧
      call.arguments = (arguments inside).map fun a => a.1 :: a.2 := by
  unfold rangeArguments? at h
  split at h
  next span us =>
    split at h
    next hfirst =>
      split at h
      next args hsplit =>
        obtain rfl := Option.some.inj h
        obtain ⟨t, rfl, ht, hclosed⟩ := closed_of_splitAtClose hsplit
        refine ⟨⟨first, ⟨.lparen, span⟩, args, t, _, hfirst, rfl, ht,
          separated_splitAtCommas hclosed⟩, rfl, ?_⟩
        rw [RangeCall.arguments, arguments, List.map_filterMap, ← List.filterMap_eq_filter]
        refine congrArg (List.filterMap · _) (funext fun us => ?_)
        cases us <;> rfl
      next => simp at h
    next => simp at h
  next => simp at h

/-- The tokens, as they stand in the source, are a constant expression of this value. -/
def Denotes (source : List Char) : List Token → Int64 → Prop
  | [], _ => False
  | first :: run, n =>
    ∃ e, Expr.parse? ((runSpan first run).text source) = some e ∧ e.evalInt = some n

theorem denotes_of_rangeBound {arg : Token × List Token} {n : Int64}
    (h : rangeBound source arg = .ok n) : Denotes source (arg.1 :: arg.2) n := by
  unfold rangeBound at h
  dsimp only at h
  split at h
  next m hvalue =>
    obtain rfl := Except.ok.inj h
    exact Option.bind_eq_some_iff.mp hvalue
  next => simp at h

theorem hasBounds_of_rangeOf (h : rangeOf bounds = .ok r) : r.HasBounds bounds := by
  unfold rangeOf at h
  split at h
  · obtain rfl := Except.ok.inj h
    simp [Range.HasBounds]
  · obtain rfl := Except.ok.inj h
    simp [Range.HasBounds]
  · split at h
    · simp at h
    · obtain rfl := Except.ok.inj h
      simp [Range.HasBounds]
  · simp at h

/-! Loops over ranges -/

/-- What a loop over the variable runs over, from the head of the loop up to the next word of the
comprehension. -/
def RunsOver (all : List Token) (var : String) (items : List Token) : Prop :=
  ∃ rest, StandsBehind all var (items ++ rest) ∧ Sealed endsFilter 0 (kinds items) ∧
    EndsAt endsFilter rest

/-- A loop over a range runs over a call, and the bounds are the values of its arguments. -/
theorem LoopRead.exists_rangeCall {g : Generator} (h : LoopRead source all g)
    (hrange : g.source = .range r) :
    ∃ (call : RangeCall) (bounds : List Int64), RunsOver all g.var call.tokens ∧
      List.Forall₂ (Denotes source) call.arguments bounds ∧ r.HasBounds bounds ∧ r.step ≠ 0 := by
  obtain ⟨-, ts, rest, -, -, hbehind, hread⟩ := h.items
  rw [hrange] at hread
  obtain ⟨first, run, hrun, ⟨inside, r', hinside, hcall, hr⟩ | ⟨-, htext⟩⟩ := iterable_eq_ok hread
  · obtain rfl := Source.range.inj hr
    obtain ⟨rfl, hsealed, hends⟩ := captureRun_eq_ok hrun
    obtain ⟨call, htokens, hargs⟩ := exists_call_of_rangeArguments? hinside
    obtain ⟨bounds, hmap, hrangeOf⟩ := rangeCall_eq_ok hcall
    have hbounds : List.Forall₂ (Denotes source) call.arguments bounds := by
      rw [hargs, List.forall₂_map_left_iff]
      exact (forall₂_of_mapM hmap).imp fun _ _ => denotes_of_rangeBound
    rw [← htokens] at hbehind hsealed
    exact ⟨call, bounds, ⟨rest, hbehind, hsealed, hends⟩, hbounds,
      hasBounds_of_rangeOf hrangeOf, step_ne_zero_of_rangeOf hrangeOf⟩
  · cases htext

/-! Well-formed calls -/

/-- The tokens are a call of `range` with one, two or three arguments, a single comma between each
two of them and perhaps one behind the last. The arguments are constants and the bounds of the
range, which does not stand still. -/
def IsWellFormedCall (source : List Char) (ts : List Token) (r : Range) : Prop :=
  ∃ name opening inside closing args bounds, ts = name :: opening :: (inside ++ [closing]) ∧
    name.kind = .ident "range" ∧ opening.kind = .lparen ∧ closing.kind = .rparen ∧
    [] ∉ args ∧ (Separated args inside ∨ Separated (args ++ [[]]) inside) ∧
    List.Forall₂ (Denotes source) args bounds ∧ r.HasBounds bounds ∧ r.step ≠ 0

theorem RangeCall.isWellFormedCall_iff {call : RangeCall} {bounds : List Int64} {r : Range}
    (hbounds : List.Forall₂ (Denotes source) call.arguments bounds) (hrange : r.HasBounds bounds)
    (hstep : r.step ≠ 0) :
    IsWellFormedCall source call.tokens r ↔
      call.closing.kind = .rparen ∧ [] ∉ call.slots.dropLast := by
  constructor
  · rintro ⟨name, opening, inside, closing, args, -, htokens, -, -, hclosing, hargs, hseparated, -⟩
    obtain ⟨hinside, hlast⟩ := List.append_inj' (List.cons.inj (List.cons.inj htokens).2).2 rfl
    obtain rfl : call.closing = closing := List.singleton_inj.mp hlast
    refine ⟨hclosing, ?_⟩
    rw [← call.separated.splitAtCommas_eq, hinside]
    rcases hseparated with h | h
    · rw [h.splitAtCommas_eq]
      exact fun hmem => hargs (List.dropLast_subset args hmem)
    · rwa [h.splitAtCommas_eq, List.dropLast_concat]
  · rintro ⟨hclosing, hplaces⟩
    obtain ⟨places, last, hslots⟩ : ∃ places last, call.slots = places ++ [last] :=
      (List.eq_nil_or_concat' _).resolve_left call.separated.ne_nil
    rw [hslots, List.dropLast_concat] at hplaces
    have hfull : places.filter (fun us => !us.isEmpty) = places :=
      List.filter_eq_self.mpr fun us hus => by
        cases us with
        | nil => exact absurd hus hplaces
        | cons u us => rfl
    have hseparated := call.separated
    rw [RangeCall.arguments, hslots, List.filter_append, hfull] at hbounds
    rw [hslots] at hseparated
    cases last with
    | nil =>
      rw [List.filter_cons_of_neg (by simp), List.filter_nil, List.append_nil] at hbounds
      exact ⟨_, _, _, _, places, bounds, rfl, call.name_kind, call.opening_kind, hclosing, hplaces,
        .inr hseparated, hbounds, hrange, hstep⟩
    | cons u us =>
      rw [List.filter_cons_of_pos (by simp), List.filter_nil] at hbounds
      exact ⟨_, _, _, _, places ++ [u :: us], bounds, rfl, call.name_kind, call.opening_kind,
        hclosing, by simpa using hplaces, .inl hseparated, hbounds, hrange, hstep⟩

/-- A range that is read from a source stands there as a call, and the bounds are the values of the
arguments. The call is well-formed if and only if it ends with a round bracket and no place before
the last one is empty. -/
theorem range_of_parse {source : String} {c : Comprehension} (h : parse source = .ok c) :
    ∃ ts, scan source.toList = .ok ts ∧ ∀ g ∈ c.generators, ∀ r, g.source = .range r →
      ∃ (call : RangeCall) (bounds : List Int64), RunsOver ts g.var call.tokens ∧
        List.Forall₂ (Denotes source.toList) call.arguments bounds ∧ r.HasBounds bounds ∧
        r.step ≠ 0 ∧
        (IsWellFormedCall source.toList call.tokens r ↔
          call.closing.kind = .rparen ∧ [] ∉ call.slots.dropLast) := by
  obtain ⟨ts, hscan, hloops⟩ := loopsRead_of_parse h
  refine ⟨ts, hscan, fun g hg r hr => ?_⟩
  obtain ⟨call, bounds, hruns, hbounds, hrange, hstep⟩ := (hloops.each g hg).exists_rangeCall hr
  exact ⟨call, bounds, hruns, hbounds, hrange, hstep,
    RangeCall.isWellFormedCall_iff hbounds hrange hstep⟩

theorem range_of_parse_trailingComma :
    parse "[x for x in range(1, 2 * (3 + 4),)]" =
        .ok { ofElement .list "x" [⟨"x", .range ⟨1, 14, 1⟩, []⟩] with
          provenance := origin "list_comp" } ∧
      ∃ ts, scan "[x for x in range(1, 2 * (3 + 4),)]".toList = .ok ts ∧
        ∃ (call : RangeCall) (bounds : List Int64), RunsOver ts "x" call.tokens ∧
          List.Forall₂ (Denotes "[x for x in range(1, 2 * (3 + 4),)]".toList) call.arguments
            bounds ∧
          Range.HasBounds ⟨1, 14, 1⟩ bounds := by
  have hparse : parse "[x for x in range(1, 2 * (3 + 4),)]" =
      .ok { ofElement .list "x" [⟨"x", .range ⟨1, 14, 1⟩, []⟩] with
        provenance := origin "list_comp" } := by cbv
  obtain ⟨ts, hscan, hranges⟩ := range_of_parse hparse
  obtain ⟨call, bounds, hruns, hbounds, hrange, -⟩ := hranges _ List.mem_cons_self _ rfl
  exact ⟨hparse, ts, hscan, call, bounds, hruns, hbounds, hrange⟩

/-! Calls that are not well-formed -/

theorem exists_scan {source : String} {ks : List TokenKind}
    (h : (scan source.toList).map kinds = .ok ks) :
    ∃ ts, scan source.toList = .ok ts ∧ kinds ts = ks := by
  cases hscan : scan source.toList with
  | error e => simp [hscan, Except.map] at h
  | ok ts => exact ⟨ts, rfl, by simpa [hscan, Except.map] using h⟩

/-- The kinds of the tokens up to the closing bracket of a well-formed call behind a loop's head. -/
theorem RunsOver.kinds_wellFormed {all items : List Token} {var : String} {r : Range}
    (h : RunsOver all var items) (hcall : IsWellFormedCall source items r) :
    ∃ (before rest : List TokenKind) (inside : List Token) (args : List (List Token)),
      kinds all = before ++ .kwFor :: .ident var :: .kwIn :: .ident "range" :: .lparen ::
        (kinds inside ++ .rparen :: rest) ∧
      [] ∉ args ∧ (Separated args inside ∨ Separated (args ++ [[]]) inside) := by
  obtain ⟨rest, ⟨before, forSpan, varSpan, inSpan, rfl⟩, -⟩ := h
  obtain ⟨name, opening, inside, closing, args, -, rfl, hname, hopening, hclosing, hargs,
    hseparated, -⟩ := hcall
  exact ⟨kinds before, kinds rest, inside, args, by simp [hname, hopening, hclosing], hargs,
    hseparated⟩

theorem not_separated_emptyPlace {m n : Int64} {inside : List Token} {args : List (List Token)}
    (h : kinds inside = [.int m, .comma, .comma, .int n]) (hargs : [] ∉ args) :
    ¬(Separated args inside ∨ Separated (args ++ [[]]) inside) := by
  have hlength : inside.length = 4 := by simpa [kinds] using congrArg List.length h
  obtain ⟨a, b, c, d, rfl⟩ := List.length_eq_four.mp hlength
  simp only [kinds_cons, kinds_nil, List.cons.injEq, and_true] at h
  obtain ⟨ha, hb, hc, hd⟩ := h
  have hsplit : splitAtCommas 0 [a, b, c, d] = [[a], [], [d]] := by
    simp [splitAtCommas, ha, hb, hc, hd, TokenKind.depthAfter, TokenKind.isOpening,
      TokenKind.isClosing]
  rintro (h | h)
  · rw [h.splitAtCommas_eq] at hsplit
    simp [hsplit] at hargs
  · rw [h.splitAtCommas_eq] at hsplit
    simpa using congrArg List.getLast? hsplit

/-- An empty place between two commas is passed over, and a square bracket may end a call. -/
theorem parse_emptyPlace_squareEnd :
    parse "[x for x in range(1,,5)]" =
        .ok { ofElement .list "x" [⟨"x", .range ⟨1, 5, 1⟩, []⟩] with
          provenance := origin "list_comp" } ∧
      (∃ ts, scan "[x for x in range(1,,5)]".toList = .ok ts ∧
        ¬∃ items, RunsOver ts "x" items ∧
          IsWellFormedCall "[x for x in range(1,,5)]".toList items ⟨1, 5, 1⟩) ∧
      parse "[x for x in range(5]]" =
        .ok { ofElement .list "x" [⟨"x", .range ⟨0, 5, 1⟩, []⟩] with
          provenance := origin "list_comp" } ∧
      ∃ ts, scan "[x for x in range(5]]".toList = .ok ts ∧
        ¬∃ items, RunsOver ts "x" items ∧
          IsWellFormedCall "[x for x in range(5]]".toList items ⟨0, 5, 1⟩ := by
  have hcommas : (scan "[x for x in range(1,,5)]".toList).map kinds =
      .ok [.lbracket, .ident "x", .kwFor, .ident "x", .kwIn, .ident "range", .lparen, .int 1,
        .comma, .comma, .int 5, .rparen, .rbracket, .eof] := by cbv
  have hsquare : (scan "[x for x in range(5]]".toList).map kinds =
      .ok [.lbracket, .ident "x", .kwFor, .ident "x", .kwIn, .ident "range", .lparen, .int 5,
        .rbracket, .rbracket, .eof] := by cbv
  refine ⟨by cbv, ?_, by cbv, ?_⟩
  · obtain ⟨ts, hscan, hkinds⟩ := exists_scan hcommas
    refine ⟨ts, hscan, ?_⟩
    rintro ⟨items, hruns, hcall⟩
    obtain ⟨before, rest, inside, args, hall, hargs, hseparated⟩ := hruns.kinds_wellFormed hcall
    -- the words `for` and the closing bracket stand only once, so the call has one place only
    have hloop : ([.lbracket, .ident "x"] : List TokenKind) ++ TokenKind.kwFor ::
        ([.ident "x", .kwIn, .ident "range", .lparen, .int 1, .comma, .comma, .int 5, .rparen,
          .rbracket, .eof] : List TokenKind) = _ := hkinds.symm.trans hall
    obtain ⟨-, -, hhead⟩ := (List.append_cons_inj_of_notMem (by decide) (by decide)).mp hloop
    have hend : ([.int 1, .comma, .comma, .int 5] : List TokenKind) ++ TokenKind.rparen ::
        ([.rbracket, .eof] : List TokenKind) = kinds inside ++ .rparen :: rest := by
      simpa using hhead
    obtain ⟨hinside, -, -⟩ := (List.append_cons_inj_of_notMem (by decide) (by decide)).mp hend
    exact not_separated_emptyPlace hinside.symm hargs hseparated
  · obtain ⟨ts, hscan, hkinds⟩ := exists_scan hsquare
    refine ⟨ts, hscan, ?_⟩
    rintro ⟨items, hruns, hcall⟩
    obtain ⟨before, rest, inside, args, hall, -⟩ := hruns.kinds_wellFormed hcall
    have hround : .rparen ∈ kinds ts := by simp [hall]
    rw [hkinds] at hround
    revert hround
    decide

end Comprehension

end Comprehend
