import Comprehend.Proofs.RangeNumbers
import Comprehend.Proofs.TargetText
import Comprehend.Target.Go
import Comprehend.Target.Julia
import Comprehend.Target.Rust
import Comprehend.Target.Sql

/-! Ranges in the targets. Each target has its own way to say which numbers a loop walks: up to a
stop or through a last value, upward and then reversed, or row by row. Each text is read here as its
language reads it, over integers without bounds, and stands for the values of the range in order. -/
namespace Comprehend

open Target Target.Term

/-! Numbers one step apart -/

/-- The numbers from `x` on, `step` apart, as long as they pass a test. -/
inductive Steps (goes : Int → Prop) (step : Int) : Int → List Int → Prop
  | stop {x : Int} (h : ¬ goes x) : Steps goes step x []
  | next {x : Int} {xs : List Int} (h : goes x) (hs : Steps goes step (x + step) xs) :
      Steps goes step x (x :: xs)

/-- A test that the first `n` numbers pass, and no later ones, lets exactly these through. -/
theorem steps_iff {goes : Int → Prop} {start step : Int} {n : Nat}
    (h : ∀ k : Nat, goes (start + k * step) ↔ k < n) {xs : List Int} :
    Steps goes step start xs ↔ xs = (List.range n).map fun k : Nat => start + k * step := by
  induction n generalizing start xs with
  | zero =>
    have hstop : ¬ goes start := by simpa using h 0
    constructor
    · intro hs
      cases hs with
      | stop => rfl
      | next hgo => exact absurd hgo hstop
    · rintro rfl
      exact .stop hstop
  | succ n ih =>
    have hgo : goes start := by simpa using h 0
    have hnext (k : Nat) : start + step + k * step = start + (k + 1 : Nat) * step := by
      rw [Int.natCast_succ, Int.add_mul, Int.one_mul]
      omega
    have htail {xs : List Int} : Steps goes step (start + step) xs ↔
        xs = (List.range n).map fun k : Nat => start + step + k * step :=
      ih fun k => by rw [hnext, h, Nat.succ_lt_succ_iff]
    have hrange : (List.range (n + 1)).map (fun k : Nat => start + k * step) =
        start :: (List.range n).map fun k : Nat => start + step + k * step := by
      simp [List.range_succ_eq_map, Function.comp_def, hnext]
    rw [hrange]
    constructor
    · intro hs
      cases hs with
      | stop hstop => exact absurd hgo hstop
      | next _ hs => rw [htail.mp hs]
    · rintro rfl
      exact .next hgo (htail.mpr rfl)

def Within (upward : Bool) (bound x : Int) : Prop :=
  if upward then x < bound else bound < x

instance (upward : Bool) (bound x : Int) : Decidable (Within upward bound x) :=
  inferInstanceAs (Decidable (if upward then x < bound else bound < x))

def direction : List Symbol → Option (Bool × List Symbol)
  | .mark '<' :: ts => some (true, ts)
  | .mark '>' :: ts => some (false, ts)
  | _ => none

theorem direction_sign (upward : Bool) (ts : List Symbol) :
    direction (symbols (if upward then " < " else " > ") ++ ts) = some (upward, ts) := by
  cases upward <;> rfl

variable {r : Range} {xs : List Int}

theorem Range.isUpward_eq (r : Range) : r.isUpward = decide (0 < r.step.toInt) := by
  simp only [Range.isUpward, Int64.lt_iff_toInt_lt, Int64.toInt_zero]

/-- The step is the stride, with the sign of the direction. -/
theorem Range.signed_stride (r : Range) :
    (if r.isUpward then (r.stride : Int) else -r.stride) = r.step.toInt := by
  simp only [Range.isUpward_eq, decide_eq_true_eq, Range.stride]
  split <;> omega

theorem Range.within_iff_before (hstep : r.step.toInt ≠ 0) (x : Int) :
    Within r.isUpward r.stop.toInt x ↔ r.Before x := by
  simp only [Within, Range.isUpward_eq, decide_eq_true_eq, Range.Before]
  split <;> omega

/-- Walking while the stop is ahead gives the values of the range. -/
theorem Range.steps_before_iff (hstep : r.step.toInt ≠ 0) :
    Steps (Within r.isUpward r.stop.toInt) r.step.toInt r.start.toInt xs ↔ xs = r.numbers := by
  rw [Range.numbers_eq]
  refine steps_iff fun k => ?_
  rw [Range.within_iff_before hstep, Range.lt_len_iff]

/-! Loops with a header -/

namespace Target.Go

/-- The header of a loop: where its variable starts, how long the loop goes on and what is added to
the variable each time. -/
structure ForLoop where
  start : Term
  upward : Bool
  bound : Term
  step : Term
deriving DecidableEq

def advance : List Symbol → Option (Term × List Symbol)
  | .mark '+' :: .mark '+' :: ts => some (.number 1, ts)
  | .mark '-' :: .mark '-' :: ts => some (.neg (.number 1), ts)
  | .mark '+' :: .mark '=' :: ts => sum ts
  | .mark '-' :: .mark '=' :: ts => do
    let (t, ts) ← sum ts
    return (.neg t, ts)
  | _ => none

def ForLoop.read (var : String) (s : String) : Option ForLoop := do
  let (start, ts) ← sum (← expect " := " (← expect var (← expect "for " (symbols s))))
  let (upward, ts) ← direction (← expect var (← expect "; " ts))
  let (bound, ts) ← sum ts
  let (step, ts) ← advance (← expect var (← expect "; " ts))
  if ts = symbols " \x7b" then some ⟨start, upward, bound, step⟩ else none

/-- The loop with this header gives its variable the numbers `xs` in turn; `env` holds the values of
other names. -/
def Walks (env : List (String × Int)) (var header : String) (xs : List Int) : Prop :=
  ∃ l a b d, ForLoop.read var header = some l ∧ l.start.value env = some a ∧
    l.bound.value env = some b ∧ l.step.value env = some d ∧ Steps (Within l.upward b) d a xs

def advanceSymbols (w : OpenWalk) : List Symbol :=
  if w.stride = 1 then symbols (if w.upward then "++" else "--")
  else symbols (if w.upward then " += " else " -= ") ++ numeral w.stride

theorem symbols_walkHeader (var : String) (w : OpenWalk) :
    symbols (walkHeader var w) = symbols "for " ++ (symbols var ++ (symbols " := " ++
      (numeral w.start ++ (symbols "; " ++ (symbols var ++
        (symbols (if w.upward then " < " else " > ") ++ (numeral w.stop ++ (symbols "; " ++
          (symbols var ++ (advanceSymbols w ++ symbols " \x7b")))))))))) := by
  obtain ⟨start, stop, upward, stride⟩ := w
  -- not by its equation lemma, which takes seconds to make for a text of so many parts
  delta walkHeader
  by_cases hone : stride = 1 <;> cases upward <;>
    simp (disch := decide) only [advanceSymbols, hone, ↓reduceIte, Bool.false_eq_true,
      symbols_around, symbols_append_right, symbols_append_left, symbols_toString,
      symbols_toString_nat, List.append_assoc]

theorem advance_walk (w : OpenWalk) :
    advance (advanceSymbols w ++ symbols " \x7b") =
      some (if w.upward then ofInt w.stride else .neg (ofInt w.stride), symbols " \x7b") := by
  have hup (ts : List Symbol) : advance (symbols "++" ++ ts) = some (ofInt 1, ts) := rfl
  have hdown (ts : List Symbol) : advance (symbols "--" ++ ts) = some (.neg (ofInt 1), ts) := rfl
  have hplus (ts : List Symbol) : advance (symbols " += " ++ ts) = sum ts := rfl
  have hminus (ts : List Symbol) : advance (symbols " -= " ++ ts) =
    (sum ts).bind fun x => some (.neg x.1, x.2) := rfl
  have hsum : sum (numeral w.stride ++ symbols " \x7b") =
      some (ofInt w.stride, symbols " \x7b") := sum_last (by decide) _
  obtain ⟨start, stop, upward, stride⟩ := w
  by_cases hone : stride = 1 <;> cases upward <;>
    simp only [advanceSymbols, hone, ↓reduceIte, Bool.false_eq_true, List.append_assoc, hup, hdown,
      hplus, hminus, hsum, Option.bind_some, Int.natCast_one]

theorem read_walkHeader (var : String) (w : OpenWalk) :
    ForLoop.read var (walkHeader var w) =
      some ⟨ofInt w.start, w.upward, ofInt w.stop,
        if w.upward then ofInt w.stride else .neg (ofInt w.stride)⟩ := by
  have hsum (n : Int) (ts : List Symbol) :
      sum (numeral n ++ (symbols "; " ++ ts)) = some (ofInt n, symbols "; " ++ ts) :=
    sum_before (by decide) n ts
  simp only [ForLoop.read, symbols_walkHeader, expect_append, hsum, direction_sign, advance_walk,
    Option.bind_eq_bind, Option.bind_some, ↓reduceIte]

/-- The loop over a range gives its variable the values of the range. -/
theorem walks_iff (hstep : r.step.toInt ≠ 0) (p : Printer) (c : Comprehension) (var : String)
    (filters : List String) :
    Walks [] var (header p c ⟨var, .range r, filters⟩) xs ↔ xs = r.numbers := by
  have hread := read_walkHeader var r.openWalk
  have hadvance : (if r.isUpward then ofInt r.stride else .neg (ofInt r.stride)).value [] =
      some r.step.toInt := by
    rw [← Range.signed_stride r]
    split <;> simp [value]
  rw [← Range.steps_before_iff hstep]
  constructor
  · rintro ⟨l, a, b, d, hl, ha, hb, hd, hs⟩
    obtain rfl := Option.some.inj (hread.symm.trans hl)
    obtain rfl := Option.some.inj ((value_ofInt [] _).symm.trans ha)
    obtain rfl := Option.some.inj ((value_ofInt [] _).symm.trans hb)
    obtain rfl := Option.some.inj (hadvance.symm.trans hd)
    exact hs
  · intro hs
    exact ⟨_, _, _, _, hread, value_ofInt [] _, value_ofInt [] _, hadvance, hs⟩

end Target.Go

/-! Spans with a last value -/

/-- The walk goes through these numbers; its last value is one of them if the step meets it. -/
def ClosedWalk.Yields (w : ClosedWalk) (xs : List Int) : Prop :=
  Steps (fun x => if 0 < w.step then x ≤ w.last else w.last ≤ x) w.step w.start xs

theorem Range.closedWalk_yields (hstep : r.step.toInt ≠ 0) :
    r.closedWalk.Yields xs ↔ xs = r.numbers := by
  rw [Range.numbers_eq]
  refine steps_iff fun k => ?_
  rw [Range.lt_len_iff]
  simp only [Range.closedWalk, Range.Before, Range.isUpward_eq, decide_eq_true_eq]
  split <;> omega

theorem Range.exactWalk_yields (hstep : r.step.toInt ≠ 0) :
    r.exactWalk.Yields xs ↔ xs = r.numbers := by
  rw [Range.numbers_eq]
  cases hlast : r.last with
  | none =>
    have hwalk : r.exactWalk = ⟨r.start.toInt, r.start.toInt - r.step.toInt, r.step.toInt⟩ := by
      simp [Range.exactWalk, hlast]
    rw [hwalk]
    refine steps_iff fun k => ?_
    have hsign := Range.sign_steps k r.step.toInt
    rw [Range.last_eq_none.mp hlast]
    simp only
    split <;> omega
  | some x =>
    obtain ⟨n, hlen, hx⟩ := Range.toInt_last hlast
    have hwalk : r.exactWalk = ⟨r.start.toInt, x.toInt, r.step.toInt⟩ := by
      simp [Range.exactWalk, hlast]
    rw [hwalk]
    refine steps_iff fun k => ?_
    simp only [hx, hlen]
    split
    next hup =>
      rw [Int.add_le_add_iff_left, Int.mul_le_mul_right hup]
      omega
    next hdown =>
      rw [Int.add_le_add_iff_left, Int.mul_le_mul_right_of_neg (by omega)]
      omega

namespace Target.Julia

/-- Reads `a:b` and `a:s:b`. -/
def readWalk (s : String) : Option ClosedWalk := do
  let (a, ts) ← sum (symbols s)
  let (b, ts) ← sum (← expect ":" ts)
  if ts = [] then return ⟨← a.value [], ← b.value [], 1⟩
  let (c, ts) ← sum (← expect ":" ts)
  if ts = [] then return ⟨← a.value [], ← c.value [], ← b.value []⟩ else none

def Walks (s : String) (xs : List Int) : Prop :=
  ∃ w, readWalk s = some w ∧ w.Yields xs

theorem readWalk_walkText (w : ClosedWalk) : readWalk (walkText w) = some w := by
  obtain ⟨start, last, step⟩ := w
  by_cases hone : step = 1 <;>
    simp (disch := decide) only [readWalk, walkText, hone, ↓reduceIte, symbols_around,
      symbols_toString, List.append_assoc, sum_before, sum_only, expect_append,
      Option.bind_eq_bind, Option.bind_some, value_ofInt] <;> rfl

theorem walks_iff (hstep : r.step.toInt ≠ 0) (p : Printer) :
    Walks (source p (.range r)) xs ↔ xs = r.numbers := by
  rw [← Range.exactWalk_yields hstep]
  constructor
  · rintro ⟨w, hw, hyields⟩
    obtain rfl := Option.some.inj ((readWalk_walkText r.exactWalk).symm.trans hw)
    exact hyields
  · intro hyields
    exact ⟨r.exactWalk, readWalk_walkText r.exactWalk, hyields⟩

end Target.Julia

/-! Tables -/

namespace Target.Sql

/-- Reads a series with its variable; the step may be left out. -/
def readSeries (var : String) (s : String) : Option ClosedWalk := do
  let (a, ts) ← sum (← expect "generate_series(" (symbols s))
  let (b, ts) ← sum (← expect ", " ts)
  match expect ", " ts with
  | none =>
    if ts = symbols ") AS " ++ symbols var then return ⟨← a.value [], ← b.value [], 1⟩ else none
  | some ts =>
    let (c, ts) ← sum ts
    if ts = symbols ") AS " ++ symbols var then
      return ⟨← a.value [], ← b.value [], ← c.value []⟩
    else none

def SeriesWalks (var s : String) (xs : List Int) : Prop :=
  ∃ w, readSeries var s = some w ∧ w.Yields xs

theorem readSeries_series (var : String) (w : ClosedWalk) :
    readSeries var (series w ++ " AS " ++ var) = some w := by
  have hclose :
      symbols ")" ++ (symbols " AS " ++ symbols var) = symbols ") AS " ++ symbols var := rfl
  have hskip : expect ", " (symbols ") AS " ++ symbols var) = none := rfl
  have hsymbols : symbols (series w ++ " AS " ++ var) =
      symbols "generate_series(" ++ (numeral w.start ++ (symbols ", " ++ (numeral w.last ++
        ((if w.step = 1 then [] else symbols ", " ++ numeral w.step) ++
          (symbols ") AS " ++ symbols var))))) := by
    delta series
    by_cases hone : w.step = 1 <;>
      simp (disch := decide) only [hone, ↓reduceIte, symbols_around, symbols_append_right,
        symbols_append_left, symbols_toString, List.append_assoc, List.nil_append, hclose]
  have hcomma (n : Int) (ts : List Symbol) :
      sum (numeral n ++ (symbols ", " ++ ts)) = some (ofInt n, symbols ", " ++ ts) :=
    sum_before (by decide) n ts
  have hlast (n : Int) : sum (numeral n ++ (symbols ") AS " ++ symbols var)) =
      some (ofInt n, symbols ") AS " ++ symbols var) := sum_before (by decide) n _
  unfold readSeries
  rw [hsymbols]
  obtain ⟨start, last, step⟩ := w
  by_cases hone : step = 1 <;>
    simp only [hone, ↓reduceIte, List.nil_append, List.append_assoc, hcomma, hlast, expect_append,
      hskip, Option.bind_eq_bind, Option.bind_some, Option.pure_def, value_ofInt]

theorem seriesWalks_iff (hstep : r.step.toInt ≠ 0) (var : String) (filters : List String) :
    SeriesWalks var (source .postgres ⟨var, .range r, filters⟩) xs ↔ xs = r.numbers := by
  rw [← Range.closedWalk_yields hstep]
  constructor
  · rintro ⟨w, hw, hyields⟩
    obtain rfl := Option.some.inj ((readSeries_series var r.closedWalk).symm.trans hw)
    exact hyields
  · intro hyields
    exact ⟨r.closedWalk, readSeries_series var r.closedWalk, hyields⟩

/-- The rows of a recursive table. A row is taken from the queue into the table, and the rows that
follow from it join the queue at its end. -/
inductive Rows (next : Int → List Int) : (queue table : List Int) → Prop
  | done : Rows next [] []
  | row {x : Int} {queue table : List Int} (h : Rows next (queue ++ next x) table) :
      Rows next (x :: queue) (x :: table)

/-- How one row follows from another: what is added to the row, and a bound for the row with a
number added to it. -/
structure Rule where
  step : Int
  ahead : Int
  upward : Bool
  bound : Int

def Rule.next (rule : Rule) (x : Int) : List Int :=
  if Within rule.upward rule.bound (x + rule.ahead) then [x + rule.step] else []

def offset (var : String) (ts : List Symbol) : Option (Int × List Symbol) := do
  match ← expect var ts with
  | .mark '+' :: .number n :: ts => some (n, ts)
  | .mark '-' :: .number n :: ts => some (-n, ts)
  | _ => none

def Rule.read (var : String) (s : String) : Option Rule := do
  let (step, ts) ← offset var (← expect "SELECT " (symbols s))
  let ts ← expect " WHERE " (← expect ("range_" ++ var) (← expect " FROM " ts))
  let (ahead, ts) ← offset var ts
  let (upward, ts) ← direction ts
  let (bound, ts) ← sum ts
  if ts = [] then return ⟨step, ahead, upward, ← bound.value []⟩ else none

/-- The first row, or none under a condition that never holds. -/
def readBase (s : String) : Option (List Int) := do
  let (t, ts) ← sum (← expect "SELECT " (symbols s))
  if ts = [] then return [← t.value []]
  else if ts = symbols " WHERE 0" then return []
  else none

/-- The definition of a table holds the rows `xs` in turn. -/
def TableWalks (var : String) : (definition : List String) → (xs : List Int) → Prop
  | [base, "UNION ALL", rule], xs =>
    ∃ rows next, readBase base = some rows ∧ Rule.read var rule = some next ∧
      Rows next.next rows xs
  | _, _ => False

theorem readBase_select (n : Int) (isEmpty : Bool) :
    readBase ("SELECT " ++ toString n ++ (if isEmpty then " WHERE 0" else "")) =
      some (if isEmpty then [] else [n]) := by
  cases isEmpty
  · simp (disch := decide) only [readBase, Bool.false_eq_true, ↓reduceIte, String.append_empty,
      symbols_append_left, symbols_toString, expect_append, sum_only, Option.bind_eq_bind,
      Option.bind_some, value_ofInt, Option.pure_def]
  · simp (disch := decide) only [readBase, ↓reduceIte, symbols_append_right, symbols_append_left,
      symbols_toString, List.append_assoc, expect_append, sum_last, Option.bind_eq_bind,
      Option.bind_some, value_ofInt, Option.pure_def]
    rfl

theorem offset_next (var : String) (upward : Bool) (n : Nat) (ts : List Symbol) :
    offset var (symbols (var ++ (if upward then " + " else " - ") ++ toString n) ++ ts) =
      some (if upward then (n : Int) else -n, ts) := by
  have hnumber : symbols (toString n) = [.number n] := by
    rw [symbols_toString_nat, numeral_natCast]
  cases upward <;>
    simp (disch := decide) only [↓reduceIte, Bool.false_eq_true, symbols_around, hnumber, offset,
      List.append_assoc, expect_append] <;>
    rfl

theorem read_next {var next : String} {d : Int}
    (hnext : ∀ ts, offset var (symbols next ++ ts) = some (d, ts)) (upward : Bool) (stop : Int) :
    Rule.read var ("SELECT " ++ next ++ " FROM range_" ++ var ++ " WHERE " ++ next ++
      (if upward then " < " else " > ") ++ toString stop) = some ⟨d, d, upward, stop⟩ := by
  have hfrom : "SELECT " ++ next ++ " FROM range_" ++ var =
      "SELECT " ++ next ++ " FROM " ++ ("range_" ++ var) := by
    apply String.toList_inj.mp
    simp
  have hsymbols : symbols ("SELECT " ++ next ++ " FROM range_" ++ var ++ " WHERE " ++ next ++
      (if upward then " < " else " > ") ++ toString stop) =
      symbols "SELECT " ++ (symbols next ++ (symbols " FROM " ++ (symbols ("range_" ++ var) ++
        (symbols " WHERE " ++ (symbols next ++
          (symbols (if upward then " < " else " > ") ++ numeral stop)))))) := by
    rw [hfrom]
    cases upward <;>
      simp (disch := decide) only [↓reduceIte, Bool.false_eq_true, symbols_around,
        symbols_append_left, symbols_toString, List.append_assoc]
  simp only [Rule.read, hsymbols, expect_append, hnext, direction_sign, sum_only,
    Option.bind_eq_bind, Option.bind_some, Option.pure_def, value_ofInt, ↓reduceIte]

/-- The rows that come after a row are the numbers that come after it. -/
theorem rows_next_iff {step bound x : Int} {upward : Bool} :
    Rows (Rule.next ⟨step, step, upward, bound⟩) (Rule.next ⟨step, step, upward, bound⟩ x) xs ↔
      Steps (Within upward bound) step (x + step) xs := by
  constructor
  · intro h
    -- a queue never holds more than the one row that follows from the row taken last
    generalize hqueue : Rule.next ⟨step, step, upward, bound⟩ x = queue at h
    induction h generalizing x with
    | done =>
      refine .stop fun hgo => ?_
      simp [Rule.next, hgo] at hqueue
    | @row y queue table h ih =>
      by_cases hgo : Within upward bound (x + step)
      · have hcons : [x + step] = y :: queue := by simpa [Rule.next, hgo] using hqueue
        obtain ⟨rfl, rfl⟩ := List.cons.inj hcons
        exact .next hgo (ih rfl)
      · simp [Rule.next, hgo] at hqueue
  · intro h
    generalize hx : x + step = y at h
    induction h generalizing x with
    | stop hstop =>
      subst hx
      simpa [Rule.next, hstop] using Rows.done
    | next hgo hs ih =>
      subst hx
      simpa [Rule.next, hgo] using Rows.row (ih rfl)

/-- The table of a range holds the values of the range. -/
theorem tableWalks_iff (hstep : r.step.toInt ≠ 0) (var : String) :
    TableWalks var (recursion var r) xs ↔ xs = r.numbers := by
  have hbase := readBase_select r.start.toInt r.isEmpty
  have hnext := offset_next var r.isUpward r.stride
  rw [Range.signed_stride] at hnext
  have hrule := read_next hnext r.isUpward r.stop.toInt
  have hrows : TableWalks var (recursion var r) xs ↔
      Rows (Rule.next ⟨r.step.toInt, r.step.toInt, r.isUpward, r.stop.toInt⟩)
        (if r.isEmpty then [] else [r.start.toInt]) xs := by
    constructor
    · rintro ⟨rows, rule, hrows, hread, h⟩
      obtain rfl := Option.some.inj (hbase.symm.trans hrows)
      obtain rfl := Option.some.inj (hrule.symm.trans hread)
      exact h
    · intro h
      exact ⟨_, _, hbase, hrule, h⟩
  have hfirst : r.isEmpty = false ↔ Within r.isUpward r.stop.toInt r.start.toInt := by
    have hlen : 0 < r.len ↔ r.Before (r.start.toInt + (0 : Nat) * r.step.toInt) := Range.lt_len_iff
    rw [Range.within_iff_before hstep, Range.isEmpty, beq_eq_false_iff_ne, ← Nat.pos_iff_ne_zero,
      hlen]
    simp
  rw [hrows, ← Range.steps_before_iff hstep]
  cases hempty : r.isEmpty with
  | true =>
    have hstop : ¬ Within r.isUpward r.stop.toInt r.start.toInt := by simp [← hfirst, hempty]
    constructor
    · rintro ⟨⟩
      exact .stop hstop
    · intro h
      cases h with
      | stop => exact .done
      | next hgo => exact absurd hgo hstop
  | false =>
    have hgo : Within r.isUpward r.stop.toInt r.start.toInt := hfirst.mp hempty
    constructor
    · intro h
      cases h with
      | row h => exact .next hgo (rows_next_iff.mp h)
    · intro h
      cases h with
      | stop hstop => exact absurd hgo hstop
      | next _ h => exact .row (rows_next_iff.mpr h)

end Target.Sql

/-! Iterators -/

namespace Target.Rust

/-- An iterator over integers: the span up to an end or through it, backward, or some of its
items. -/
inductive Iterator where
  | upTo (low high : Int)
  | through (low high : Int)
  | rev (it : Iterator)
  | stepBy (n : Nat) (it : Iterator)

/-- The first item behind `skip` others, and from there on every `n`-th one. -/
def everyNth (n : Nat) : (skip : Nat) → List Int → List Int
  | _, [] => []
  | 0, x :: xs => x :: everyNth n (n - 1) xs
  | skip + 1, _ :: xs => everyNth n skip xs

def integers (low : Int) (n : Nat) : List Int :=
  (List.range n).map fun k : Nat => low + k

def Iterator.span (closed : Bool) (low high : Int) : Iterator :=
  if closed then through low high else upTo low high

def Iterator.items : Iterator → List Int
  | upTo low high => integers low (high - low).toNat
  | through low high => integers low (high + 1 - low).toNat
  | rev it => it.items.reverse
  | stepBy n it => everyNth n 0 it.items

/-- The methods behind an iterator. One over threads has the same items in the same order. -/
def readMethods (it : Iterator) : List Symbol → Option Iterator
  | [] => some it
  | .mark '.' :: .word "into_par_iter" :: .mark '(' :: .mark ')' :: ts => readMethods it ts
  | .mark '.' :: .word "rev" :: .mark '(' :: .mark ')' :: ts => readMethods (.rev it) ts
  | .mark '.' :: .word "step_by" :: .mark '(' :: .number n :: .mark ')' :: ts =>
    readMethods (.stepBy n it) ts
  | _ => none

/-- The type behind the lower end of a span, and whether the upper end belongs to it. -/
def readDots : List Symbol → Option (Bool × List Symbol)
  | .word _ :: .mark '.' :: .mark '.' :: .mark '=' :: ts => some (true, ts)
  | .word _ :: .mark '.' :: .mark '.' :: ts => some (false, ts)
  | _ => none

def readIterator (s : String) : Option Iterator := do
  let (low, ts) ← sum (← expect "(" (symbols s))
  let (closed, ts) ← readDots ts
  let (high, ts) ← sum ts
  readMethods (.span closed (← low.value []) (← high.value [])) (← expect ")" ts)

def itemsOf (s : String) : Option (List Int) :=
  (readIterator s).map Iterator.items

theorem getElem?_everyNth {n : Nat} (hn : 0 < n) (skip : Nat) (items : List Int) (k : Nat) :
    (everyNth n skip items)[k]? = items[skip + k * n]? := by
  induction items generalizing skip k with
  | nil => simp [everyNth]
  | cons x items ih =>
    cases skip with
    | zero =>
      cases k with
      | zero => simp [everyNth]
      | succ k =>
        have hindex : 0 + (k + 1) * n = n - 1 + k * n + 1 := by
          rw [Nat.add_mul]
          omega
        rw [everyNth, List.getElem?_cons_succ, ih, hindex, List.getElem?_cons_succ]
    | succ skip =>
      rw [everyNth, ih, Nat.add_right_comm, List.getElem?_cons_succ]

theorem getElem?_integers (low : Int) (n k : Nat) :
    (integers low n)[k]? = if k < n then some (low + k) else none := by
  unfold integers
  split
  next h => simp [h]
  next h => simp [h]

theorem getElem?_reverse_integers (low : Int) (n k : Nat) :
    (integers low n).reverse[k]? = if k < n then some (low + n - 1 - k) else none := by
  have hlength : (integers low n).length = n := by simp [integers]
  split
  next h =>
    rw [List.getElem?_reverse (by omega), hlength, getElem?_integers, if_pos (by omega)]
    congr 1
    omega
  next h => exact List.getElem?_eq_none (by simp; omega)

/-- A stride of one is not written, and makes no difference. -/
def stepped (n : Nat) (it : Iterator) : Iterator :=
  if n = 1 then it else .stepBy n it

theorem getElem?_stepped {n : Nat} (hn : 0 < n) (it : Iterator) (k : Nat) :
    (stepped n it).items[k]? = it.items[k * n]? := by
  unfold stepped
  split
  next h => rw [h, Nat.mul_one]
  next => rw [Iterator.items, getElem?_everyNth hn, Nat.zero_add]

theorem stride_pos (hstep : r.step.toInt ≠ 0) : 0 < r.stride :=
  Int.natAbs_pos.mpr hstep

theorem items_upward (hup : 0 < r.step.toInt) :
    (stepped r.stride (.upTo r.start.toInt r.stop.toInt)).items = r.numbers := by
  have hstride : (r.stride : Int) = r.step.toInt := Int.natAbs_of_nonneg (Int.le_of_lt hup)
  apply List.ext_getElem?
  intro k
  have hindex : ((k * r.stride : Nat) : Int) = k * r.step.toInt := by
    rw [Int.natCast_mul, hstride]
  have hlen := Range.lt_len_iff (r := r) (k := k)
  rw [getElem?_stepped (stride_pos (by omega)), Iterator.items, getElem?_integers,
    Range.getElem?_numbers, hindex]
  unfold Range.Before at hlen
  congr 1
  apply propext
  omega

theorem items_downward (hdown : r.step.toInt < 0) :
    (stepped r.stride (.rev (.through (r.stop.toInt + 1) r.start.toInt))).items = r.numbers := by
  have hstride : (r.stride : Int) = -r.step.toInt := by
    unfold Range.stride
    omega
  apply List.ext_getElem?
  intro k
  have hindex : ((k * r.stride : Nat) : Int) = -(k * r.step.toInt) := by
    rw [Int.natCast_mul, hstride, Int.mul_neg]
  have hlen := Range.lt_len_iff (r := r) (k := k)
  rw [getElem?_stepped (stride_pos (by omega)), Iterator.items, Iterator.items,
    getElem?_reverse_integers, Range.getElem?_numbers]
  unfold Range.Before at hlen
  by_cases hk : k < r.len
  · rw [if_pos hk, if_pos (by omega)]
    congr 1
    omega
  · rw [if_neg hk, if_neg (by omega)]

/-- What a range of this kind can be suffixed with: a word that is no number. -/
def isSuffix (s : String) : Bool :=
  s != "" && s.toList.all Symbol.isRunChar && !s.toList.head?.any Char.isDigit

theorem isSuffix_brief {w : IntWidth} (hw : w ∈ intWidths) : isSuffix w.brief = true := by
  have hall : intWidths.all (fun w => isSuffix w.brief) = true := by decide
  exact List.all_eq_true.mp hall w hw

theorem symbols_low {intType : String} (h : isSuffix intType = true) (n : Int) :
    symbols ("(" ++ toString n ++ intType) = symbols "(" ++ (numeral n ++ [.word intType]) := by
  simp only [isSuffix, Bool.and_eq_true, bne_iff_ne, Bool.not_eq_true'] at h
  rw [String.append_assoc, symbols_append_left rfl, symbols_suffixed n intType h.1.2 h.2,
    if_neg h.1.1]

theorem readMethods_stepBy (it : Iterator) (n : Nat) :
    readMethods it (symbols (stepBy n)) = some (stepped n it) := by
  have hopen (n : Nat) : readMethods it (symbols ".step_by(" ++ (numeral n ++ symbols ")")) =
      some (.stepBy n it) := by
    rw [numeral_natCast]
    rfl
  unfold stepBy stepped
  split
  · rfl
  · simp (disch := decide) only [symbols_append_right, symbols_append_left, symbols_toString_nat,
      List.append_assoc, hopen]

/-- What is written behind a span. -/
theorem readMethods_threads (it : Iterator) (parallel : Bool) (n : Nat) :
    readMethods it (symbols ((if parallel then ".into_par_iter()" else "") ++ stepBy n)) =
        some (stepped n it) ∧
      readMethods it (symbols ((if parallel then ".into_par_iter()" else "") ++
        (".rev()" ++ stepBy n))) = some (stepped n (.rev it)) := by
  have hparallel (ts : List Symbol) :
      readMethods it (symbols ".into_par_iter()" ++ ts) = readMethods it ts := rfl
  have hrev (ts : List Symbol) :
      readMethods it (symbols ".rev()" ++ ts) = readMethods (.rev it) ts := rfl
  cases parallel <;>
    simp (disch := decide) only [↓reduceIte, Bool.false_eq_true, String.empty_append,
      symbols_append_left, hparallel, hrev, readMethods_stepBy, and_self]

theorem readIterator_span {intType : String} (h : isSuffix intType = true) (closed : Bool)
    (low high : Int) (methods : String) :
    readIterator ("(" ++ toString low ++ intType ++ (if closed then "..=" else "..") ++
        toString high ++ ")" ++ methods) =
      readMethods (.span closed low high) (symbols methods) := by
  have hsum (ts : List Symbol) : sum (numeral low ++ ([.word intType] ++ ts)) =
      some (ofInt low, [.word intType] ++ ts) := sum_numeral low rfl
  have hopen (ts : List Symbol) :
      readDots ([.word intType] ++ (symbols ".." ++ (numeral high ++ ts))) =
        some (false, numeral high ++ ts) := by
    by_cases hneg : high < 0 <;> simp only [numeral, hneg, ↓reduceIte] <;> rfl
  have hclosed (ts : List Symbol) :
      readDots ([.word intType] ++ (symbols "..=" ++ ts)) = some (true, ts) := rfl
  cases closed <;>
    simp (disch := decide) only [readIterator, symbols_around, symbols_low h, symbols_toString,
      List.append_assoc, expect_append, hsum, hopen, hclosed, sum_before, Option.bind_eq_bind,
      Option.bind_some, value_ofInt, ↓reduceIte, Bool.false_eq_true]

/-- The iterator over a range has the values of the range as its items. -/
theorem itemsOf_source (hstep : r.step.toInt ≠ 0) (hstop : Number.Fits (r.stop.toInt + 1))
    {p : Printer} (hp : isSuffix p.intType = true) (parallel inner : Bool) :
    itemsOf (source p parallel inner (.range r)) = some r.numbers := by
  by_cases hup : 0 < r.step.toInt
  · have htext : source p parallel inner (.range r) =
        openText r.openWalk p.intType (if parallel then ".into_par_iter()" else "") := by
      simp [source, rangeText, Range.isUpward_eq, hup]
    have hspan := readIterator_span hp false r.start.toInt r.stop.toInt
    simp only [Bool.false_eq_true, ↓reduceIte, Iterator.span] at hspan
    rw [htext, itemsOf, openText, String.append_assoc, Range.openWalk, hspan,
      (readMethods_threads _ _ _).1, Option.map_some, items_upward hup]
  · have htext : source p parallel inner (.range r) =
        reverseText r.reverseWalk p.intType (if parallel then ".into_par_iter()" else "") := by
      simp [source, rangeText, Range.isUpward_eq, hup]
    have hlow : min (r.stop.toInt + 1) 0x7fffffffffffffff = r.stop.toInt + 1 := by
      unfold Number.Fits at hstop
      omega
    have hspan := readIterator_span hp true (r.stop.toInt + 1) r.start.toInt
    simp only [↓reduceIte, Iterator.span] at hspan
    rw [htext, itemsOf, reverseText, String.append_assoc, String.append_assoc, Range.reverseWalk,
      hlow, hspan, (readMethods_threads _ _ _).2, Option.map_some, items_downward (by omega)]

end Target.Rust

namespace Target

/-- Every target walks the values of a range and nothing else, in their order. -/
structure WalksValues (r : Range) : Prop where
  rust (p : Printer) (w : IntWidth) : w ∈ intWidths → p.intType = w.brief →
    ∀ parallel inner, Rust.itemsOf (Rust.source p parallel inner (.range r)) = some r.numbers
  julia (p : Printer) (xs : List Int) :
    Julia.Walks (Julia.source p (.range r)) xs ↔ xs = r.numbers
  postgres (var : String) (filters : List String) (xs : List Int) :
    Sql.SeriesWalks var (Sql.source .postgres ⟨var, .range r, filters⟩) xs ↔ xs = r.numbers
  sqlite (var : String) (xs : List Int) :
    Sql.TableWalks var (Sql.recursion var r) xs ↔ xs = r.numbers
  go (p : Printer) (c : Comprehension) (var : String) (filters : List String) (xs : List Int) :
    Go.Walks [] var (Go.header p c ⟨var, .range r, filters⟩) xs ↔ xs = r.numbers

/-- The lower end of a span that is walked downward is the number above the stop, which has to
exist. -/
theorem walksValues (r : Range) (hstep : r.step ≠ 0) (hstop : Number.Fits (r.stop.toInt + 1)) :
    WalksValues r := by
  have hmoves : r.step.toInt ≠ 0 := by
    rw [← Int64.toInt_zero]
    exact fun h => hstep (Int64.toInt_inj.mp h)
  exact {
    rust := fun p w hw hp parallel inner =>
      Rust.itemsOf_source hmoves hstop (hp ▸ Rust.isSuffix_brief hw) parallel inner
    julia := fun p xs => Julia.walks_iff hmoves p
    postgres := fun var filters xs => Sql.seriesWalks_iff hmoves var filters
    sqlite := fun var xs => Sql.tableWalks_iff hmoves var
    go := fun p c var filters xs => Go.walks_iff hmoves p c var filters }

/-- Down from seven in steps of three; the stop is not met. -/
theorem walksValues_downward :
    ((-3 : Int64) ≠ 0 ∧ Number.Fits ((-4 : Int64).toInt + 1)) ∧
      Rust.itemsOf "(-3i64..=7).rev().step_by(3)" = some [7, 4, 1, -2] ∧
      Julia.Walks "7:-3:-2" [7, 4, 1, -2] ∧
      Sql.SeriesWalks "x" "generate_series(7, -3, -3) AS x" [7, 4, 1, -2] ∧
      Sql.TableWalks "x" ["SELECT 7", "UNION ALL", "SELECT x - 3 FROM range_x WHERE x - 3 > -4"]
        [7, 4, 1, -2] ∧
      Go.Walks [] "x" "for x := 7; x > -4; x -= 3 \x7b" [7, 4, 1, -2] := by
  have hstep : (-3 : Int64) ≠ 0 := by decide
  have hstop : Number.Fits ((-4 : Int64).toInt + 1) := by decide
  have h := walksValues ⟨7, -4, -3⟩ hstep hstop
  have hnumbers : [7, 4, 1, -2] = Range.numbers ⟨7, -4, -3⟩ := by decide
  refine ⟨⟨hstep, hstop⟩, ?_, ?_, ?_, ?_, ?_⟩
  · rw [hnumbers]
    exact h.rust { dialect := .rust, intType := "i64" } ⟨"i64", "long"⟩ (by decide) rfl false false
  · exact (h.julia { dialect := .julia } _).mpr hnumbers
  · exact (h.postgres "x" [] _).mpr hnumbers
  · exact (h.sqlite "x" _).mpr hnumbers
  · exact (h.go { dialect := .go } (.ofElement .list "x" []) "x" [] _).mpr hnumbers

end Target

end Comprehend
