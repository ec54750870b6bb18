import Comprehend.Proofs.RangePositions
import Comprehend.Proofs.RangeWalks
import Comprehend.Proofs.TemplateText
import Comprehend.Target.CSharp

/-! Ranges over workers. The text of a target says how many positions there are, how many of them a
worker takes and what stands at a position. Read as the language reads it, it leaves no position
out, takes none twice and keeps their order; so does the text for all positions at once. -/
namespace Comprehend

open Target Target.Term

/-- A layout stands among others or inside one of them. -/
inductive Layout.Inside (l : Layout) : List Layout → Prop
  | here {ls : List Layout} : Inside l (l :: ls)
  | within {header footer : String} {body ls : List Layout} (h : Inside l body) :
      Inside l (.block header footer body :: ls)
  | later {k : Layout} {ls : List Layout} (h : Inside l ls) : Inside l (k :: ls)

theorem Layout.Inside.append {l : Layout} {ls : List Layout} (h : Inside l ls) (ms : List Layout) :
    Inside l (ls ++ ms) := by
  induction h with
  | here => exact .here
  | within h _ => exact .within h
  | later _ ih => exact .later ih

variable {r : Range}

/-- What stands at the positions of the workers, part by part. -/
theorem Range.flatMap_chunks {α : Type} {item : Nat → α} {workers : Nat} (hw : 0 < workers) :
    (List.range workers).flatMap (fun worker =>
        (chunkOf r.len (chunkSize r.len workers) worker).map item) =
      (List.range r.len).map item := by
  rw [← flatMap_chunkOf_chunkSize r.len hw, List.map_flatMap]

theorem map_chunkOf (n chunk worker : Nat) :
    (chunkOf n chunk worker).map Nat.cast =
      (List.range (min (((worker : Int) + 1) * chunk) n - worker * chunk).toNat).map
        fun k : Nat => (worker : Int) * chunk + k := by
  have hlength : min n ((worker + 1) * chunk) - worker * chunk =
      (min (((worker : Int) + 1) * chunk) n - worker * chunk).toNat := by
    have hnext : (((worker + 1) * chunk : Nat) : Int) = ((worker : Int) + 1) * chunk := rfl
    rw [← hnext, ← Int.natCast_mul]
    omega
  rw [chunkOf, hlength, List.range'_eq_map_range, List.map_map]
  simp [Function.comp_def]

namespace Target.Go

def readAssign (var line : String) : Option Term := do
  let (t, ts) ← sum (← expect " := " (← expect var (symbols line)))
  if ts = [] then some t else none

def assigned (env : List (String × Int)) (var line : String) : Option Int :=
  (readAssign var line).bind (value env)

def Assigns (ls : List Layout) (env : List (String × Int)) (var : String) (x : Int) : Prop :=
  ∃ line, Layout.Inside (.line line) ls ∧ assigned env var line = some x

theorem assigned_means {text : String} {x : List (String × Int) → Option Int} (h : Means text x)
    (env : List (String × Int)) (var : String) :
    assigned env var (var ++ " := " ++ text) = x env := by
  obtain ⟨t, ht, hx⟩ := h
  have hsum := ht.eq_some (show stops [] = true from rfl)
  rw [List.append_nil] at hsum
  rw [assigned, readAssign, symbols_around rfl, List.append_assoc]
  simp only [expect_append, Option.bind_eq_bind, Option.bind_some, hsum, ↓reduceIte, hx]

theorem walks_chunk (n chunk worker : Nat) (xs : List Int) :
    Walks [("n", n), ("chunk", chunk), ("worker", worker)] "idx"
        "for idx := worker * chunk; idx < min((worker+1)*chunk, n); idx++ \x7b" xs ↔
      xs = (chunkOf n chunk worker).map Nat.cast := by
  have hread : ForLoop.read "idx"
      "for idx := worker * chunk; idx < min((worker+1)*chunk, n); idx++ \x7b" =
      some ⟨.mul (.name "worker") (.name "chunk"), true,
        .least (.mul (.add (.name "worker") (.number 1)) (.name "chunk")) (.name "n"),
        .number 1⟩ := by
    decide +kernel
  have hstart : (Term.mul (.name "worker") (.name "chunk")).value
      [("n", n), ("chunk", chunk), ("worker", worker)] = some (worker * chunk : Int) := rfl
  have hbound : (Term.least (.mul (.add (.name "worker") (.number 1)) (.name "chunk"))
      (.name "n")).value [("n", n), ("chunk", chunk), ("worker", worker)] =
        some (min (((worker : Int) + 1) * chunk) n) := rfl
  have hsteps : Steps (Within true (min (((worker : Int) + 1) * chunk) n)) 1 (worker * chunk) xs ↔
      xs = (chunkOf n chunk worker).map Nat.cast := by
    have hone : (fun k : Nat => (worker : Int) * chunk + k) =
        fun k : Nat => (worker : Int) * chunk + k * 1 := by simp
    rw [map_chunkOf, hone]
    refine steps_iff fun k => ?_
    simp only [Within, ↓reduceIte, Int.mul_one]
    omega
  rw [← hsteps]
  constructor
  · rintro ⟨l, a, b, d, hl, ha, hb, hd, hs⟩
    obtain rfl := Option.some.inj (hread.symm.trans hl)
    obtain rfl := Option.some.inj (hstart.symm.trans ha)
    obtain rfl := Option.some.inj (hbound.symm.trans hb)
    obtain rfl := Option.some.inj hd
    exact hs
  · intro hs
    exact ⟨_, _, _, _, hread, hstart, hbound, rfl, hs⟩

/-- The size of a chunk, as a quotient that is rounded down. -/
theorem assigned_chunk (n : Nat) {workers : Nat} (hw : 0 < workers) :
    assigned [("n", n), ("workers", workers)] "chunk" "chunk := (n + workers - 1) / workers" =
      some (chunkSize n workers : Int) := by
  have hread : readAssign "chunk" "chunk := (n + workers - 1) / workers" =
      some (.div (.sub (.add (.name "n") (.name "workers")) (.number 1)) (.name "workers")) := by
    decide +kernel
  have hquotient : ((n : Int) + workers - 1).tdiv workers = (chunkSize n workers : Int) := by
    have hsum : (n : Int) + workers - 1 = ((n + workers - 1 : Nat) : Int) := by omega
    rw [hsum, chunkSize, Int.natCast_ediv, Int.tdiv_eq_ediv_of_nonneg (by omega)]
  have hpos : workers ≠ 0 := by omega
  simp [assigned, hread, value, List.lookup_cons, hpos, hquotient]

variable {workers : Nat}

/-- How the workers of a function share the positions of its outer range. The function says how many
positions there are and how many a worker takes; a loop walks those of one worker, and its first
line gives the variable the value at a position if the variable is used. -/
structure Shares (p : Printer) (c : Comprehension) (s : Settings) (g : Generator) (r : Range)
    (workers : Nat) : Prop where
  count : Assigns (parallel p c s) [] "n" r.len
  chunk : Assigns (parallel p c s) [("n", r.len), ("workers", workers)] "chunk"
    (chunkSize r.len workers)
  loop : ∃ body, Layout.Inside
    (.block (chunkLoop p c g).header "\x7d" ((chunkLoop p c g).opening ++ body)) (parallel p c s)
  walks (worker : Nat) (xs : List Int) :
    Walks [("n", r.len), ("chunk", chunkSize r.len workers), ("worker", worker)] "idx"
        (chunkLoop p c g).header xs ↔
      xs = (chunkOf r.len (chunkSize r.len workers) worker).map Nat.cast
  values : isUsed c g.var = true →
    ∃ line, (chunkLoop p c g).opening.head? = some (.line line) ∧
      (List.range workers).flatMap (fun worker =>
          (chunkOf r.len (chunkSize r.len workers) worker).map fun k : Nat =>
            assigned [("idx", k)] g.var line) =
        r.numbers.map some

theorem parallel_shares (p : Printer) {c : Comprehension} (s : Settings) {var : String}
    {filters : List String} {rest : List Generator}
    (hc : c.generators = ⟨var, .range r, filters⟩ :: rest) (hw : 0 < workers) :
    Shares p c s ⟨var, .range r, filters⟩ r workers where
  count := by
    have hcount : count p c = toString r.len := by simp [count, hc]
    refine ⟨"n := " ++ count p c, .here, ?_⟩
    rw [hcount]
    exact assigned_means (means_toString r.len) [] "n"
  chunk := ⟨_, .later (.later .here), assigned_chunk r.len hw⟩
  loop := by
    have hloops (leaf : List Layout) : ∃ body, nest "\x7d" leaf (chunkLoops p c) =
        [.block (chunkLoop p c ⟨var, .range r, filters⟩).header "\x7d"
          ((chunkLoop p c ⟨var, .range r, filters⟩).opening ++ body)] := by
      rw [chunkLoops, hc]
      exact ⟨_, rfl⟩
    obtain ⟨body, hbody⟩ := hloops [leaf p c fun b => ["partials[worker] = " ++ b, "return"]]
    refine ⟨body, .later (.later (.later (.later (.later (.within (.later (.within ?_)))))))⟩
    rw [hbody]
    exact .later (.later .here)
  walks := walks_chunk _ _
  values := by
    intro hused
    have hopening : (chunkLoop p c ⟨var, .range r, filters⟩).opening.head? =
        some (.line (var ++ " := " ++ r.affine "idx")) := by
      simp [chunkLoop, hused]
    have hname : ReadsFactor (symbols "idx") (.name "idx") := fun fuel rest => rfl
    have hmeans := means_affine_name (r := r) hname (by decide)
    refine ⟨_, hopening, ?_⟩
    rw [Range.flatMap_chunks hw, Range.numbers_eq, List.map_map]
    exact List.map_congr_left fun k _ => assigned_means hmeans [("idx", k)] var

end Target.Go

namespace Target.TypeScript

def readConstant (name line : String) : Option Term := do
  let (t, ts) ← sum (← expect " = " (← expect name (← expect "const " (symbols line))))
  if ts = symbols ";" then some t else none

def Defines (ls : List Layout) (env : List (String × Int)) (name : String) (x : Int) : Prop :=
  ∃ line, Layout.Inside (.line line) ls ∧ (readConstant name line).bind (value env) = some x

def readMessage (line : String) : Option (Term × Term) := do
  let (lo, ts) ← sum (← expect "worker.postMessage(\x7b lo: " (symbols line))
  let (hi, ts) ← sum (← expect ", hi: " ts)
  if ts = symbols " \x7d);" then some (lo, hi) else none

def Sends (ls : List Layout) (env : List (String × Int)) (lo hi : Int) : Prop :=
  ∃ line bounds, Layout.Inside (.line line) ls ∧ readMessage line = some bounds ∧
    bounds.1.value env = some lo ∧ bounds.2.value env = some hi

/-- An array by its length and its item at the position `k`. -/
structure ArrayFrom where
  length : Term
  item : Term

def readArray (ts : List Symbol) : Option (ArrayFrom × List Symbol) := do
  let (length, ts) ← sum (← expect "Array.from(\x7b length: " ts)
  let (item, ts) ← sum (← expect " \x7d, (_, k) => " ts)
  return (⟨length, item⟩, ← expect ")" ts)

/-- The items of an array; a length below zero counts as zero. -/
def ArrayFrom.Items (a : ArrayFrom) (env : List (String × Int)) (xs : List Int) : Prop :=
  ∃ n, a.length.value env = some n ∧
    (List.range n.toNat).map (fun k : Nat => a.item.value (("k", k) :: env)) = xs.map some

theorem symbols_arrayOf (length item : String) : symbols (arrayOf length item) =
    symbols "Array.from(\x7b length: " ++ (symbols length ++ (symbols " \x7d, (_, k) => " ++
      (symbols item ++ symbols ")"))) := by
  unfold arrayOf
  simp (disch := decide) only [symbols_append_right, symbols_around, symbols_append_left,
    List.append_assoc]

/-- An array is read with its length and its items. -/
theorem readArray_arrayOf {length item : String} {n x : List (String × Int) → Option Int}
    (hlength : Means length n) (hitem : Means item x) :
    ∃ a, (∀ rest, readArray (symbols (arrayOf length item) ++ rest) = some (a, rest)) ∧
      (∀ env, a.length.value env = n env) ∧ ∀ env, a.item.value env = x env := by
  obtain ⟨t, ht, hn⟩ := hlength
  obtain ⟨u, hu, hx⟩ := hitem
  refine ⟨⟨t, u⟩, fun rest => ?_, hn, hx⟩
  have hmiddle : halts " \x7d, (_, k) => " = true := by decide +kernel
  have hclose : halts ")" = true := by decide
  have ht' (ts : List Symbol) := ht.eq_some (stops_append hmiddle ts)
  have hu' (ts : List Symbol) := hu.eq_some (stops_append hclose ts)
  simp only [readArray, symbols_arrayOf, List.append_assoc, expect_append, ht', hu',
    Option.bind_eq_bind, Option.bind_some, Option.pure_def]

def SourceItems (text : String) (xs : List Int) : Prop :=
  ∃ a, readArray (symbols text) = some (a, []) ∧ a.Items [] xs

theorem sourceItems_range (p : Printer) : SourceItems (source p (.range r)) r.numbers := by
  have hname : ReadsFactor (symbols "k") (.name "k") := fun fuel rest => rfl
  have hitem := means_affine_name (r := r) hname (by decide)
  obtain ⟨a, hread, hlength, hitems⟩ := readArray_arrayOf (means_toString r.len) hitem
  have hread' := hread []
  rw [List.append_nil] at hread'
  refine ⟨a, hread', r.len, hlength [], ?_⟩
  rw [Range.numbers_eq, List.map_map]
  exact List.map_congr_left fun k _ => hitems [("k", k)]

def Finds (ls : List Layout) (env : List (String × Int)) (xs : List Int) : Prop :=
  ∃ line ts a, Layout.Inside (.line line) ls ∧ expect "const partial = " (symbols line) = some ts ∧
    (readArray ts = some (a, []) ∨ readArray ts = some (a, symbols ";")) ∧ a.Items env xs

/-- How the workers share the positions of the outer range. The function says how many positions
there are and how many a worker takes, and sends each worker its bounds; a worker finds the values
at the positions between the bounds. -/
structure Shares (p : Printer) (c : Comprehension) (funcName : String) (r : Range)
    (workers : Nat) : Prop where
  count : Defines (parallel p c r funcName) [] "total" r.len
  chunk : Defines (parallel p c r funcName) [("total", r.len), ("workers", workers)] "chunk"
    (chunkSize r.len workers)
  parts : ∃ part : Nat → List Int,
    (∀ worker : Nat, ∃ lo hi, Sends (parallel p c r funcName)
        [("total", r.len), ("chunk", chunkSize r.len workers), ("w", worker)] lo hi ∧
      Finds (parallel p c r funcName) [("lo", lo), ("hi", hi)] (part worker)) ∧
    (List.range workers).flatMap part = r.numbers

theorem defines_chunk (n : Nat) {workers : Nat} (hw : 0 < workers) :
    (readConstant "chunk" "const chunk = Math.ceil(total / workers);").bind
        (value [("total", n), ("workers", workers)]) = some (chunkSize n workers : Int) := by
  have hread : readConstant "chunk" "const chunk = Math.ceil(total / workers);" =
      some (.ceilDiv (.name "total") (.name "workers")) := by decide +kernel
  have hpos : workers ≠ 0 := by omega
  have hquotient : -(-(n : Int)).fdiv workers = chunkSize n workers := by
    have hmod := Nat.div_add_mod (n + workers - 1) workers
    have hlt := Nat.mod_lt (n + workers - 1) hw
    have hround : (-(n : Int)) / workers = -(chunkSize n workers : Int) := by
      have hproduct : (chunkSize n workers : Int) * workers =
          ((workers * chunkSize n workers : Nat) : Int) := by
        rw [Int.natCast_mul, Int.mul_comm]
      rw [Int.ediv_eq_iff_of_pos (by omega), Int.neg_mul, hproduct]
      unfold chunkSize
      omega
    rw [Int.fdiv_eq_ediv_of_nonneg _ (by omega), hround, Int.neg_neg]
  simp [hread, value, List.lookup_cons, hpos, hquotient]

theorem sends_bounds (n chunk worker : Nat) :
    ∃ bounds, readMessage ("worker.postMessage(\x7b lo: w * chunk, " ++
        "hi: Math.min(total, (w + 1) * chunk) \x7d);") = some bounds ∧
      bounds.1.value [("total", n), ("chunk", chunk), ("w", worker)] =
        some ((worker * chunk : Nat) : Int) ∧
      bounds.2.value [("total", n), ("chunk", chunk), ("w", worker)] =
        some ((min n ((worker + 1) * chunk) : Nat) : Int) := by
  refine ⟨(.mul (.name "w") (.name "chunk"),
    .least (.name "total") (.mul (.add (.name "w") (.number 1)) (.name "chunk"))), ?_, ?_, ?_⟩
  · decide +kernel
  · simp [value, List.lookup_cons]
  · have hnext : (((worker + 1) * chunk : Nat) : Int) = ((worker : Int) + 1) * chunk := rfl
    have hmin : min (n : Int) (((worker + 1) * chunk : Nat) : Int) =
        ((min n ((worker + 1) * chunk) : Nat) : Int) := by omega
    rw [hnext] at hmin
    exact congrArg some hmin

theorem isPlainText_arrayOf {length item : String} (hlength : isPlainText length = true)
    (hitem : isPlainText item = true) : isPlainText (arrayOf length item) = true := by
  have hopen : isPlainText "Array.from(\x7b length: " = true := by decide +kernel
  have hmiddle : isPlainText " \x7d, (_, k) => " = true := by decide +kernel
  unfold arrayOf
  simp only [isPlainText_append, hopen, hlength, hmiddle, hitem]
  rfl

theorem isPlainText_affine (r : Range) : isPlainText (r.affine "lo + k") = true := by
  have hstart := isPlainText_toString r.start.toInt
  have hstride : isPlainText (toString r.stride) = true := isPlainText_toString r.stride
  have hblank : ' ' ∈ "lo + k".toList := by decide
  unfold Range.affine
  by_cases hdown : r.step < 0 <;> by_cases hzero : r.start = 0 <;> by_cases hone : r.stride = 1 <;>
    simp only [hdown, hzero, hone, hblank, ↓reduceIte, isPlainText_append, hstart, hstride] <;>
    decide

/-- The first text of a chain, with the ending behind it if it is also the last one. -/
theorem inside_chain (lead ending s : String) (more : List String) :
    ∃ tail, (tail = "" ∨ tail = ending) ∧
      Layout.Inside (.line (lead ++ s ++ tail)) (chain lead ending (s :: more)) := by
  cases more with
  | nil => exact ⟨ending, .inr rfl, .here⟩
  | cons t more =>
    refine ⟨"", .inl rfl, ?_⟩
    rw [String.append_empty]
    exact .here

/-- A worker finds the values at the positions between its bounds. -/
theorem finds_items (p : Printer) {c : Comprehension} {var : String} {filters : List String}
    {rest : List Generator} (hc : c.generators = ⟨var, .range r, filters⟩ :: rest)
    (funcName : String) (lo hi : Nat) :
    Finds (parallel p c r funcName) [("lo", lo), ("hi", hi)]
      ((List.range' lo (hi - lo)).map fun k : Nat => r.start.toInt + k * r.step.toInt) := by
  have hlength : Means "hi - lo" fun env => do
      return (← env.lookup "hi") - (← env.lookup "lo") := by
    have hhi : ReadsFactor [.word "hi"] (.name "hi") := fun fuel rest => rfl
    have hlo : ReadsFactor [.word "lo"] (.name "lo") := fun fuel rest => rfl
    have htext : symbols "hi - lo" = [.word "hi"] ++ .mark '-' :: [.word "lo"] := by decide +kernel
    exact ⟨_, htext ▸ hhi.product.sum.sub hlo.product, fun env => rfl⟩
  obtain ⟨a, hread, hn, hitem⟩ := readArray_arrayOf hlength (means_affine_offset (r := r))
  have hitems : a.Items [("lo", lo), ("hi", hi)]
      ((List.range' lo (hi - lo)).map fun k : Nat => r.start.toInt + k * r.step.toInt) := by
    refine ⟨(hi : Int) - lo, hn _, ?_⟩
    have hcount : ((hi : Int) - lo).toNat = hi - lo := by omega
    rw [hcount, List.range'_eq_map_range, List.map_map, List.map_map]
    refine List.map_congr_left fun k _ => ?_
    rw [hitem]
    simp [List.lookup_cons]
  generalize harray : arrayOf "hi - lo" (r.affine "lo + k") = array at hread
  obtain ⟨more, hsteps⟩ : ∃ more, (steps p c false array).map templateText = array :: more := by
    have htemplate : templateText array = array := by
      have hlength : isPlainText "hi - lo" = true := by decide
      rw [← harray]
      exact templateText_plain (isPlainText_arrayOf hlength (isPlainText_affine r))
    simp [steps, hc, htemplate]
  obtain ⟨tail, htail, hinside⟩ := inside_chain "const partial = " ";" array more
  have hline : Layout.Inside (.line ("const partial = " ++ array ++ tail))
      (parallel p c r funcName) := by
    refine .later (.within (.later ?_))
    rw [harray, hsteps]
    exact hinside.append _
  have hlead : expect "const partial = " (symbols ("const partial = " ++ array ++ tail)) =
      some (symbols (array ++ tail)) := by
    rw [String.append_assoc, symbols_append_left (by decide), expect_append]
  refine ⟨_, _, a, hline, hlead, ?_, hitems⟩
  rcases htail with rfl | rfl
  · have h := hread []
    rw [List.append_nil] at h
    rw [String.append_empty]
    exact .inl h
  · rw [symbols_append_right (by decide)]
    exact .inr (hread _)

theorem readConstant_toString (n : Nat) :
    readConstant "total" ("const total = " ++ toString n ++ ";") = some (ofInt n) := by
  have hlead : symbols "const total = " =
      symbols "const " ++ (symbols "total" ++ symbols " = ") := by
    decide +kernel
  simp (disch := decide) only [readConstant, symbols_append_right, symbols_append_left, hlead,
    symbols_toString_nat, List.append_assoc, expect_append, sum_last, Option.bind_eq_bind,
    Option.bind_some, ↓reduceIte]

theorem parallel_shares (p : Printer) {c : Comprehension} (funcName : String) {var : String}
    {filters : List String} {rest : List Generator} {workers : Nat}
    (hc : c.generators = ⟨var, .range r, filters⟩ :: rest) (hw : 0 < workers) :
    Shares p c funcName r workers where
  count := by
    refine ⟨_, .later (.later (.later (.later (.within .here)))), ?_⟩
    rw [readConstant_toString]
    rfl
  chunk := ⟨_, .later (.later (.later (.later (.within (.later (.later .here)))))),
    defines_chunk r.len hw⟩
  parts := by
    refine ⟨fun worker => (chunkOf r.len (chunkSize r.len workers) worker).map fun k : Nat =>
      r.start.toInt + k * r.step.toInt, fun worker => ?_, ?_⟩
    · obtain ⟨bounds, hbounds, hlo, hhi⟩ := sends_bounds r.len (chunkSize r.len workers) worker
      refine ⟨_, _, ⟨_, bounds, ?_, hbounds, hlo, hhi⟩, finds_items p hc funcName _ _⟩
      exact .later (.later (.later (.later (.within (.later (.later (.later (.later (.within
        (.within (.within (.later (.later .here)))))))))))))
    · rw [Range.numbers_eq]
      exact Range.flatMap_chunks hw

end Target.TypeScript

namespace Target.CSharp

/-- A cast of `k` to another type keeps the number. -/
def readCast : List Symbol → Option (Term × List Symbol)
  | .mark '(' :: .word _ :: .mark ')' :: .word "k" :: .mark ')' :: ts => some (.name "k", ts)
  | _ => none

/-- What a step makes of an item `k`, up to the closing bracket. -/
def readItem (ts : List Symbol) : Option (Term × List Symbol) :=
  match sum ts with
  | some (t, .mark ')' :: ts) => some (t, ts)
  | _ => readCast ts

/-- Reads the steps behind an enumeration; each of them takes at least one symbol. -/
def readSelects : (fuel : Nat) → List Symbol → Option (List Term)
  | 0, ts => if ts = [] then some [] else none
  | fuel + 1, ts =>
    if ts = [] then some []
    else do
      let (t, ts) ← readItem (← expect ".Select(k => " ts)
      return t :: (← readSelects fuel ts)

/-- Consecutive integers from a start on, and the steps that are made with them. -/
structure Enumeration where
  start : Term
  count : Term
  selects : List Term

def Enumeration.read (s : String) : Option Enumeration := do
  let (start, ts) ← sum (← expect "Enumerable.Range(" (symbols s))
  let (count, ts) ← sum (← expect ", " ts)
  let ts ← expect ")" ts
  return ⟨start, count, ← readSelects ts.length ts⟩

/-- The steps lead from these items to those. -/
def Selects : (steps : List Term) → (xs ys : List Int) → Prop
  | [], xs, ys => xs = ys
  | t :: ts, xs, ys =>
    ∃ zs : List Int, xs.map (fun x => t.value [("k", x)]) = zs.map some ∧ Selects ts zs ys

def SourceItems (s : String) (xs : List Int) : Prop :=
  ∃ e a n, Enumeration.read s = some e ∧ e.start.value [] = some a ∧ e.count.value [] = some n ∧
    Selects e.selects ((List.range n.toNat).map fun k : Nat => a + k) xs

def select (item : String) : String :=
  ".Select(k => " ++ item ++ ")"

def IsItem (item : String) (t : Term) : Prop :=
  ∀ rest, readItem (symbols (item ++ ")") ++ rest) = some (t, rest)

theorem isItem_affine (r : Range) : ∃ t, IsItem (r.affine "k") t ∧
    ∀ i : Int, t.value [("k", i)] = some (r.start.toInt + i * r.step.toInt) := by
  have hname : ReadsFactor (symbols "k") (.name "k") := fun fuel rest => rfl
  obtain ⟨t, ht, hvalue⟩ := means_affine_name (r := r) hname (by decide)
  refine ⟨t, fun rest => ?_, fun i => hvalue [("k", i)]⟩
  have hclose : symbols ")" = [.mark ')'] := rfl
  have hsum := ht.eq_some (show stops (.mark ')' :: rest) = true from rfl)
  rw [symbols_append_right rfl, hclose, List.append_assoc, List.singleton_append, readItem, hsum]
  rfl

/-- The name of a type reads as a word of its own. -/
theorem symbols_word {w : IntWidth} (hw : w ∈ intWidths) : symbols w.word = [.word w.word] := by
  have hall : intWidths.all (fun w => symbols w.word == [.word w.word]) = true := by decide +kernel
  exact eq_of_beq (List.all_eq_true.mp hall w hw)

theorem isItem_cast {w : IntWidth} (hw : w ∈ intWidths) :
    IsItem ("(" ++ w.word ++ ")k") (.name "k") := by
  have hname : ReadsFactor [.word w.word] (.name w.word) := by
    simp only [intWidths, List.mem_cons, List.not_mem_nil, or_false] at hw
    rcases hw with rfl | rfl | rfl | rfl | rfl | rfl | rfl | rfl | rfl | rfl | rfl | rfl <;>
      exact fun fuel rest => rfl
  have htext : symbols ("(" ++ w.word ++ ")k" ++ ")") =
      .mark '(' :: ([.word w.word] ++ [.mark ')']) ++ [.word "k", .mark ')'] := by
    have hclose : symbols ")k" = [.mark ')', .word "k"] := by decide +kernel
    have hend : symbols ")" = [.mark ')'] := rfl
    have hopen : symbols "(" = [.mark '('] := rfl
    rw [symbols_append_right rfl, symbols_append_right rfl, symbols_append_left rfl,
      symbols_word hw, hclose, hend, hopen]
    rfl
  intro rest
  -- the name of the type could be a term in brackets, but no step ends behind it
  have hsum := hname.product.sum.brackets.product.sum.eq_some
    (show stops (.word "k" :: .mark ')' :: rest) = true from rfl)
  rw [htext, List.append_assoc, readItem]
  simp only [List.cons_append, List.nil_append] at hsum ⊢
  rw [hsum]
  rfl

/-- The text of steps, which are given by what they make of an item. -/
def selectText (steps : List (String × Term)) : String :=
  String.join (steps.map fun s => select s.1)

theorem symbols_selectText (item : String) (t : Term) (steps : List (String × Term)) :
    symbols (selectText ((item, t) :: steps)) =
      symbols ".Select(k => " ++ (symbols (item ++ ")") ++ symbols (selectText steps)) := by
  have htext : selectText ((item, t) :: steps) =
      ".Select(k => " ++ item ++ ")" ++ selectText steps := by
    simp [selectText, select]
  rw [htext, symbols_around rfl, symbols_append_left (by decide), symbols_append_right rfl,
    List.append_assoc, List.append_assoc, List.append_assoc]

theorem length_le_symbols (steps : List (String × Term)) :
    steps.length ≤ (symbols (selectText steps)).length := by
  induction steps with
  | nil => exact Nat.zero_le _
  | cons s steps ih =>
    have hpos : 0 < (symbols ".Select(k => ").length := by decide +kernel
    rw [symbols_selectText, List.length_append, List.length_append, List.length_cons]
    omega

theorem readSelects_selectText {steps : List (String × Term)} (h : ∀ s ∈ steps, IsItem s.1 s.2)
    {fuel : Nat} (hfuel : steps.length ≤ fuel) :
    readSelects fuel (symbols (selectText steps)) = some (steps.map Prod.snd) := by
  induction steps generalizing fuel with
  | nil => cases fuel <;> rfl
  | cons s steps ih =>
    obtain ⟨fuel, rfl⟩ : ∃ m, fuel = m + 1 := ⟨fuel - 1, by rw [List.length_cons] at hfuel; omega⟩
    rw [List.forall_mem_cons] at h
    have hrest := ih h.2 (Nat.le_of_succ_le_succ hfuel)
    have hne : symbols ".Select(k => " ++
        (symbols (s.1 ++ ")") ++ symbols (selectText steps)) ≠ [] := by
      intro hnil
      have hempty : symbols ".Select(k => " = [] := (List.append_eq_nil_iff.mp hnil).1
      revert hempty
      decide +kernel
    rw [symbols_selectText, readSelects, if_neg hne, expect_append]
    simp only [Option.bind_eq_bind, Option.bind_some, h.1 _, hrest, Option.pure_def, List.map_cons]

theorem read_range (start : Int) (n : Nat) (steps : String) :
    Enumeration.read ("Enumerable.Range(" ++ toString start ++ ", " ++ toString n ++ ")" ++ steps) =
      (readSelects (symbols steps).length (symbols steps)).map fun ts =>
        ⟨ofInt start, ofInt n, ts⟩ := by
  simp (disch := decide) only [Enumeration.read, symbols_around, symbols_append_left,
    symbols_toString, symbols_toString_nat, List.append_assoc, expect_append, sum_before,
    Option.bind_eq_bind, Option.bind_some]
  cases readSelects (symbols steps).length (symbols steps) <;> rfl

/-- An enumeration with steps has the items that they make. -/
theorem sourceItems_selectText {steps : List (String × Term)} (h : ∀ s ∈ steps, IsItem s.1 s.2)
    {start : Int} {n : Nat} {xs : List Int}
    (hxs : Selects (steps.map Prod.snd) ((List.range n).map fun k : Nat => start + k) xs) :
    SourceItems ("Enumerable.Range(" ++ toString start ++ ", " ++ toString n ++ ")" ++
      selectText steps) xs := by
  have hread := read_range start n (selectText steps)
  rw [readSelects_selectText h (length_le_symbols steps), Option.map_some] at hread
  exact ⟨_, start, n, hread, value_ofInt [] start, value_ofInt [] n, hxs⟩

theorem sourceItems_range {p : Printer} {w : IntWidth} (hw : w ∈ intWidths)
    (hp : p.intType = w.word) : SourceItems (source p (.range r)) r.numbers := by
  obtain ⟨t, ht, hvalue⟩ := isItem_affine r
  -- the cast comes last and changes nothing
  obtain ⟨cast, hcast, hcasts, hsame⟩ : ∃ cast : List (String × Term),
      (if p.intType = "int" then "" else ".Select(k => (" ++ p.intType ++ ")k)") = selectText cast ∧
      (∀ s ∈ cast, IsItem s.1 s.2) ∧ ∀ xs, Selects (cast.map Prod.snd) xs xs := by
    split
    · exact ⟨[], rfl, by simp, fun xs => rfl⟩
    · refine ⟨[("(" ++ w.word ++ ")k", .name "k")], ?_, ?_, fun xs => ⟨xs, ?_, rfl⟩⟩
      · apply String.toList_inj.mp
        simp [selectText, select, hp]
      · simpa using isItem_cast hw
      · simp [value]
  by_cases hone : r.step = 1
  · have htext : source p (.range r) = "Enumerable.Range(" ++ toString r.start.toInt ++ ", " ++
        toString r.len ++ ")" ++ selectText cast := by
      rw [← hcast]
      simp only [source, hone, ↓reduceIte]
      split
      · rw [String.append_empty]
      · simp only [String.append_assoc]
    have hnumbers : r.numbers = (List.range r.len).map fun k : Nat => r.start.toInt + k := by
      rw [Range.numbers_eq, hone]
      simp
    rw [htext]
    refine sourceItems_selectText hcasts ?_
    rw [hnumbers]
    exact hsame _
  · have htext : source p (.range r) = "Enumerable.Range(" ++ toString (0 : Int) ++ ", " ++
        toString r.len ++ ")" ++ selectText ((r.affine "k", t) :: cast) := by
      have hselect : selectText ((r.affine "k", t) :: cast) =
          ".Select(k => " ++ r.affine "k" ++ ")" ++ selectText cast := by
        simp [selectText, select]
      have hzero : toString (0 : Int) = "0" := rfl
      rw [hselect, ← hcast, hzero]
      apply String.toList_inj.mp
      simp only [source, hone, ↓reduceIte]
      split <;> simp
    have hitems : ∀ s ∈ (r.affine "k", t) :: cast, IsItem s.1 s.2 :=
      List.forall_mem_cons.mpr ⟨ht, hcasts⟩
    have hnumbers : Selects (((r.affine "k", t) :: cast).map Prod.snd)
        ((List.range r.len).map fun k : Nat => 0 + (k : Int)) r.numbers := by
      refine ⟨r.numbers, ?_, hsame _⟩
      rw [Range.numbers_eq, List.map_map, List.map_map]
      refine List.map_congr_left fun k _ => ?_
      simp [hvalue]
    rw [htext]
    exact sourceItems_selectText hitems hnumbers

end Target.CSharp

/-- The workers of every target share the positions of a range, in their order. -/
structure Target.SplitsValues (r : Range) (workers : Nat) : Prop where
  positions : (List.range workers).flatMap (chunkOf r.len (chunkSize r.len workers)) =
    List.range r.len
  go (p : Printer) (c : Comprehension) (s : Go.Settings) (var : String) (filters : List String)
    (rest : List Generator) : c.generators = ⟨var, .range r, filters⟩ :: rest →
      Go.Shares p c s ⟨var, .range r, filters⟩ r workers
  typescript (p : Printer) (c : Comprehension) (funcName var : String) (filters : List String)
    (rest : List Generator) : c.generators = ⟨var, .range r, filters⟩ :: rest →
      TypeScript.Shares p c funcName r workers
  typescriptSource (p : Printer) : TypeScript.SourceItems (TypeScript.source p (.range r)) r.numbers
  csharpSource (p : Printer) (w : IntWidth) : w ∈ intWidths → p.intType = w.word →
    CSharp.SourceItems (CSharp.source p (.range r)) r.numbers

theorem Target.splitsValues (r : Range) {workers : Nat} (hw : 0 < workers) :
    Target.SplitsValues r workers where
  positions := flatMap_chunkOf_chunkSize r.len hw
  go p _ s _ _ _ hc := Go.parallel_shares p s hc hw
  typescript p _ funcName _ _ _ hc := TypeScript.parallel_shares p funcName hc hw
  typescriptSource p := TypeScript.sourceItems_range p
  csharpSource _ _ hmem hp := CSharp.sourceItems_range hmem hp

/-- Four positions for three workers, the last of which finds nothing left. -/
theorem Target.splitsValues_three :
    0 < 3 ∧ (List.range 3).map (chunkOf 4 2) = [[0, 1], [2, 3], []] ∧
      (∀ xs, Go.Walks [("n", 4), ("chunk", 2), ("worker", 1)] "idx"
        "for idx := worker * chunk; idx < min((worker+1)*chunk, n); idx++ \x7b" xs ↔ xs = [2, 3]) ∧
      TypeScript.SourceItems "Array.from(\x7b length: 4 \x7d, (_, k) => 10 - k * 3)" [10, 7, 4, 1] ∧
      CSharp.SourceItems "Enumerable.Range(0, 4).Select(k => 10 - k * 3)" [10, 7, 4, 1] := by
  have hw : 0 < 3 := by decide
  have h := Target.splitsValues ⟨10, 0, -3⟩ hw
  have hnumbers : Range.numbers ⟨10, 0, -3⟩ = [10, 7, 4, 1] := by decide
  refine ⟨hw, by decide, fun xs => ?_, ?_, ?_⟩
  · let c := Comprehension.ofElement .list "x" [⟨"x", .range ⟨10, 0, -3⟩, []⟩]
    exact (h.go { dialect := .go } c ⟨.int, .int, .int, "f", true⟩ "x" [] [] rfl).walks 1 xs
  · have htext : TypeScript.source { dialect := .typescript } (.range ⟨10, 0, -3⟩) =
        "Array.from(\x7b length: 4 \x7d, (_, k) => 10 - k * 3)" := by decide +kernel
    rw [← htext, ← hnumbers]
    exact h.typescriptSource _
  · have htext : CSharp.source { dialect := .csharp, intType := "int" } (.range ⟨10, 0, -3⟩) =
        "Enumerable.Range(0, 4).Select(k => 10 - k * 3)" := by decide +kernel
    rw [← htext, ← hnumbers]
    exact h.csharpSource _ ⟨"i32", "int"⟩ (by decide) rfl

end Comprehend
