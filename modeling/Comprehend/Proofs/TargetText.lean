import Comprehend.Proofs.Spelling

/-! Texts of the targets as a reader of the target language sees them: numbers, words and single
characters, and arithmetic with the usual precedences. The numbers have no bound. -/
namespace Comprehend.Target

inductive Symbol where
  | number (n : Nat)
  | word (s : String)
  | mark (c : Char)
deriving DecidableEq

namespace Symbol

/-! Symbols -/

def isRunChar (c : Char) : Bool :=
  c.isAlphanum || c == '_'

/-- The digits at the start of a run are a number, and what follows them is a word. -/
def ofRun (cs : List Char) : List Symbol :=
  let digits := cs.takeWhile Char.isDigit
  let rest := cs.dropWhile Char.isDigit
  (if digits.isEmpty then [] else [number (Nat.ofDigitChars 10 digits 0)]) ++
    if rest.isEmpty then [] else [word (String.ofList rest)]

/-- A character outside of runs; blanks only part what stands around them. -/
def ofChar (c : Char) : List Symbol :=
  if c = ' ' then [] else [mark c]

/-- The symbols of a text behind a run that is not finished; `seen` holds that run, last character
first. -/
def scan : (seen : List Char) → List Char → List Symbol
  | seen, [] => ofRun seen.reverse
  | seen, c :: cs =>
    if isRunChar c then scan (c :: seen) cs else ofRun seen.reverse ++ ofChar c ++ scan [] cs

end Symbol

open Target.Symbol

def symbols (s : String) : List Symbol :=
  scan [] s.toList

def startsClean (s : String) : Bool :=
  s.toList.head?.any (!isRunChar ·)

def endsClean (s : String) : Bool :=
  s.toList.getLast?.any (!isRunChar ·)

theorem Symbol.scan_append {c : Char} (hc : isRunChar c = false) (seen cs rest : List Char) :
    scan seen (cs ++ c :: rest) = scan seen cs ++ scan [] (c :: rest) := by
  induction cs generalizing seen with
  | nil => simp [scan, hc, ofRun]
  | cons d ds ih =>
    rw [List.cons_append, scan, scan]
    split
    · exact ih _
    · rw [ih, List.append_assoc, List.append_assoc, List.append_assoc]

theorem symbols_append_right {t : String} (ht : startsClean t = true) (s : String) :
    symbols (s ++ t) = symbols s ++ symbols t := by
  cases h : t.toList with
  | nil => simp [startsClean, h] at ht
  | cons c cs =>
    have hc : isRunChar c = false := by simpa [startsClean, h] using ht
    simp only [symbols, String.toList_append, h]
    exact scan_append hc [] s.toList cs

theorem symbols_append_left {s : String} (hs : endsClean s = true) (t : String) :
    symbols (s ++ t) = symbols s ++ symbols t := by
  rcases List.eq_nil_or_concat s.toList with h | ⟨cs, c, h⟩
  · simp [endsClean, h] at hs
  · rw [List.concat_eq_append] at h
    have hc : isRunChar c = false := by simpa [endsClean, h] using hs
    have hone (rest : List Char) : scan [] (c :: rest) = ofChar c ++ scan [] rest := by
      simp [scan, hc, ofRun]
    simp only [symbols, String.toList_append, h, List.append_assoc, List.singleton_append]
    rw [scan_append hc, scan_append hc, hone, hone, List.append_assoc, List.append_assoc]
    simp [scan, ofRun]

/-- A text that parts what stands on its two sides. -/
def isClean (s : String) : Bool :=
  startsClean s && endsClean s

theorem symbols_around {mid : String} (h : isClean mid = true) (s t : String) :
    symbols (s ++ mid ++ t) = symbols s ++ symbols mid ++ symbols t := by
  have hclean := (Bool.and_eq_true _ _).mp h
  rw [String.append_assoc, symbols_append_right, symbols_append_left hclean.2, List.append_assoc]
  obtain ⟨c, hc⟩ : ∃ c, mid.toList.head? = some c := by
    cases hmid : mid.toList.head? with
    | none => simp [startsClean, hmid] at hclean
    | some c => exact ⟨c, rfl⟩
  have hstart := hclean.1
  simp only [startsClean, hc] at hstart
  simp [startsClean, List.head?_append, hc, hstart]

/-! Numbers -/

def numeral (n : Int) : List Symbol :=
  if n < 0 then [.mark '-', .number n.natAbs] else [.number n.natAbs]

theorem numeral_natCast (n : Nat) : numeral n = [.number n] := by
  rw [numeral, if_neg (by omega), Int.natAbs_natCast]

theorem Symbol.scan_run {cs : List Char} (h : ∀ c ∈ cs, isRunChar c = true) (seen : List Char) :
    scan seen cs = ofRun (seen.reverse ++ cs) := by
  induction cs generalizing seen with
  | nil => simp [scan]
  | cons c cs ih =>
    rw [List.forall_mem_cons] at h
    rw [scan, if_pos h.1, ih h.2]
    simp

/-- Digits with a suffix behind them, such as the name of a type. -/
theorem Symbol.ofRun_digits (n : Nat) {suffix : List Char}
    (hsuffix : suffix.head?.any Char.isDigit = false) :
    ofRun (Nat.toDigits 10 n ++ suffix) =
      number n :: if suffix.isEmpty then [] else [word (String.ofList suffix)] := by
  have hdigits : ∀ c ∈ Nat.toDigits 10 n, c.isDigit = true := fun c hc =>
    Nat.isDigit_of_mem_toDigits (by decide) (by decide) hc
  have htake : (Nat.toDigits 10 n ++ suffix).takeWhile Char.isDigit = Nat.toDigits 10 n := by
    rw [List.takeWhile_append_of_pos hdigits]
    cases suffix with
    | nil => simp
    | cons c cs => simp_all
  have hdrop : (Nat.toDigits 10 n ++ suffix).dropWhile Char.isDigit = suffix := by
    rw [List.dropWhile_append_of_pos hdigits]
    cases suffix with
    | nil => simp
    | cons c cs => simp_all
  have hne : (Nat.toDigits 10 n).isEmpty = false := by
    simp
  simp [ofRun, htake, hdrop, hne, Nat.ofDigitChars_toDigits]

theorem symbols_natural (n : Nat) (suffix : String)
    (hrun : suffix.toList.all isRunChar = true)
    (hsuffix : suffix.toList.head?.any Char.isDigit = false) :
    symbols (toString (n : Int) ++ suffix) =
      .number n :: if suffix = "" then [] else [.word suffix] := by
  have hchars : ∀ c ∈ Nat.toDigits 10 n ++ suffix.toList, isRunChar c = true := by
    intro c hc
    rcases List.mem_append.mp hc with hc | hc
    · have hdigit := Nat.isDigit_of_mem_toDigits (by decide) (by decide) hc
      simp [isRunChar, Char.isAlphanum, hdigit]
    · exact List.all_eq_true.mp hrun c hc
  rw [symbols, String.toList_append, Token.toList_toString_natCast, scan_run hchars,
    List.reverse_nil, List.nil_append, ofRun_digits n hsuffix]
  simp

/-- An integer with a suffix behind it. -/
theorem symbols_suffixed (n : Int) (suffix : String) (hrun : suffix.toList.all isRunChar = true)
    (hsuffix : suffix.toList.head?.any Char.isDigit = false) :
    symbols (toString n ++ suffix) = numeral n ++ if suffix = "" then [] else [.word suffix] := by
  by_cases hneg : n < 0
  · obtain ⟨m, hm⟩ := Int.eq_ofNat_of_zero_le (show 0 ≤ -n by omega)
    have htext : toString n ++ suffix = "-" ++ (toString (m : Int) ++ suffix) := by
      apply String.toList_inj.mp
      simp only [String.toList_append, Token.toList_toString_neg hneg, hm]
      rfl
    rw [htext, symbols_append_left (by decide), symbols_natural m suffix hrun hsuffix]
    have habs : n.natAbs = m := by omega
    simp [numeral, hneg, habs, symbols, scan, ofRun, isRunChar, ofChar]
  · obtain ⟨m, rfl⟩ := Int.eq_ofNat_of_zero_le (show 0 ≤ n by omega)
    rw [symbols_natural m suffix hrun hsuffix]
    simp [numeral, hneg]

theorem symbols_toString (n : Int) : symbols (toString n) = numeral n := by
  have h := symbols_suffixed n "" rfl rfl
  simpa using h

theorem symbols_toString_nat (n : Nat) : symbols (toString n) = numeral n :=
  symbols_toString n

/-! Arithmetic -/

/-- Arithmetic over names and numbers. `Math.ceil` of a quotient is the quotient rounded up. -/
inductive Term where
  | number (n : Nat)
  | name (s : String)
  | neg (t : Term)
  | add (a b : Term)
  | sub (a b : Term)
  | mul (a b : Term)
  | div (a b : Term)
  | ceilDiv (a b : Term)
  | least (a b : Term)
deriving DecidableEq

namespace Term

def strip : List Symbol → List Symbol → Option (List Symbol)
  | [], ts => some ts
  | x :: xs, t :: ts => if x = t then strip xs ts else none
  | _ :: _, [] => none

/-- The rest of a text that begins as the given text does, up to blanks. -/
def expect (s : String) (ts : List Symbol) : Option (List Symbol) :=
  strip (symbols s) ts

mutual

/-- A number, a name, a call, a term in brackets, or one of these under minus signs. -/
def factor : Nat → List Symbol → Option (Term × List Symbol)
  | 0, _ => none
  | fuel + 1, ts =>
    match ts with
    | .number n :: ts => some (.number n, ts)
    | .mark '-' :: ts => do
      let (t, ts) ← factor fuel ts
      return (.neg t, ts)
    | .mark '(' :: ts => do
      let (t, ts) ← sumWithin fuel ts
      return (t, ← expect ")" ts)
    | .word "min" :: .mark '(' :: ts => leastWithin fuel ts
    | .word "Math" :: .mark '.' :: .word "min" :: .mark '(' :: ts => leastWithin fuel ts
    | .word "Math" :: .mark '.' :: .word "ceil" :: .mark '(' :: ts => do
      match ← sumWithin fuel ts with
      | (.div a b, ts) => return (.ceilDiv a b, ← expect ")" ts)
      | _ => none
    | .word s :: ts => some (.name s, ts)
    | _ => none

def leastWithin : Nat → List Symbol → Option (Term × List Symbol)
  | 0, _ => none
  | fuel + 1, ts => do
    let (a, ts) ← sumWithin fuel ts
    let (b, ts) ← sumWithin fuel (← expect "," ts)
    return (.least a b, ← expect ")" ts)

def productTail : Nat → Term → List Symbol → Option (Term × List Symbol)
  | 0, _, _ => none
  | fuel + 1, t, ts =>
    match ts with
    | .mark '*' :: ts => do
      let (u, ts) ← factor fuel ts
      productTail fuel (.mul t u) ts
    | .mark '/' :: ts => do
      let (u, ts) ← factor fuel ts
      productTail fuel (.div t u) ts
    | ts => some (t, ts)

def product : Nat → List Symbol → Option (Term × List Symbol)
  | 0, _ => none
  | fuel + 1, ts => do
    let (t, ts) ← factor fuel ts
    productTail fuel t ts

def sumTail : Nat → Term → List Symbol → Option (Term × List Symbol)
  | 0, _, _ => none
  | fuel + 1, t, ts =>
    match ts with
    | .mark '+' :: ts => do
      let (u, ts) ← product fuel ts
      sumTail fuel (.add t u) ts
    | .mark '-' :: ts => do
      let (u, ts) ← product fuel ts
      sumTail fuel (.sub t u) ts
    | ts => some (t, ts)

def sumWithin : Nat → List Symbol → Option (Term × List Symbol)
  | 0, _ => none
  | fuel + 1, ts => do
    let (t, ts) ← product fuel ts
    sumTail fuel t ts

end

/-- Reads a term off the front of a text. Each level of brackets takes three steps and at least two
symbols. -/
def sum (ts : List Symbol) : Option (Term × List Symbol) :=
  sumWithin (2 * ts.length + 2) ts

/-- The value of a term by the quotients of integers, which round toward zero. -/
def value (env : List (String × Int)) : Term → Option Int
  | number n => some n
  | name s => env.lookup s
  | neg t => do return -(← value env t)
  | add a b => do return (← value env a) + (← value env b)
  | sub a b => do return (← value env a) - (← value env b)
  | mul a b => do return (← value env a) * (← value env b)
  | least a b => do return min (← value env a) (← value env b)
  | div a b => do
    let y ← value env b
    if y = 0 then none else return (← value env a).tdiv y
  | ceilDiv a b => do
    let y ← value env b
    if y = 0 then none else return -(-(← value env a)).fdiv y

def stops : List Symbol → Bool
  | .mark c :: _ => !(c == '+' || c == '-' || c == '*' || c == '/')
  | _ => true

def ofInt (n : Int) : Term :=
  if n < 0 then .neg (.number n.natAbs) else .number n.natAbs

@[simp] theorem value_ofInt (env : List (String × Int)) (n : Int) :
    (ofInt n).value env = some n := by
  unfold ofInt
  split
  · simp only [value, Option.pure_def, Option.bind_eq_bind, Option.bind_some]
    congr 1
    omega
  · simp only [value]
    congr 1
    omega

/-! Reading terms -/

def stopsProduct : List Symbol → Bool
  | .mark c :: _ => !(c == '*' || c == '/')
  | _ => true

theorem productTail_stops {ts : List Symbol} (h : stopsProduct ts = true) (fuel : Nat) (t : Term) :
    productTail (fuel + 1) t ts = some (t, ts) := by
  unfold productTail
  split <;> simp_all [stopsProduct]

theorem sumTail_stops {ts : List Symbol} (h : stops ts = true) (fuel : Nat) (t : Term) :
    sumTail (fuel + 1) t ts = some (t, ts) := by
  unfold sumTail
  split <;> simp_all [stops]

theorem stopsProduct_of_stops {ts : List Symbol} (h : stops ts = true) :
    stopsProduct ts = true := by
  unfold stops at h
  unfold stopsProduct
  split <;> simp_all

/-- The symbols are a factor, whatever stands behind them. -/
def ReadsFactor (ts : List Symbol) (t : Term) : Prop :=
  ∀ fuel rest, factor (fuel + 2 * ts.length) (ts ++ rest) = some (t, rest)

def ReadsProduct (ts : List Symbol) (t : Term) : Prop :=
  ∀ fuel rest, ∃ m,
    product (fuel + 2 * ts.length + 1) (ts ++ rest) = productTail (fuel + m + 1) t rest

/-- The symbols are a sum, which may go on behind them unless its last summand does. -/
def ReadsSum (ts : List Symbol) (t : Term) : Prop :=
  ∀ fuel rest, stopsProduct rest = true →
    ∃ m, sumWithin (fuel + 2 * ts.length + 2) (ts ++ rest) = sumTail (fuel + m + 1) t rest

variable {ts us rest : List Symbol} {t u : Term}

theorem readsFactor_numeral (n : Int) : ReadsFactor (numeral n) (ofInt n) := by
  intro fuel rest
  unfold numeral ofInt
  split <;> simp [factor]

theorem ReadsFactor.ne_nil (h : ReadsFactor ts t) : ts ≠ [] := by
  rintro rfl
  have hnone := h 0 []
  simp [factor] at hnone

theorem ReadsFactor.neg (h : ReadsFactor ts t) : ReadsFactor (.mark '-' :: ts) (.neg t) := by
  intro fuel rest
  have hfuel : fuel + 2 * (ts.length + 1) = fuel + 1 + 2 * ts.length + 1 := by omega
  rw [List.length_cons, hfuel, List.cons_append]
  simp [factor, h (fuel + 1) rest]

theorem ReadsFactor.product (h : ReadsFactor ts t) : ReadsProduct ts t := by
  intro fuel rest
  have hpos : 0 < ts.length := List.length_pos_iff.mpr h.ne_nil
  have hm : fuel + (2 * ts.length - 1) + 1 = fuel + 2 * ts.length := by omega
  refine ⟨2 * ts.length - 1, ?_⟩
  rw [hm]
  simp [Term.product, h fuel rest]

theorem ReadsProduct.mul (h : ReadsProduct ts t) (hu : ReadsFactor us u) :
    ReadsProduct (ts ++ .mark '*' :: us) (.mul t u) := by
  intro fuel rest
  obtain ⟨m, hm⟩ := h (fuel + 2 * us.length + 2) (.mark '*' :: (us ++ rest))
  have hfuel : fuel + 2 * (ts ++ .mark '*' :: us).length + 1 =
      fuel + 2 * us.length + 2 + 2 * ts.length + 1 := by
    simp only [List.length_append, List.length_cons]
    omega
  have htail : fuel + 2 * us.length + 2 + m + 1 = fuel + m + 2 + 2 * us.length + 1 := by omega
  refine ⟨m + 1 + 2 * us.length, ?_⟩
  rw [hfuel, List.append_assoc, List.cons_append, hm, htail, productTail]
  have hlast : fuel + (m + 1 + 2 * us.length) + 1 = fuel + m + 2 + 2 * us.length := by omega
  simp [hu (fuel + m + 2) rest, hlast]

theorem ReadsProduct.sum (h : ReadsProduct ts t) : ReadsSum ts t := by
  intro fuel rest hrest
  obtain ⟨m, hm⟩ := h fuel rest
  rw [productTail_stops hrest] at hm
  refine ⟨2 * ts.length, ?_⟩
  rw [sumWithin]
  simp [hm]

/-- A product that nothing continues. -/
theorem ReadsProduct.eq_some (h : ReadsProduct ts t) (hrest : stopsProduct rest = true)
    (fuel : Nat) : Term.product (fuel + 2 * ts.length + 1) (ts ++ rest) = some (t, rest) := by
  obtain ⟨m, hm⟩ := h fuel rest
  rw [hm, productTail_stops hrest]

/-- A sum goes on with the next summand. -/
theorem ReadsSum.next (h : ReadsSum ts t) (hu : ReadsProduct us u) {c : Char}
    (hc : c = '+' ∨ c = '-') (fuel : Nat) (hrest : stopsProduct rest = true) :
    ∃ m, sumWithin (fuel + 2 * (ts ++ .mark c :: us).length + 2) ((ts ++ .mark c :: us) ++ rest) =
        sumTail (fuel + m + 2) t (.mark c :: (us ++ rest)) ∧
      Term.product (fuel + m + 1) (us ++ rest) = some (u, rest) := by
  have hstops : stopsProduct (.mark c :: (us ++ rest)) = true := by
    rcases hc with rfl | rfl <;> rfl
  obtain ⟨m, hm⟩ := h (fuel + 2 * us.length + 2) (.mark c :: (us ++ rest)) hstops
  have hfuel : fuel + 2 * (ts ++ .mark c :: us).length + 2 =
      fuel + 2 * us.length + 2 + 2 * ts.length + 2 := by
    simp only [List.length_append, List.length_cons]
    omega
  have htail : fuel + 2 * us.length + 2 + m + 1 = fuel + (m + 1 + 2 * us.length) + 2 := by omega
  have hproduct : fuel + (m + 1 + 2 * us.length) + 1 = fuel + m + 1 + 2 * us.length + 1 := by omega
  refine ⟨m + 1 + 2 * us.length, ?_, ?_⟩
  · rw [hfuel, List.append_assoc, List.cons_append, hm, htail]
  · rw [hproduct, hu.eq_some hrest]

theorem ReadsSum.add (h : ReadsSum ts t) (hu : ReadsProduct us u) :
    ReadsSum (ts ++ .mark '+' :: us) (.add t u) := by
  intro fuel rest hrest
  obtain ⟨m, hm, hproduct⟩ := h.next hu (.inl rfl) fuel hrest
  refine ⟨m, ?_⟩
  rw [hm, sumTail]
  simp [hproduct]

theorem ReadsSum.sub (h : ReadsSum ts t) (hu : ReadsProduct us u) :
    ReadsSum (ts ++ .mark '-' :: us) (.sub t u) := by
  intro fuel rest hrest
  obtain ⟨m, hm, hproduct⟩ := h.next hu (.inr rfl) fuel hrest
  refine ⟨m, ?_⟩
  rw [hm, sumTail]
  simp [hproduct]

/-- A sum in brackets is a factor. -/
theorem ReadsSum.brackets (h : ReadsSum ts t) :
    ReadsFactor (.mark '(' :: (ts ++ [.mark ')'])) t := by
  intro fuel rest
  obtain ⟨m, hm⟩ := h (fuel + 1) (.mark ')' :: rest) rfl
  rw [sumTail_stops rfl] at hm
  have hfuel : fuel + 2 * (Symbol.mark '(' :: (ts ++ [.mark ')'])).length =
      fuel + 1 + 2 * ts.length + 2 + 1 := by
    simp only [List.length_append, List.length_cons, List.length_nil]
    omega
  have hclose : expect ")" (.mark ')' :: rest) = some rest := rfl
  rw [hfuel, List.cons_append, List.append_assoc, List.singleton_append]
  simp [factor, hm, hclose]

theorem ReadsSum.eq_some (h : ReadsSum ts t) (hrest : stops rest = true) :
    Term.sum (ts ++ rest) = some (t, rest) := by
  obtain ⟨m, hm⟩ := h (2 * rest.length) rest (stopsProduct_of_stops hrest)
  have hfuel : 2 * (ts ++ rest).length + 2 = 2 * rest.length + 2 * ts.length + 2 := by
    rw [List.length_append]
    omega
  rw [Term.sum, hfuel, hm, sumTail_stops hrest]

theorem sum_numeral (n : Int) (h : stops rest = true) :
    sum (numeral n ++ rest) = some (ofInt n, rest) :=
  (readsFactor_numeral n).product.sum.eq_some h

def halts (s : String) : Bool :=
  !(symbols s).isEmpty && stops (symbols s)

theorem stops_append {s : String} (h : halts s = true) (ts : List Symbol) :
    stops (symbols s ++ ts) = true := by
  unfold halts at h
  cases hs : symbols s with
  | nil => simp [hs] at h
  | cons x xs => cases x <;> simp_all [stops]

theorem sum_last {s : String} (h : halts s = true) (n : Int) :
    sum (numeral n ++ symbols s) = some (ofInt n, symbols s) := by
  have hstops := stops_append h []
  rw [List.append_nil] at hstops
  exact sum_numeral n hstops

theorem sum_only (n : Int) : sum (numeral n) = some (ofInt n, []) := by
  have h := sum_numeral n (show stops [] = true from rfl)
  rwa [List.append_nil] at h

theorem sum_before {s : String} (h : halts s = true) (n : Int) (ts : List Symbol) :
    sum (numeral n ++ (symbols s ++ ts)) = some (ofInt n, symbols s ++ ts) :=
  sum_numeral n (stops_append h ts)

@[simp] theorem strip_append (xs ts : List Symbol) : strip xs (xs ++ ts) = some ts := by
  induction xs with
  | nil => rfl
  | cons x xs ih => simpa [strip] using ih

@[simp] theorem expect_append (s : String) (ts : List Symbol) :
    expect s (symbols s ++ ts) = some ts :=
  strip_append _ _

end Term

def valueOf (env : List (String × Int)) (s : String) : Option Int :=
  match Term.sum (symbols s) with
  | some (t, []) => t.value env
  | _ => none

example : valueOf [("lo", 7), ("k", 2)] "-5 - -(lo + k) * 3" = some 22 := by
  decide +kernel

end Comprehend.Target
