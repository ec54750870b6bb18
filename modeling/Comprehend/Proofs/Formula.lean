import Comprehend.Proofs.Operands
import Comprehend.Proofs.Spelling

/-! Formulas of the targets: names, numbers and brackets with operators between and before them.
How tightly the operators bind is a table, so that one grammar and one reader serve all targets. The
reader accepts what the grammar derives and nothing else. -/
namespace Comprehend.Formula

/-! Lexemes -/

inductive Lexeme where
  | name (s : String)
  | number (n : Nat)
  | sign (s : String)
  | opening
  | closing
deriving DecidableEq

def isSignChar (c : Char) : Bool :=
  ['+', '-', '*', '/', '%', '&', '|', '^', '<', '>', '=', '!'].elem c

/-- Neighbours that belong to one word or to one operator. -/
def joins (a b : Char) : Bool :=
  (Text.isIdentRest a && Text.isIdentRest b) || (isSignChar a && isSignChar b)

/-- What characters that belong together stand for; a blank stands for nothing. -/
def ofRun : List Char → List Lexeme
  | [] => []
  | [' '] => []
  | ['('] => [.opening]
  | [')'] => [.closing]
  | c :: cs =>
    if (c :: cs).all Char.isDigit then [.number (Nat.ofDigitChars 10 (c :: cs) 0)]
    else if Text.isIdentStart c then [.name (String.ofList (c :: cs))]
    else [.sign (String.ofList (c :: cs))]

/-- The lexemes of a text behind a run that may go on; `seen` holds that run, last character
first. -/
def scan : (seen : List Char) → List Char → List Lexeme
  | seen, [] => ofRun seen.reverse
  | seen, c :: cs =>
    if seen.head?.all (joins · c) then scan (c :: seen) cs
    else ofRun seen.reverse ++ scan [c] cs

def lexemes (s : String) : List Lexeme :=
  scan [] s.toList

def isLone (c : Char) : Bool :=
  !Text.isIdentRest c && !isSignChar c

theorem scan_single {d : Char} (hd : isLone d = true) (ds : List Char) :
    scan [d] ds = ofRun [d] ++ scan [] ds := by
  simp only [isLone, Bool.and_eq_true, Bool.not_eq_true'] at hd
  cases ds with
  | nil => simp [scan, ofRun]
  | cons c cs => simp [scan, joins, hd]

theorem scan_append {d : Char} (hd : isLone d = true) (seen cs ds : List Char) :
    scan seen (cs ++ d :: ds) = scan seen cs ++ ofRun [d] ++ scan [] ds := by
  induction cs generalizing seen with
  | nil =>
    have hlone := hd
    simp only [isLone, Bool.and_eq_true, Bool.not_eq_true'] at hd
    cases seen with
    | nil => simp [scan, scan_single hlone, ofRun]
    | cons c seen => simp [scan, joins, hd, scan_single hlone]
  | cons c cs ih =>
    rw [List.cons_append, scan, scan]
    split
    · exact ih _
    · rw [ih, List.append_assoc, List.append_assoc, List.append_assoc]

theorem lexemes_spaced (s t : String) : lexemes (s ++ " " ++ t) = lexemes s ++ lexemes t := by
  have h := scan_append (d := ' ') (by decide) [] s.toList t.toList
  simpa [lexemes, ofRun] using h

theorem lexemes_round (s : String) : lexemes (round s) = .opening :: (lexemes s ++ [.closing]) := by
  have hclose := scan_append (d := ')') (by decide) [] s.toList []
  have hopen := scan_append (d := '(') (by decide) [] [] (s.toList ++ [')'])
  simpa [lexemes, round, ofRun, scan, hclose] using hopen

def startsOperand (s : String) : Bool :=
  s.toList.head?.any fun c => Text.isIdentRest c || c == '('

theorem joins_operand {c d : Char} (hc : isSignChar c = true)
    (hd : (Text.isIdentRest d || d == '(') = true) : joins c d = false := by
  have hsigns : ['+', '-', '*', '/', '%', '&', '|', '^', '<', '>', '=', '!'].all
      (!Text.isIdentRest ·) = true := by decide
  have hidentRest {c : Char} (hc : isSignChar c = true) : Text.isIdentRest c = false := by
    simpa using List.all_eq_true.mp hsigns c (List.mem_of_elem_eq_true hc)
  have hsign : isSignChar d = false := by
    rcases (Bool.or_eq_true _ _).mp hd with hd | hd
    · exact Bool.eq_false_iff.mpr fun hsign => by simp [hidentRest hsign] at hd
    · rw [beq_iff_eq.mp hd]
      decide
  simp [joins, hidentRest hc, hsign]

/-- A sign directly before an operand. -/
theorem lexemes_signed {c : Char} {s t : String} (hs : s.toList = [c]) (hc : isSignChar c = true)
    (ht : startsOperand t = true) : lexemes (s ++ t) = ofRun [c] ++ lexemes t := by
  cases htext : t.toList with
  | nil => simp [startsOperand, htext] at ht
  | cons d ds =>
    have hparts : joins c d = false := joins_operand hc (by simpa [startsOperand, htext] using ht)
    simp [lexemes, hs, htext, scan, hparts]

/-! Words and numbers -/

theorem scan_word {cs seen : List Char} (h : ∀ c ∈ cs, Text.isIdentRest c = true)
    (hseen : ∀ c ∈ seen, Text.isIdentRest c = true) :
    scan seen cs = ofRun (seen.reverse ++ cs) := by
  induction cs generalizing seen with
  | nil => simp [scan]
  | cons c cs ih =>
    obtain ⟨hc, hcs⟩ := List.forall_mem_cons.mp h
    have hjoins : seen.head?.all (joins · c) = true := by
      cases seen with
      | nil => rfl
      | cons d seen => simp [joins, hc, hseen d List.mem_cons_self]
    rw [scan, if_pos hjoins, ih hcs (List.forall_mem_cons.mpr ⟨hc, hseen⟩)]
    simp

theorem ofRun_word {c : Char} (hc : Text.isIdentRest c = true) (cs : List Char) :
    ofRun (c :: cs) =
      if (c :: cs).all Char.isDigit then [.number (Nat.ofDigitChars 10 (c :: cs) 0)]
      else if Text.isIdentStart c then [.name (String.ofList (c :: cs))]
      else [.sign (String.ofList (c :: cs))] := by
  unfold ofRun
  split
  · contradiction
  · next h => exact absurd ((List.cons.inj h).1 ▸ hc) (by decide)
  · next h => exact absurd ((List.cons.inj h).1 ▸ hc) (by decide)
  · next h => exact absurd ((List.cons.inj h).1 ▸ hc) (by decide)
  · next h =>
    obtain ⟨rfl, rfl⟩ := List.cons.inj h
    rfl

def isWord (s : String) : Bool :=
  match s.toList with
  | [] => false
  | c :: cs => Text.isIdentStart c && cs.all Text.isIdentRest

theorem exists_of_isWord {s : String} (h : isWord s = true) :
    ∃ c cs, s.toList = c :: cs ∧ Text.isIdentStart c = true ∧
      ∀ d ∈ c :: cs, Text.isIdentRest d = true := by
  unfold isWord at h
  split at h
  · cases h
  next c cs hs =>
    simp only [Bool.and_eq_true, List.all_eq_true] at h
    exact ⟨c, cs, hs, h.1,
      List.forall_mem_cons.mpr ⟨Text.isIdentRest_of_isIdentStart h.1, h.2⟩⟩

theorem lexemes_word {s : String} (h : isWord s = true) : lexemes s = [.name s] := by
  obtain ⟨c, cs, hs, hstart, hrest⟩ := exists_of_isWord h
  have hdigit := (Token.isIdentStart_facts hstart).2.1
  rw [lexemes, hs, scan_word hrest (by simp), List.reverse_nil, List.nil_append,
    ofRun_word (hrest c List.mem_cons_self), if_neg (by simp [hdigit]), if_pos hstart, ← hs,
    String.ofList_toList]

/-- Digits can stand in a word as well. -/
theorem exists_digits (n : Nat) :
    ∃ c cs, Nat.toDigits 10 n = c :: cs ∧ (∀ d ∈ c :: cs, d.isDigit = true) ∧
      ∀ d ∈ c :: cs, Text.isIdentRest d = true := by
  obtain ⟨c, cs, hn⟩ := List.exists_cons_of_ne_nil (Nat.toDigits_ne_nil (n := n) (b := 10))
  have hdigits : ∀ d ∈ c :: cs, d.isDigit = true := fun d hd =>
    Nat.isDigit_of_mem_toDigits (by decide) (by decide) (hn ▸ hd)
  exact ⟨c, cs, hn, hdigits, fun d hd =>
    Text.isIdentRest_of_isHexDigit (by simp [Text.isHexDigit, hdigits d hd])⟩

theorem lexemes_natural (n : Nat) : lexemes (toString (n : Int)) = [.number n] := by
  obtain ⟨c, cs, hn, hdigits, hrest⟩ := exists_digits n
  rw [lexemes, Token.toList_toString_natCast, hn, scan_word hrest (by simp), List.reverse_nil,
    List.nil_append, ofRun_word (hrest c List.mem_cons_self),
    if_pos (List.all_eq_true.mpr hdigits), ← hn, Nat.ofDigitChars_toDigits (by decide) (by decide)]

theorem startsOperand_word {s : String} (h : isWord s = true) : startsOperand s = true := by
  obtain ⟨c, cs, hs, -, hrest⟩ := exists_of_isWord h
  simp [startsOperand, hs, hrest c List.mem_cons_self]

theorem startsOperand_natural {n : Int} (h : 0 ≤ n) : startsOperand (toString n) = true := by
  obtain ⟨m, rfl⟩ := Int.eq_ofNat_of_zero_le h
  obtain ⟨c, cs, hm, -, hrest⟩ := exists_digits m
  rw [startsOperand, Token.toList_toString_natCast, hm]
  simp [hrest c List.mem_cons_self]

theorem startsOperand_round (s : String) : startsOperand (round s) = true := by
  simp [startsOperand, round]

/-! Operators -/

/-- What an operator makes of the operands at its two sides. -/
inductive Joint where
  | binary (op : BinOp)
  | truth (op : BoolOp)
  | comparison (op : CmpOp)
deriving DecidableEq

def Joint.node : Joint → Expr → Expr → Expr
  | binary op, l, r => .binary l op r
  | truth op, l, r => .boolOp op l r
  | comparison op, l, r => .compare l op r

/-- The operators of a language. Those between two operands have a level each, and the greater it
is, the more tightly they bind; those before an operand bind more tightly than all of them. -/
structure Table where
  joints : List (String × Joint × Nat)
  /-- The levels whose operators do not follow one another. All others group from the left. -/
  single : List Nat := []
  leads : List (String × UnaryOp) := []
  /-- The level of an operand, above those of the operators. -/
  height : Nat
  bounded : ∀ x ∈ joints, x.2.2 < height

namespace Table

variable {t : Table}

/-- How tightly the left operand of an operator has to bind. -/
def left (t : Table) (k : Nat) : Nat :=
  if k ∈ t.single then k + 1 else k

theorem le_left (t : Table) (k : Nat) : k ≤ t.left k := by
  unfold left
  split <;> omega

theorem left_le {k n : Nat} (h : k < n) : t.left k ≤ n := by
  unfold left
  split <;> omega

theorem lt_height {s : String} {j : Joint} {k : Nat} (h : t.joints.lookup s = some (j, k)) :
    k < t.height := by
  obtain ⟨before, behind, hjoints, -⟩ := List.lookup_eq_some_iff.mp h
  exact t.bounded (s, j, k) (by simp [hjoints])

end Table

/-! The grammar -/

/-- The lexemes are a formula whose operators outside of brackets have at least the given level. -/
inductive Phrase (t : Table) : Nat → List Lexeme → Expr → Prop
  | name (n : Nat) (s : String) : Phrase t n [.name s] (.name s)
  | number (n : Nat) {m : Nat} {a : Int64} (h : Number.int64? m = some a) :
    Phrase t n [.number m] (.const (.int a))
  | group (n : Nat) {ts : List Lexeme} {e : Expr} (h : Phrase t 0 ts e) :
    Phrase t n (.opening :: (ts ++ [.closing])) e
  | lead (n : Nat) {s : String} {op : UnaryOp} {ts : List Lexeme} {e : Expr}
    (hs : t.leads.lookup s = some op) (h : Phrase t t.height ts e) :
    Phrase t n (.sign s :: ts) (.unary op e)
  | joint {n k : Nat} {s : String} {j : Joint} {ts us : List Lexeme} {l r : Expr}
    (hs : t.joints.lookup s = some (j, k)) (hn : n ≤ k) (hl : Phrase t (t.left k) ts l)
    (hr : Phrase t (k + 1) us r) : Phrase t n (ts ++ .sign s :: us) (j.node l r)

/-! The reader -/

/-- The operator at the start of a text, if it has at least the level `least` and takes a left
operand of the level `level`. -/
def next? (t : Table) (least level : Nat) : List Lexeme → Option (Joint × Nat × List Lexeme)
  | .sign s :: ts =>
    match t.joints.lookup s with
    | some (j, k) => if least ≤ k ∧ t.left k ≤ level then some (j, k, ts) else none
    | none => none
  | _ => none

mutual

/-- A name, a number, a formula in brackets, or one of these behind operators. -/
def operand (t : Table) : Nat → List Lexeme → Option (Expr × List Lexeme)
  | 0, _ => none
  | fuel + 1, ts =>
    match ts with
    | .name s :: ts => some (.name s, ts)
    | .number m :: ts => do return (.const (.int (← Number.int64? m)), ts)
    | .opening :: ts => do
      match ← phrase t fuel 0 ts with
      | (e, .closing :: ts) => return (e, ts)
      | _ => none
    | .sign s :: ts => do
      let op ← t.leads.lookup s
      let (e, ts) ← operand t fuel ts
      return (.unary op e, ts)
    | _ => none

/-- An operand and the operators behind it that have at least the level `least`. -/
def phrase (t : Table) : Nat → Nat → List Lexeme → Option (Expr × List Lexeme)
  | 0, _, _ => none
  | fuel + 1, least, ts => do
    let (e, ts) ← operand t fuel ts
    tail t fuel least t.height e ts

/-- Operators behind a left operand of the level `level`. -/
def tail (t : Table) : Nat → Nat → Nat → Expr → List Lexeme → Option (Expr × List Lexeme)
  | 0, _, _, _, _ => none
  | fuel + 1, least, level, l, ts =>
    match next? t least level ts with
    | some (j, k, ts) => do
      let (r, ts) ← phrase t fuel (k + 1) ts
      tail t fuel least k (j.node l r) ts
    | none => some (l, ts)

end

def read (t : Table) (s : String) : Option Expr :=
  match phrase t (2 * (lexemes s).length + 1) 0 (lexemes s) with
  | some (e, []) => some e
  | _ => none

section

variable {t : Table} {n least level : Nat} {ts us rest : List Lexeme} {e l r : Expr}

theorem Phrase.mono {m : Nat} (h : Phrase t n ts e) (hm : m ≤ n) : Phrase t m ts e := by
  cases h with
  | name _ s => exact .name m s
  | number _ ha => exact .number m ha
  | group _ h => exact .group m h
  | lead _ hs h => exact .lead m hs h
  | joint hs hn hl hr => exact .joint hs (Nat.le_trans hm hn) hl hr

theorem next?_eq_some {j : Joint} {k : Nat} (h : next? t least level ts = some (j, k, rest)) :
    ∃ s, ts = .sign s :: rest ∧ t.joints.lookup s = some (j, k) ∧ least ≤ k ∧ t.left k ≤ level := by
  unfold next? at h
  split at h
  next s ts =>
    split at h
    next j' k' hs =>
      split at h
      next hle =>
        cases h
        exact ⟨s, rfl, hs, hle.1, hle.2⟩
      next => cases h
    next => cases h
  next => cases h

/-! What is read is a formula -/

/-- Each reader takes a formula off the front of a text. -/
structure Sound (t : Table) (fuel : Nat) : Prop where
  operand : ∀ {ts rest e}, operand t fuel ts = some (e, rest) →
    ∃ us, ts = us ++ rest ∧ Phrase t t.height us e
  phrase : ∀ {least ts rest e}, least ≤ t.height → phrase t fuel least ts = some (e, rest) →
    ∃ us, ts = us ++ rest ∧ Phrase t least us e
  tail : ∀ {least level l vs ts rest e}, Phrase t level vs l → Phrase t least vs l →
    tail t fuel least level l ts = some (e, rest) →
      ∃ us, ts = us ++ rest ∧ Phrase t least (vs ++ us) e

theorem operand_step {fuel : Nat} (ih : Sound t fuel)
    (h : operand t (fuel + 1) ts = some (e, rest)) :
    ∃ us, ts = us ++ rest ∧ Phrase t t.height us e := by
  unfold operand at h
  split at h
  next s ts =>
    cases h
    exact ⟨[.name s], rfl, .name _ s⟩
  next m ts =>
    obtain ⟨a, ha, h⟩ := Option.bind_eq_some_iff.mp h
    cases h
    exact ⟨[.number m], rfl, .number _ ha⟩
  next ts =>
    obtain ⟨⟨x, us⟩, hphrase, h⟩ := Option.bind_eq_some_iff.mp h
    split at h
    next x ts heq =>
      cases h
      cases heq
      obtain ⟨us, rfl, hus⟩ := ih.phrase (Nat.zero_le _) hphrase
      exact ⟨.opening :: (us ++ [.closing]), by simp, .group _ hus⟩
    next => cases h
  next s ts =>
    obtain ⟨op, hs, h⟩ := Option.bind_eq_some_iff.mp h
    obtain ⟨⟨x, us⟩, hoperand, h⟩ := Option.bind_eq_some_iff.mp h
    cases h
    obtain ⟨us, rfl, hus⟩ := ih.operand hoperand
    exact ⟨.sign s :: us, rfl, .lead _ hs hus⟩
  next => cases h

theorem phrase_step {fuel : Nat} (ih : Sound t fuel) (hleast : least ≤ t.height)
    (h : phrase t (fuel + 1) least ts = some (e, rest)) :
    ∃ us, ts = us ++ rest ∧ Phrase t least us e := by
  unfold phrase at h
  obtain ⟨⟨x, us⟩, hoperand, htail⟩ := Option.bind_eq_some_iff.mp h
  obtain ⟨vs, rfl, hvs⟩ := ih.operand hoperand
  obtain ⟨us, rfl, hus⟩ := ih.tail hvs (hvs.mono hleast) htail
  exact ⟨vs ++ us, by simp, hus⟩

theorem tail_step {fuel : Nat} {vs : List Lexeme} (ih : Sound t fuel) (hlevel : Phrase t level vs l)
    (hleast : Phrase t least vs l) (h : tail t (fuel + 1) least level l ts = some (e, rest)) :
    ∃ us, ts = us ++ rest ∧ Phrase t least (vs ++ us) e := by
  unfold tail at h
  split at h
  next j k ts hnext =>
    obtain ⟨s, rfl, hs, hk, hleft⟩ := next?_eq_some hnext
    obtain ⟨⟨x, us⟩, hphrase, htail⟩ := Option.bind_eq_some_iff.mp h
    obtain ⟨us, rfl, hus⟩ := ih.phrase (Table.lt_height hs) hphrase
    have hjoint := Phrase.joint hs (Nat.le_refl k) (hlevel.mono hleft) hus
    obtain ⟨ws, rfl, hws⟩ := ih.tail hjoint (hjoint.mono hk) htail
    exact ⟨.sign s :: us ++ ws, by simp, by simpa using hws⟩
  next =>
    cases h
    exact ⟨[], rfl, by simpa using hleast⟩

theorem sound (t : Table) (fuel : Nat) : Sound t fuel := by
  induction fuel with
  | zero => exact ⟨nofun, nofun, nofun⟩
  | succ fuel ih => exact ⟨operand_step ih, phrase_step ih, tail_step ih⟩

/-! Formulas are read -/

/-- No operator at the start of the text binds more tightly than the level. -/
def Stops (t : Table) (n : Nat) (rest : List Lexeme) : Prop :=
  ∀ s us j k, rest = .sign s :: us → t.joints.lookup s = some (j, k) → k ≤ n

theorem tail_stops {fuel : Nat} (h : Stops t n rest) (hn : n < least) :
    tail t (fuel + 1) least level e rest = some (e, rest) := by
  have hnext : next? t least level rest = none := by
    cases hnext : next? t least level rest with
    | none => rfl
    | some x =>
      obtain ⟨s, hrest, hs, hk, -⟩ := next?_eq_some hnext
      have hle := h s _ _ _ hrest hs
      omega
  rw [tail, hnext]

/-- The lexemes are an operand, whatever stands behind them. -/
def ReadsOperand (t : Table) (ts : List Lexeme) (e : Expr) : Prop :=
  ∀ fuel rest, operand t (fuel + 2 * ts.length) (ts ++ rest) = some (e, rest)

/-- The lexemes are a phrase, which may go on behind them with operators of this level or less. -/
def ReadsPhrase (t : Table) (n : Nat) (ts : List Lexeme) (e : Expr) : Prop :=
  ∀ fuel least rest, least ≤ n → Stops t n rest → ∃ m level, n ≤ level ∧
    phrase t (fuel + 2 * ts.length + 1) least (ts ++ rest) =
      tail t (fuel + m + 1) least level e rest

theorem ReadsOperand.phrase (h : ReadsOperand t ts e) (hts : ts ≠ []) (hn : n ≤ t.height) :
    ReadsPhrase t n ts e := by
  intro fuel least rest hleast hrest
  have hpos := List.length_pos_iff.mpr hts
  refine ⟨2 * ts.length - 1, t.height, hn, ?_⟩
  have hfuel : fuel + (2 * ts.length - 1) + 1 = fuel + 2 * ts.length := by omega
  rw [Formula.phrase, h fuel rest, hfuel]
  rfl

theorem ReadsPhrase.group (h : ReadsPhrase t 0 ts e) :
    ReadsOperand t (.opening :: (ts ++ [.closing])) e := by
  intro fuel rest
  have hstops : Stops t 0 (.closing :: rest) := nofun
  obtain ⟨m, level, -, hphrase⟩ := h (fuel + 2) 0 (.closing :: rest) (Nat.le_refl 0) hstops
  have htail : tail t (fuel + 2 + m + 1) 0 level e (.closing :: rest) =
      some (e, .closing :: rest) := rfl
  have hfuel : fuel + 2 * (Lexeme.opening :: (ts ++ [.closing])).length =
      fuel + 2 + 2 * ts.length + 1 + 1 := by
    simp only [List.length_append, List.length_cons, List.length_nil]
    omega
  rw [hfuel, List.cons_append, List.append_assoc, List.singleton_append, operand, hphrase, htail]
  rfl

theorem ReadsOperand.lead {s : String} {op : UnaryOp} (hs : t.leads.lookup s = some op)
    (h : ReadsOperand t ts e) : ReadsOperand t (.sign s :: ts) (.unary op e) := by
  intro fuel rest
  have hfuel : fuel + 2 * (ts.length + 1) = fuel + 1 + 2 * ts.length + 1 := by omega
  rw [List.length_cons, hfuel, List.cons_append, operand, hs, h (fuel + 1) rest]
  rfl

theorem ReadsPhrase.joint {s : String} {j : Joint} {k : Nat}
    (hs : t.joints.lookup s = some (j, k)) (hn : n ≤ k) (hl : ReadsPhrase t (t.left k) ts l)
    (hr : ReadsPhrase t (k + 1) us r) :
    ReadsPhrase t n (ts ++ .sign s :: us) (j.node l r) := by
  intro fuel least rest hleast hrest
  have hleft := t.le_left k
  have hstops : Stops t (t.left k) (.sign s :: (us ++ rest)) := by
    rintro s' us' j' k' heq hs'
    cases heq
    cases hs.symm.trans hs'
    exact hleft
  have hstops' : Stops t (k + 1) rest := fun s us j k' heq hs' =>
    Nat.le_trans (hrest s us j k' heq hs') (by omega)
  obtain ⟨m, level, hlevel, hleftPhrase⟩ :=
    hl (fuel + 2 * us.length + 2) least _ (by omega) hstops
  obtain ⟨m', level', -, hrightPhrase⟩ := hr (fuel + m + 1) (k + 1) rest (Nat.le_refl _) hstops'
  rw [tail_stops hrest (by omega)] at hrightPhrase
  have hnext : next? t least level (.sign s :: (us ++ rest)) = some (j, k, us ++ rest) := by
    simp only [next?, hs]
    rw [if_pos ⟨by omega, hlevel⟩]
  have hfuel : fuel + 2 * (ts ++ .sign s :: us).length + 1 =
      fuel + 2 * us.length + 2 + 2 * ts.length + 1 := by
    simp only [List.length_append, List.length_cons]
    omega
  have htail : fuel + 2 * us.length + 2 + m + 1 = fuel + m + 1 + 2 * us.length + 1 + 1 := by omega
  refine ⟨m + 1 + 2 * us.length, k, hn, ?_⟩
  rw [hfuel, List.append_assoc, List.cons_append, hleftPhrase, htail, tail, hnext]
  show (phrase t (fuel + m + 1 + 2 * us.length + 1) (k + 1) (us ++ rest) >>= _) = _
  rw [hrightPhrase]
  have hlast : fuel + (m + 1 + 2 * us.length) + 1 = fuel + m + 1 + 2 * us.length + 1 := by omega
  rw [hlast]
  rfl

theorem Phrase.ne_nil (h : Phrase t n ts e) : ts ≠ [] := by
  cases h <;> simp

/-- A phrase of the highest level is an operand. -/
theorem Phrase.reads (h : Phrase t n ts e) :
    (t.height ≤ n → ReadsOperand t ts e) ∧ (n ≤ t.height → ReadsPhrase t n ts e) := by
  have hboth {n : Nat} {ts : List Lexeme} {e : Expr} (hts : ts ≠ []) (h : ReadsOperand t ts e) :
      (t.height ≤ n → ReadsOperand t ts e) ∧ (n ≤ t.height → ReadsPhrase t n ts e) :=
    ⟨fun _ => h, h.phrase hts⟩
  induction h with
  | name n s => exact hboth (by simp) fun fuel rest => rfl
  | number n ha =>
    refine hboth (by simp) fun fuel rest => ?_
    simp [operand, ha]
  | group n h ih => exact hboth (by simp) (ih.2 (Nat.zero_le _)).group
  | lead n hs h ih => exact hboth (by simp) ((ih.1 (Nat.le_refl _)).lead hs)
  | joint hs hn hl hr ihl ihr =>
    have hk := Table.lt_height hs
    refine ⟨fun hheight => by omega, fun _ => ?_⟩
    exact ReadsPhrase.joint hs hn (ihl.2 (Table.left_le hk)) (ihr.2 hk)

/-- Reading a text yields the tree that the grammar derives for it, and no other. -/
theorem read_eq_some_iff {s : String} : read t s = some e ↔ Phrase t 0 (lexemes s) e := by
  constructor
  · intro h
    unfold read at h
    split at h
    next x hphrase =>
      cases h
      obtain ⟨us, hus, h⟩ := (sound t _).phrase (Nat.zero_le _) hphrase
      rw [hus, List.append_nil]
      exact h
    next => cases h
  · intro h
    have hstops : Stops t 0 [] := nofun
    obtain ⟨m, level, -, hphrase⟩ := h.reads.2 (Nat.zero_le _) 0 0 [] (Nat.le_refl 0) hstops
    rw [List.append_nil, Nat.zero_add] at hphrase
    rw [read, hphrase]
    rfl

/-! Texts of formulas -/

theorem phrase_word {s : String} (h : isWord s = true) (n : Nat) :
    Phrase t n (lexemes s) (.name s) := by
  rw [lexemes_word h]
  exact .name n s

theorem phrase_natural {a : Int64} (h : 0 ≤ a.toInt) (n : Nat) :
    Phrase t n (lexemes (toString a.toInt)) (.const (.int a)) := by
  obtain ⟨m, hm⟩ := Int.eq_ofNat_of_zero_le h
  have ha : Number.int64? m = some a := by rw [← hm, Number.int64?_toInt]
  rw [hm, lexemes_natural]
  exact .number n ha

theorem Phrase.round {s : String} (h : Phrase t 0 (lexemes s) e) (n : Nat) :
    Phrase t n (lexemes (round s)) e := by
  rw [lexemes_round]
  exact .group n h

/-- The text of an operator between two operands. -/
theorem Phrase.spaced {a b s : String} {j : Joint} {k : Nat}
    (hs : t.joints.lookup s = some (j, k)) (hsign : lexemes s = [.sign s])
    (hl : Phrase t (t.left k) (lexemes a) l) (hr : Phrase t (k + 1) (lexemes b) r) :
    Phrase t k (lexemes (a ++ " " ++ s ++ " " ++ b)) (j.node l r) := by
  rw [lexemes_spaced, lexemes_spaced, hsign, List.append_assoc]
  exact .joint hs (Nat.le_refl k) hl hr

end

end Comprehend.Formula
