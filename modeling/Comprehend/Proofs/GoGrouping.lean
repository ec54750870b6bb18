import Comprehend.Dialect.Print
import Comprehend.Proofs.Formula

/-! Bitwise operators in Go. The source has four levels for them, all below sums and products; in
Go they stand beside sums and products on two levels. An operand with a bitwise operator is always
written in brackets, but an operand of a bitwise operator is not: a sum or a product in its place
is taken apart. The node at which this happens is the only one that is read as another tree. -/
namespace Comprehend.Formula

open Printer

/-! Where a formula can be cut -/

/-- The number of open brackets behind a text, if none is closed that was not opened. -/
def depthFrom : Nat → List Lexeme → Option Nat
  | d, [] => some d
  | d, .opening :: ts => depthFrom (d + 1) ts
  | 0, .closing :: _ => none
  | d + 1, .closing :: ts => depthFrom d ts
  | d, _ :: ts => depthFrom d ts

def Balanced (ts : List Lexeme) : Prop :=
  ∀ d, depthFrom d ts = some d

theorem depthFrom_append (d : Nat) (ts us : List Lexeme) :
    depthFrom d (ts ++ us) = (depthFrom d ts).bind (depthFrom · us) := by
  fun_induction depthFrom d ts <;> simp_all [depthFrom]

/-- A bracket around a text raises the depth everywhere in it. -/
theorem depthFrom_succ {d n : Nat} {ts : List Lexeme} (h : depthFrom d ts = some n) :
    depthFrom (d + 1) ts = some (n + 1) := by
  fun_induction depthFrom d ts with
  | case5 d x ts hopening hclosing hclosing' ih =>
    cases x with
    | opening => exact absurd rfl hopening
    | closing =>
      cases d with
      | zero => exact absurd rfl (hclosing rfl)
      | succ d => exact absurd rfl (hclosing' d rfl)
    | _ => exact ih h
  | _ => simp_all [depthFrom]

theorem Balanced.append {ts us : List Lexeme} (ht : Balanced ts) (hu : Balanced us) :
    Balanced (ts ++ us) := by
  intro d
  rw [depthFrom_append, ht d, Option.bind_some, hu d]

theorem Balanced.sign {ts : List Lexeme} (h : Balanced ts) (s : String) :
    Balanced (.sign s :: ts) :=
  fun d => by simpa [depthFrom] using h d

theorem Balanced.group {ts : List Lexeme} (h : Balanced ts) :
    Balanced (.opening :: (ts ++ [.closing])) := by
  intro d
  rw [depthFrom, depthFrom_append, h (d + 1)]
  rfl

/-- No balanced part of a text in brackets ends before the closing bracket. -/
theorem group_ne {ts us vs : List Lexeme} {s : String} (hts : Balanced ts) (hus : Balanced us)
    (hne : us ≠ []) : Lexeme.opening :: (ts ++ [.closing]) ≠ us ++ .sign s :: vs := by
  intro heq
  obtain ⟨u, us, rfl⟩ := List.exists_cons_of_ne_nil hne
  rw [List.cons_append, List.cons.injEq] at heq
  obtain ⟨rfl, htail⟩ := heq
  rcases List.eq_nil_or_concat vs with rfl | ⟨ws, x, rfl⟩
  · exact nomatch List.append_inj_right' htail rfl
  · rw [List.concat_eq_append, ← List.cons_append, ← List.append_assoc] at htail
    have hts := hts 0
    rw [List.append_inj_left' htail rfl, depthFrom_append] at hts
    -- inside of the brackets `us` leaves some depth `n`, hence `n + 1` behind the opening one
    obtain ⟨n, hn, -⟩ := Option.bind_eq_some_iff.mp hts
    exact nomatch (depthFrom_succ hn).symm.trans (hus 0)

section

variable {t : Table} {n k : Nat} {ts us : List Lexeme} {e l r : Expr}

theorem Phrase.balanced (h : Phrase t n ts e) : Balanced ts := by
  induction h with
  | name n s => exact fun d => rfl
  | number n ha => exact fun d => rfl
  | group n h ih => exact ih.group
  | lead n hs h ih => exact ih.sign _
  | joint hs hn hl hr ihl ihr => exact ihl.append (ihr.sign _)

def operators : Expr → Nat
  | .unary _ e => operators e + 1
  | .binary l _ r => operators l + operators r + 1
  | .boolOp _ l r => operators l + operators r + 1
  | .compare l _ r => operators l + operators r + 1
  | _ => 0

def isSign : Lexeme → Bool
  | .sign _ => true
  | _ => false

theorem operators_node (j : Joint) (l r : Expr) :
    operators (j.node l r) = operators l + operators r + 1 := by
  cases j <;> rfl

theorem Phrase.countP_isSign (h : Phrase t n ts e) : ts.countP isSign = operators e := by
  induction h with
  | name n s => rfl
  | number n ha => rfl
  | group n h ih => simpa [isSign] using ih
  | lead n hs h ih => simp [List.countP_cons, isSign, operators, ih]
  | joint hs hn hl hr ihl ihr =>
    simp [List.countP_cons, isSign, operators_node, ihl, ihr, Nat.add_assoc]

/-- The lexemes have brackets in pairs and one sign for each operator of the tree. -/
structure Covers (ts : List Lexeme) (e : Expr) : Prop where
  balanced : Balanced ts
  ne_nil : ts ≠ []
  count : ts.countP isSign = operators e

theorem Phrase.covers (h : Phrase t n ts e) : Covers ts e :=
  ⟨h.balanced, h.ne_nil, h.countP_isSign⟩

/-- A text is cut at an operator in one way, if it is known how many operators stand before. -/
theorem cut_unique {ts ts' us us' : List Lexeme} {s s' : String}
    (h : ts ++ .sign s :: us = ts' ++ .sign s' :: us')
    (hcount : ts.countP isSign = ts'.countP isSign) : ts = ts' ∧ s = s' ∧ us = us' := by
  induction ts generalizing ts' with
  | nil =>
    cases ts' with
    | nil => simpa using h
    | cons x xs =>
      obtain ⟨rfl, -⟩ := List.cons.inj h
      simp [List.countP_cons, isSign] at hcount
  | cons x xs ih =>
    cases ts' with
    | nil =>
      obtain ⟨rfl, -⟩ := List.cons.inj h
      simp [List.countP_cons, isSign] at hcount
    | cons y ys =>
      obtain ⟨rfl, htail⟩ := List.cons.inj h
      have hrest := ih htail (by simpa [List.countP_cons] using hcount)
      simpa using hrest

theorem phrase_group_iff (h : Balanced ts) :
    Phrase t n (.opening :: (ts ++ [.closing])) e ↔ Phrase t 0 ts e := by
  refine ⟨fun hphrase => ?_, fun hphrase => .group n hphrase⟩
  generalize hus : Lexeme.opening :: (ts ++ [.closing]) = us at hphrase
  cases hphrase with
  | name => cases hus
  | number => cases hus
  | group _ hinner =>
    obtain ⟨-, hts⟩ := List.cons.inj hus
    rwa [List.append_cancel_right hts]
  | lead => cases hus
  | joint hs hn hl hr => exact absurd hus (group_ne h hl.balanced hl.ne_nil)

theorem phrase_joint_iff {s : String} {op : BinOp} (hs : t.joints.lookup s = some (.binary op, k))
    (hts : Covers ts l) :
    Phrase t n (ts ++ .sign s :: us) (.binary l op r) ↔
      n ≤ k ∧ Phrase t (t.left k) ts l ∧ Phrase t (k + 1) us r := by
  refine ⟨fun hphrase => ?_, fun ⟨hn, hl, hr⟩ => .joint hs hn hl hr⟩
  generalize hvs : ts ++ .sign s :: us = vs at hphrase
  generalize he : Expr.binary l op r = e at hphrase
  cases hphrase with
  | name => cases he
  | number => cases he
  | group _ hinner => exact absurd hvs.symm (group_ne hinner.balanced hts.balanced hts.ne_nil)
  | lead => cases he
  | @joint _ k' s' j ts' us' l' r' hs' hn hl hr =>
    cases j with
    | binary op' =>
      obtain ⟨rfl, rfl, rfl⟩ := Expr.binary.inj he
      obtain ⟨rfl, rfl, rfl⟩ := cut_unique hvs (hts.count.trans hl.covers.count.symm)
      cases hs.symm.trans hs'
      exact ⟨hn, hl, hr⟩
    | truth => cases he
    | comparison => cases he

end

/-! The operators of Go -/

def goOperators : List BinOp :=
  [.add, .sub, .mul, .bitAnd, .bitOr, .bitXor, .shl, .shr]

def goTable : Table where
  joints :=
    [("*", .binary .mul, 5), ("<<", .binary .shl, 5), (">>", .binary .shr, 5),
      ("&", .binary .bitAnd, 5), ("+", .binary .add, 4), ("-", .binary .sub, 4),
      ("|", .binary .bitOr, 4), ("^", .binary .bitXor, 4)]
  height := 6
  bounded := by decide

def goLevel : BinOp → Nat
  | .mul | .shl | .shr | .bitAnd => 5
  | _ => 4

/-- Names and natural numbers under sums, differences, products and bitwise operators. -/
def isBitFormula : Expr → Bool
  | .const (.int n) => 0 ≤ n.toInt
  | .name s => isWord s
  | .binary l op r => op ∈ goOperators && isBitFormula l && isBitFormula r
  | _ => false

def isSum : Expr → Bool
  | .binary _ op _ => op = .add || op = .sub
  | _ => false

def isProduct : Expr → Bool
  | .binary _ op _ => op = .mul
  | _ => false

/-- A sum at the left of an operator that binds as tightly as a product. -/
def splitsLeft (l : Expr) (op : BinOp) : Bool :=
  op.isBitwise && goLevel op = 5 && isSum l

/-- A sum at the right of an operator, or a product if the operator binds as tightly as one. -/
def splitsRight (op : BinOp) (r : Expr) : Bool :=
  op.isBitwise && (isSum r || (goLevel op = 5 && isProduct r))

/-- An operand of the node stands without brackets and is taken apart in Go. -/
def splits : Expr → Bool
  | .binary l op r => splitsLeft l op || splitsRight op r
  | _ => false

def goLevelOf : Expr → Nat
  | .binary _ op _ => goLevel op
  | _ => 6

/-- The operand stands in brackets, or it binds as tightly as the level asks for. -/
def holds (least level : Nat) (e : Expr) : Bool :=
  e.precedence < least || Operand.isDelicate .go e || level ≤ goLevelOf e

section

variable {p : Printer} {e l r : Expr} {op : BinOp}

/-- What a node sees of an operand. -/
theorem leaf_or_binary (h : isBitFormula e = true) :
    (e.precedence = 14 ∧ goLevelOf e = 6 ∧ isSum e = false ∧ isProduct e = false) ∨
      ∃ op ∈ goOperators, ∃ l r, e = .binary l op r := by
  cases e with
  | const c =>
    cases c with
    | int n =>
      have hn : ¬n.toInt < 0 := by simpa [isBitFormula] using h
      exact .inl ⟨by simp [Expr.precedence, hn], rfl, rfl, rfl⟩
    | _ => cases h
  | name s => exact .inl ⟨rfl, rfl, rfl, rfl⟩
  | binary l op r =>
    simp only [isBitFormula, Bool.and_eq_true, decide_eq_true_eq] at h
    exact .inr ⟨op, h.1.1, l, r, rfl⟩
  | _ => cases h

theorem holds_left (hop : op ∈ goOperators) (h : isBitFormula l = true) :
    holds op.precedence (goLevel op) l = !splitsLeft l op := by
  rcases leaf_or_binary h with ⟨hprec, hlevel, hsum, -⟩ | ⟨op', hop', a, b, rfl⟩
  · have hle : goLevel op ≤ 6 := by cases op <;> decide
    simp [holds, splitsLeft, hlevel, hsum, hle]
  · have hall : ∀ op ∈ goOperators, ∀ op' ∈ goOperators,
        (op'.precedence < op.precedence || op'.isBitwise || goLevel op ≤ goLevel op' : Bool) =
          !(op.isBitwise && goLevel op = 5 && (op' = .add || op' = .sub)) := by decide
    exact hall op hop op' hop'

theorem holds_right (hop : op ∈ goOperators) (h : isBitFormula r = true) :
    holds (op.precedence + 1) (goLevel op + 1) r = !splitsRight op r := by
  rcases leaf_or_binary h with ⟨hprec, hlevel, hsum, hproduct⟩ | ⟨op', hop', a, b, rfl⟩
  · have hle : goLevel op + 1 ≤ 6 := by cases op <;> decide
    simp [holds, splitsRight, hlevel, hsum, hproduct, hle]
  · have hall : ∀ op ∈ goOperators, ∀ op' ∈ goOperators,
        (op'.precedence < op.precedence + 1 || op'.isBitwise ||
          goLevel op + 1 ≤ goLevel op' : Bool) =
          !(op.isBitwise && ((op' = .add || op' = .sub) || (goLevel op = 5 && op' = .mul))) := by
      decide
    exact hall op hop op' hop'

/-! The text of a node -/

theorem lexemes_binary (hd : p.dialect = .go) (hop : op ∈ goOperators) :
    lexemes (p.print (.binary l op r)) =
      lexemes (Operand.within ⟨l, p.print l⟩ .go op.precedence) ++ .sign op.symbol ::
        lexemes (Operand.within ⟨r, p.print r⟩ .go (op.precedence + 1)) := by
  have hprint : p.print (.binary l op r) =
      Operand.within ⟨l, p.print l⟩ .go op.precedence ++ " " ++ op.symbol ++ " " ++
        Operand.within ⟨r, p.print r⟩ .go (op.precedence + 1) := by
    cases op <;>
      first | exact absurd hop (by decide) | simp [print, binary, plain, hd, binarySymbol]
  have hsymbols : ∀ op ∈ goOperators, lexemes op.symbol = [.sign op.symbol] := by decide
  rw [hprint, lexemes_spaced, lexemes_spaced, hsymbols op hop, List.append_assoc]
  rfl

theorem Covers.within {s : String} (h : Covers (lexemes s) e) (d : Dialect) (least : Nat) :
    Covers (lexemes (Operand.within ⟨e, s⟩ d least)) e := by
  unfold Operand.within
  split
  · rw [lexemes_round]
    exact ⟨h.balanced.group, by simp, by simpa [List.countP_cons, isSign] using h.count⟩
  · exact h

theorem covers_print (hd : p.dialect = .go) : ∀ {e : Expr}, isBitFormula e = true →
    Covers (lexemes (p.print e)) e
  | .const (.int n), h => (phrase_natural (t := goTable) (of_decide_eq_true h) 0).covers
  | .name s, h => (phrase_word (t := goTable) h 0).covers
  | .binary l op r, h => by
    simp only [isBitFormula, Bool.and_eq_true, decide_eq_true_eq] at h
    have hl := (covers_print hd h.1.2).within .go op.precedence
    have hr := (covers_print hd h.2).within .go (op.precedence + 1)
    rw [lexemes_binary hd h.1.1]
    refine ⟨hl.balanced.append (hr.balanced.sign _), by simp, ?_⟩
    simp [List.countP_cons, isSign, operators, hl.count, hr.count, Nat.add_assoc]

/-! Reading -/

/-- An operand is read as itself if it keeps its level and is read as itself alone. -/
theorem phrase_within_iff {least k : Nat} (hcovers : Covers (lexemes (p.print e)) e)
    (h : ∀ n ≤ 6, Phrase goTable n (lexemes (p.print e)) e ↔
      n ≤ goLevelOf e ∧ e.anyNode splits = false) (hk : k ≤ 6) :
    Phrase goTable k (lexemes (Operand.within ⟨e, p.print e⟩ .go least)) e ↔
      holds least k e = true ∧ e.anyNode splits = false := by
  unfold Operand.within holds
  split
  next hloose =>
    rw [lexemes_round, phrase_group_iff hcovers.balanced, h 0 (by omega), hloose]
    simp
  next htight =>
    rw [h k hk, Bool.eq_false_iff.mpr htight, Bool.false_or, decide_eq_true_eq]

theorem phrase_print_iff (hd : p.dialect = .go) : ∀ {e : Expr}, isBitFormula e = true →
    ∀ n ≤ 6, Phrase goTable n (lexemes (p.print e)) e ↔
      n ≤ goLevelOf e ∧ e.anyNode splits = false
  | .const (.int m), h, n, hn => by
    have hphrase := phrase_natural (t := goTable) (of_decide_eq_true h) n
    exact iff_of_true hphrase ⟨hn, rfl⟩
  | .name s, h, n, hn => iff_of_true (phrase_word h n) ⟨hn, rfl⟩
  | .binary l op r, h, n, hn => by
    simp only [isBitFormula, Bool.and_eq_true, decide_eq_true_eq] at h
    obtain ⟨⟨hop, hl⟩, hr⟩ := h
    have hlookup : ∀ op ∈ goOperators,
        goTable.joints.lookup op.symbol = some (.binary op, goLevel op) ∧ goLevel op < 6 := by
      decide
    obtain ⟨hsymbol, hlevel⟩ := hlookup op hop
    have hcovers := (covers_print hd hl).within .go op.precedence
    have hleft : goTable.left (goLevel op) = goLevel op := rfl
    rw [lexemes_binary hd hop, phrase_joint_iff hsymbol hcovers, hleft,
      phrase_within_iff (covers_print hd hl) (phrase_print_iff hd hl) (by omega),
      phrase_within_iff (covers_print hd hr) (phrase_print_iff hd hr) (by omega),
      holds_left hop hl, holds_right hop hr]
    simp only [Expr.anyNode, splits, goLevelOf, Bool.or_eq_false_iff, Bool.not_eq_true']
    grind

/-- A formula is read as itself in Go if and only if no node of it splits an operand: wherever a
sum or a product stands without brackets beside a bitwise operator that binds as tightly, the text
is read as another tree, and everywhere else the brackets keep every operand together. -/
theorem read_print_go_iff (p : Printer) (hd : p.dialect = .go) (e : Expr)
    (h : isBitFormula e = true) :
    read goTable (p.print e) = some e ↔ e.anyNode splits = false := by
  rw [read_eq_some_iff, phrase_print_iff hd h 0 (by omega)]
  simp

end

/-- The tree of `(a & b) + x * (c | d << 2)`. -/
def packedBits : Expr :=
  .binary (.binary (.name "a") .bitAnd (.name "b")) .add (.binary (.name "x") .mul
    (.binary (.name "c") .bitOr (.binary (.name "d") .shl (.const (.int 2)))))

theorem read_print_go_iff_packed :
    isBitFormula packedBits = true ∧
      print { dialect := .go } packedBits = "(a & b) + x * (c | (d << 2))" ∧
      read goTable "(a & b) + x * (c | (d << 2))" = some packedBits := by
  have hformula : isBitFormula packedBits = true := by decide
  have hprint : print { dialect := .go } packedBits = "(a & b) + x * (c | (d << 2))" := by decide
  have hread := (read_print_go_iff { dialect := .go } rfl packedBits hformula).mpr (by decide)
  rw [hprint] at hread
  exact ⟨hformula, hprint, hread⟩

/-- The tree of `a + b & c` in the source. -/
def maskedSum : Expr :=
  .binary (.binary (.name "a") .add (.name "b")) .bitAnd (.name "c")

/-- The sum is written without brackets, and in Go the mask belongs to its second summand. -/
theorem read_print_go_maskedSum :
    isBitFormula maskedSum = true ∧ print { dialect := .go } maskedSum = "a + b & c" ∧
      read goTable (print { dialect := .go } maskedSum) =
        some (.binary (.name "a") .add (.binary (.name "b") .bitAnd (.name "c"))) ∧
      read goTable (print { dialect := .go } maskedSum) ≠ some maskedSum := by
  have hprint : print { dialect := .go } maskedSum = "a + b & c" := by decide
  have hlexemes : lexemes "a + b & c" =
      [.name "a"] ++ .sign "+" :: ([.name "b"] ++ .sign "&" :: [.name "c"]) := by decide
  have hmask : Phrase goTable 5 ([.name "b"] ++ .sign "&" :: [.name "c"])
      (Joint.node (.binary .bitAnd) (.name "b") (.name "c")) :=
    .joint (by decide) (Nat.le_refl 5) (.name _ _) (.name _ _)
  have hread : read goTable "a + b & c" =
      some (.binary (.name "a") .add (.binary (.name "b") .bitAnd (.name "c"))) := by
    rw [read_eq_some_iff, hlexemes]
    exact .joint (j := .binary .add) (k := 4) (by decide) (by decide) (.name _ _) hmask
  rw [hprint, hread]
  exact ⟨by decide, rfl, rfl, by simp [maskedSum]⟩

end Comprehend.Formula
