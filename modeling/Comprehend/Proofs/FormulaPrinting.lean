import Comprehend.Dialect.Print
import Comprehend.Proofs.Formula

/-! Formulas in print. The source has `not` below the comparisons and lets comparisons follow one
another; in the targets `!` binds more tightly than every operator between two operands, and a
comparison stands alone. Brackets by the precedences of the source keep every formula together. -/
namespace Comprehend.Formula

open Printer

def cFamily : List Dialect :=
  [.rust, .typescript, .go, .csharp]

/-- The operators that the targets of this family share; only equality is spelled in two ways. -/
def cTable (d : Dialect) : Table where
  joints :=
    [("||", .truth .or, 0), ("&&", .truth .and, 1),
      (if d = .typescript then "===" else "==", .comparison .eq, 2),
      (if d = .typescript then "!==" else "!=", .comparison .notEq, 2),
      ("<", .comparison .lt, 2), (">", .comparison .gt, 2), ("<=", .comparison .ltEq, 2),
      (">=", .comparison .gtEq, 2), ("+", .binary .add, 3), ("-", .binary .sub, 3),
      ("*", .binary .mul, 4), ("/", .binary .div, 4)]
  single := [2]
  leads := [("-", .neg), ("!", .not)]
  height := 5
  bounded := by simp

/-- Names and integers, the least one left out, under arithmetic, comparisons and truth values. -/
def isFormula : Expr → Bool
  | .const (.int n) => -0x8000000000000000 < n.toInt
  | .name s => isWord s
  | .unary op e => op ∈ [.neg, .not] && isFormula e
  | .binary l op r => op ∈ [.add, .sub, .mul, .div] && isFormula l && isFormula r
  | .boolOp _ l r => isFormula l && isFormula r
  | .compare l op r =>
    op ∈ [.eq, .notEq, .lt, .gt, .ltEq, .gtEq] && isFormula l && isFormula r
  | _ => false

/-- A negative integer becomes a minus sign and its absolute value. -/
def unsigned : Expr → Expr
  | .const (.int n) =>
    if n.toInt < 0 then .unary .neg (.const (.int (-n))) else .const (.int n)
  | .unary op e => .unary op (unsigned e)
  | .binary l op r => .binary (unsigned l) op (unsigned r)
  | .boolOp op l r => .boolOp op (unsigned l) (unsigned r)
  | .compare l op r => .compare (unsigned l) op (unsigned r)
  | e => e

/-- The level in the targets of what binds with a precedence of the source. -/
def cLevel (precedence : Nat) : Nat :=
  if precedence ≤ 2 then 0 else if precedence = 3 then 1 else if precedence ≤ 5 then 2
  else if precedence ≤ 10 then 3 else if precedence = 11 then 4 else 5

theorem cLevel_mono {m n : Nat} (h : m ≤ n) : cLevel m ≤ cLevel n := by
  unfold cLevel
  grind

section

variable {p : Printer} {d : Dialect} {e : Expr} {o : Operand}

theorem eq_of_mem_cFamily (hd : d ∈ cFamily) :
    d = .rust ∨ d = .typescript ∨ d = .go ∨ d = .csharp := by
  simpa [cFamily] using hd

theorem isDelicate_of_isFormula (hd : d ∈ cFamily) (h : isFormula e = true) :
    Operand.isDelicate d e = false := by
  cases e with
  | binary l op r =>
    simp only [isFormula, Bool.and_eq_true, decide_eq_true_eq] at h
    have hop := h.1.1
    cases op <;> first | rfl | exact absurd hop (by decide)
  | boolOp op l r => rcases eq_of_mem_cFamily hd with rfl | rfl | rfl | rfl <;> rfl
  | _ => rfl

def Written (d : Dialect) (o : Operand) : Prop :=
  isFormula o.expr = true ∧
    Phrase (cTable d) (cLevel o.expr.precedence) (lexemes o.text) (unsigned o.expr)

theorem Written.within (hd : d ∈ cFamily) (h : Written d o) (least : Nat) :
    Phrase (cTable d) (cLevel least) (lexemes (o.within d least)) (unsigned o.expr) := by
  unfold Operand.within
  rw [isDelicate_of_isFormula hd h.1, Bool.or_false]
  split
  · exact (h.2.mono (Nat.zero_le _)).round _
  next hbinds =>
    refine h.2.mono (cLevel_mono ?_)
    simpa using hbinds

/-- Whatever binds less tightly than a name or a natural number stands in brackets here. -/
theorem startsOperand_within (h : isFormula e = true) :
    startsOperand (Operand.within ⟨e, p.print e⟩ d 14) = true := by
  unfold Operand.within
  split
  · exact startsOperand_round _
  next hbinds =>
    have htight : 14 ≤ e.precedence := by
      simp only [Bool.or_eq_true, decide_eq_true_eq] at hbinds
      omega
    cases e with
    | const l =>
      cases l with
      | int n =>
        have hn : 0 ≤ n.toInt := Int.not_lt.mp fun hneg => by
          simp [Expr.precedence, hneg] at htight
        exact startsOperand_natural hn
      | _ => cases h
    | name s => exact startsOperand_word h
    | unary op x => cases op <;> simp [Expr.precedence] at htight
    | binary l op r => cases op <;> simp [Expr.precedence, BinOp.precedence] at htight
    | boolOp op l r => cases op <;> simp [Expr.precedence] at htight
    | compare l op r => simp [Expr.precedence] at htight
    | _ => cases h

/-! One node -/

def isLead (d : Dialect) (s : String) (op : UnaryOp) : Bool :=
  (cTable d).leads.lookup s == some op && s.toList.length == 1 && s.toList.all isSignChar &&
    lexemes s == [.sign s]

theorem of_isLead {s : String} {op : UnaryOp} (h : isLead d s op = true) :
    ∃ c, s.toList = [c] ∧ isSignChar c = true ∧ ofRun [c] = [.sign s] ∧
      (cTable d).leads.lookup s = some op := by
  simp only [isLead, Bool.and_eq_true, beq_iff_eq] at h
  obtain ⟨⟨⟨hlead, hlength⟩, hsign⟩, hlexeme⟩ := h
  obtain ⟨c, hc⟩ := List.length_eq_one_iff.mp hlength
  refine ⟨c, hc, by simpa [hc] using hsign, ?_, hlead⟩
  simpa [lexemes, hc, scan] using hlexeme

theorem phrase_const {n : Int64} (h : -0x8000000000000000 < n.toInt) (k : Nat) :
    Phrase (cTable d) k (lexemes (toString n.toInt)) (unsigned (.const (.int n))) := by
  by_cases hneg : n.toInt < 0
  · have habs : (-n).toInt = -n.toInt := by
      have hlt := n.toInt_lt
      rw [Int64.toInt_neg, Int.bmod_eq_of_le (by omega) (by omega)]
    have htext : toString n.toInt = "-" ++ toString (-n).toInt := by
      apply String.toList_inj.mp
      rw [Token.toList_toString_neg hneg, habs, String.toList_append]
      rfl
    have hnumber := phrase_natural (t := cTable d) (a := -n) (by omega) (cTable d).height
    rw [unsigned, if_pos hneg, htext,
      lexemes_signed rfl (by decide) (startsOperand_natural (by omega))]
    exact .lead k (by rfl) hnumber
  · rw [unsigned, if_neg hneg]
    exact phrase_natural (by omega) k

theorem phrase_unary (hd : p.dialect ∈ cFamily) {op : UnaryOp} (hop : op ∈ [.neg, .not])
    (h : Written p.dialect ⟨e, p.print e⟩) (k : Nat) :
    Phrase (cTable p.dialect) k (lexemes (p.unary op ⟨e, p.print e⟩)) (.unary op (unsigned e)) := by
  have hmarks : ∀ d ∈ cFamily, ∀ op ∈ [UnaryOp.neg, .not],
      isLead d (signMark d op) op = true := by decide
  obtain ⟨c, hc, hsign, hlexeme, hlead⟩ := of_isLead (hmarks _ hd op hop)
  have htext : p.unary op ⟨e, p.print e⟩ =
      signMark p.dialect op ++ Operand.within ⟨e, p.print e⟩ p.dialect 14 := by
    cases op <;> first | rfl | exact absurd hop (by decide)
  rw [htext, lexemes_signed hc hsign (startsOperand_within h.1), hlexeme]
  exact .lead k hlead (h.within hd 14)

/-- The operator between two operands, where operands have the right level if they bind at least as
tightly as `left` and `right` say. -/
def isJoint (d : Dialect) (s : String) (j : Joint) (q left right : Nat) : Bool :=
  (cTable d).joints.lookup s == some (j, cLevel q) && lexemes s == [.sign s] &&
    cLevel left == (cTable d).left (cLevel q) && cLevel right == cLevel q + 1

theorem phrase_joint {x y : Operand} {j : Joint} {s : String} {q left right : Nat}
    (hd : d ∈ cFamily) (h : isJoint d s j q left right = true) (hx : Written d x)
    (hy : Written d y) :
    Phrase (cTable d) (cLevel q) (lexemes (x.within d left ++ " " ++ s ++ " " ++ y.within d right))
      (j.node (unsigned x.expr) (unsigned y.expr)) := by
  simp only [isJoint, Bool.and_eq_true, beq_iff_eq] at h
  obtain ⟨⟨⟨hs, hsign⟩, hleft⟩, hright⟩ := h
  have hl := hx.within hd left
  have hr := hy.within hd right
  rw [hleft] at hl
  rw [hright] at hr
  exact Phrase.spaced hs hsign hl hr

theorem phrase_binary {x y : Operand} (hd : p.dialect ∈ cFamily) {op : BinOp}
    (hop : op ∈ [.add, .sub, .mul, .div]) (hx : Written p.dialect x) (hy : Written p.dialect y) :
    Phrase (cTable p.dialect) (cLevel op.precedence) (lexemes (p.binary x op y))
      (.binary (unsigned x.expr) op (unsigned y.expr)) := by
  have hsymbols : ∀ d ∈ cFamily, ∀ op ∈ [BinOp.add, .sub, .mul, .div],
      isJoint d (binarySymbol d op) (.binary op) op.precedence op.precedence (op.precedence + 1) =
        true := by decide
  have htext : p.binary x op y = x.within p.dialect op.precedence ++ " " ++
      binarySymbol p.dialect op ++ " " ++ y.within p.dialect (op.precedence + 1) := by
    cases op <;> first | rfl | exact absurd hop (by decide)
  rw [htext]
  exact phrase_joint hd (hsymbols _ hd op hop) hx hy

theorem phrase_boolOp {x y : Operand} (hd : p.dialect ∈ cFamily) (op : BoolOp)
    (hx : Written p.dialect x) (hy : Written p.dialect y) :
    Phrase (cTable p.dialect) (cLevel (boolPrecedence op)) (lexemes (p.boolOp op x y))
      (.boolOp op (unsigned x.expr) (unsigned y.expr)) := by
  have hsymbols : ∀ d ∈ cFamily, ∀ op ∈ [BoolOp.and, .or],
      isJoint d (boolSymbol d op) (.truth op) (boolPrecedence op) (boolPrecedence op)
        (boolPrecedence op + 1) = true := by decide
  have hplain : ∀ d ∈ cFamily, d.isDotted = false := by decide
  have htext : p.boolOp op x y = x.within p.dialect (boolPrecedence op) ++ " " ++
      boolSymbol p.dialect op ++ " " ++ y.within p.dialect (boolPrecedence op + 1) := by
    simp [boolOp, hplain _ hd]
  rw [htext]
  exact phrase_joint hd (hsymbols _ hd op (by cases op <;> decide)) hx hy

theorem phrase_compare {x y : Operand} {items : List Operand} (hd : p.dialect ∈ cFamily)
    {op : CmpOp} (hop : op ∈ [.eq, .notEq, .lt, .gt, .ltEq, .gtEq]) (hx : Written p.dialect x)
    (hy : Written p.dialect y) :
    Phrase (cTable p.dialect) (cLevel 5) (lexemes (p.compare x op y items))
      (.compare (unsigned x.expr) op (unsigned y.expr)) := by
  have hsymbols : ∀ d ∈ cFamily, ∀ op ∈ [CmpOp.eq, .notEq, .lt, .gt, .ltEq, .gtEq],
      isJoint d (compareSymbol d op) (.comparison op) 5 6 6 = true := by decide
  have htext : p.compare x op y items = x.within p.dialect 6 ++ " " ++
      compareSymbol p.dialect op ++ " " ++ y.within p.dialect 6 := by
    cases op <;> first | rfl | exact absurd hop (by decide)
  rw [htext]
  exact phrase_joint hd (hsymbols _ hd op hop) hx hy

/-! Trees -/

theorem phrase_print (hd : p.dialect ∈ cFamily) : ∀ {e : Expr}, isFormula e = true →
    Phrase (cTable p.dialect) (cLevel e.precedence) (lexemes (p.print e)) (unsigned e)
  | .const (.int n), h => phrase_const (by simpa [isFormula] using h) _
  | .name s, h => phrase_word h _
  | .unary op e, h => by
    simp only [isFormula, Bool.and_eq_true, decide_eq_true_eq] at h
    exact phrase_unary hd h.1 ⟨h.2, phrase_print hd h.2⟩ _
  | .binary l op r, h => by
    simp only [isFormula, Bool.and_eq_true, decide_eq_true_eq] at h
    have hl : Written p.dialect ⟨l, p.print l⟩ := ⟨h.1.2, phrase_print hd h.1.2⟩
    have hr : Written p.dialect ⟨r, p.print r⟩ := ⟨h.2, phrase_print hd h.2⟩
    exact phrase_binary hd h.1.1 hl hr
  | .boolOp op l r, h => by
    simp only [isFormula, Bool.and_eq_true] at h
    have hl : Written p.dialect ⟨l, p.print l⟩ := ⟨h.1, phrase_print hd h.1⟩
    have hr : Written p.dialect ⟨r, p.print r⟩ := ⟨h.2, phrase_print hd h.2⟩
    have hnode := phrase_boolOp hd op hl hr
    cases op <;> exact hnode
  | .compare l op r, h => by
    simp only [isFormula, Bool.and_eq_true, decide_eq_true_eq] at h
    have hl : Written p.dialect ⟨l, p.print l⟩ := ⟨h.1.2, phrase_print hd h.1.2⟩
    have hr : Written p.dialect ⟨r, p.print r⟩ := ⟨h.2, phrase_print hd h.2⟩
    exact phrase_compare hd h.1.1 hl hr

/-- Printing keeps formulas together. In every target of the family, the text of a formula is read
by the precedences of the target as the formula itself, up to negative integers, which are read as
minus signs before their absolute values. -/
theorem read_print_formula (p : Printer) (hd : p.dialect ∈ cFamily) (e : Expr)
    (h : isFormula e = true) : read (cTable p.dialect) (p.print e) = some (unsigned e) :=
  read_eq_some_iff.mpr ((phrase_print hd h).mono (Nat.zero_le _))

/-- The tree of `not a == -5 and -x * (y - (z - 1)) < 3 or c`. -/
def mixedFormula : Expr :=
  .boolOp .or (.boolOp .and (.unary .not (.compare (.name "a") .eq (.const (.int (-5)))))
    (.compare (.binary (.unary .neg (.name "x")) .mul (.binary (.name "y") .sub
      (.binary (.name "z") .sub (.const (.int 1))))) .lt (.const (.int 3)))) (.name "c")

theorem read_print_formula_typescript :
    isFormula mixedFormula = true ∧
      print { dialect := .typescript } mixedFormula =
        "!(a === -5) && -x * (y - (z - 1)) < 3 || c" ∧
      read (cTable .typescript) "!(a === -5) && -x * (y - (z - 1)) < 3 || c" =
        some (unsigned mixedFormula) := by
  have hformula : isFormula mixedFormula = true := by decide
  have hprint : print { dialect := .typescript } mixedFormula =
      "!(a === -5) && -x * (y - (z - 1)) < 3 || c" := by decide
  have hread := read_print_formula { dialect := .typescript } (by decide) mixedFormula hformula
  rw [hprint] at hread
  exact ⟨hformula, hprint, hread⟩

end

end Comprehend.Formula
