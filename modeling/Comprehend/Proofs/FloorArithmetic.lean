import Mathlib
import Comprehend.Dialect.Print
import Comprehend.Proofs.Spelling

/-! Integer arithmetic across languages. Source quotients and remainders round to the floor, those
of most targets toward zero. Whatever a printer for such a target writes for an arithmetic
expression can be read again, and has the same value by the target's operators. -/
namespace Comprehend

/-! Values -/

def BinOp.isArithmetic : BinOp → Bool
  | add | sub | mul | floorDiv | mod => true
  | _ => false

namespace Expr

/-- Integers and names under minus signs, sums, differences, products, floor quotients and
remainders. -/
def isArithmetic : Expr → Bool
  | .const (.int _) => true
  | .name _ => true
  | .unary .neg e => isArithmetic e
  | .binary l op r => op.isArithmetic && isArithmetic l && isArithmetic r
  | _ => false

/-- The value of an expression over the unbounded integers, where `meaning` says what the binary
operators compute and `env` what the names stand for. -/
def value (meaning : BinOp → Int → Int → Option Int) (env : String → Int) : Expr → Option Int
  | .const (.int n) => some n.toInt
  | .name n => some (env n)
  | .unary .neg e => (value meaning env e).map (- ·)
  | .binary l op r =>
    (value meaning env l).bind fun a => (value meaning env r).bind fun b => meaning op a b
  | _ => none

theorem value_binary {meaning : BinOp → Int → Int → Option Int} {env : String → Int} {l r : Expr}
    {op : BinOp} {v : Int} :
    value meaning env (.binary l op r) = some v ↔
      ∃ a b, value meaning env l = some a ∧ value meaning env r = some b ∧
        meaning op a b = some v := by
  simp [value, Option.bind_eq_some_iff]

end Expr

def divided (f : Int → Int → Int) (a b : Int) : Option Int :=
  if b = 0 then none else some (f a b)

theorem divided_eq_some {f : Int → Int → Int} {a b v : Int} :
    divided f a b = some v ↔ b ≠ 0 ∧ f a b = v := by
  simp [divided]

/-- The operators of the source: quotients round down, and remainders have the sign of the
divisor. -/
def floors : BinOp → Int → Int → Option Int
  | .add, a, b => some (a + b)
  | .sub, a, b => some (a - b)
  | .mul, a, b => some (a * b)
  | .floorDiv, a, b => divided Int.fdiv a b
  | .mod, a, b => divided Int.fmod a b
  | _, _, _ => none

/-- The operators of the targets: quotients round toward zero, and remainders have the sign of the
dividend. -/
def truncates : BinOp → Int → Int → Option Int
  | .add, a, b => some (a + b)
  | .sub, a, b => some (a - b)
  | .mul, a, b => some (a * b)
  | .div, a, b => divided Int.tdiv a b
  | .mod, a, b => divided Int.tmod a b
  | _, _, _ => none

/-- Only differences of numbers that are not negative may be negative. -/
theorem floors_nonneg {op : BinOp} {a b v : Int} (ha : 0 ≤ a) (hb : 0 ≤ b) (hop : op ≠ .sub)
    (h : floors op a b = some v) : 0 ≤ v := by
  unfold floors at h
  split at h
  · obtain rfl := Option.some.inj h
    omega
  · exact absurd rfl hop
  · obtain rfl := Option.some.inj h
    exact Int.mul_nonneg ha hb
  · obtain ⟨-, rfl⟩ := divided_eq_some.mp h
    exact Int.fdiv_nonneg ha hb
  · obtain ⟨-, rfl⟩ := divided_eq_some.mp h
    exact Int.fmod_nonneg ha hb
  · simp at h

namespace Expr

def divisors : Expr → List Expr
  | .unary _ e => divisors e
  | .binary l op r =>
    divisors l ++ divisors r ++ if op = .floorDiv ∨ op = .mod then [r] else []
  | _ => []

theorem floors_eq_some {op : BinOp} (hop : op.isArithmetic = true) {a b : Int}
    (hb : op = .floorDiv ∨ op = .mod → b ≠ 0) : ∃ v, floors op a b = some v := by
  cases op <;> simp_all [BinOp.isArithmetic, floors, divided]

/-- An arithmetic expression has a value unless a divisor is zero. -/
theorem exists_value {env : String → Int} : ∀ {e : Expr}, e.isArithmetic = true →
    (∀ d ∈ divisors e, value floors env d ≠ some 0) → ∃ v, value floors env e = some v
  | .const (.int n), _, _ => ⟨_, rfl⟩
  | .name n, _, _ => ⟨_, rfl⟩
  | .unary .neg e, ha, hd => by
    obtain ⟨v, hv⟩ := exists_value (e := e) ha hd
    exact ⟨-v, by simp [value, hv]⟩
  | .binary l op r, ha, hd => by
    simp only [isArithmetic, Bool.and_eq_true] at ha
    simp only [divisors, List.mem_append, or_imp, forall_and] at hd
    obtain ⟨a, hl⟩ := exists_value ha.1.2 hd.1.1
    obtain ⟨b, hr⟩ := exists_value ha.2 hd.1.2
    have hb : op = .floorDiv ∨ op = .mod → b ≠ 0 := by
      rintro hop rfl
      exact hd.2 r (by simp [hop]) hr
    obtain ⟨v, hv⟩ := floors_eq_some ha.1.1 hb
    exact ⟨v, value_binary.mpr ⟨a, b, hl, hr, hv⟩⟩

end Expr

/-! Rounding down with operators that truncate -/

theorem tmod_add_tmod {a b : Int} (hb : b ≠ 0) : (a.tmod b + b).tmod b = a.fmod b := by
  have hpos {a b : Int} (hb : 0 < b) : (a.tmod b + b).tmod b = a.fmod b := by
    have hlow := Int.lt_tmod_of_pos a hb
    rw [Int.tmod_eq_emod_of_nonneg (by omega), Int.fmod_eq_emod_of_nonneg a (by omega),
      Int.add_emod_right, Int.tmod_def, Int.sub_mul_emod_self_left]
  rcases Int.lt_or_gt_of_ne hb with hneg | hpos'
  · -- both sides change their sign with that of both operands
    have h := hpos (a := -a) (b := -b) (by omega)
    rw [Int.neg_fmod_neg, Int.tmod_neg, Int.tmod_neg, Int.neg_tmod, ← Int.neg_add,
      Int.neg_tmod] at h
    omega
  · exact hpos hpos'

theorem sub_fmod_tdiv {a b : Int} (hb : b ≠ 0) : (a - a.fmod b).tdiv b = a.fdiv b := by
  have h := Int.mul_fdiv_add_fmod a b
  rw [show a - a.fmod b = b * a.fdiv b by omega, Int.mul_tdiv_cancel_left _ hb]

/-! The expression that a printed text is -/

namespace Printer

open Comprehend.Expr

def remainderTree (a b : Expr) : Expr :=
  .binary (.binary (.binary a .mod b) .add b) .mod b

/-- The expression that the target reads, in the notation of the source. -/
def target (p : Printer) : Expr → Expr
  | .unary op e => signed op (target p e)
  | .binary l op r =>
    let a := target p l
    let b := target p r
    if p.isNonNegative l && p.isNonNegative r then
      .binary a (if op = .floorDiv then .div else op) b
    else
      match op with
      | .floorDiv => .binary (.binary a .sub (remainderTree a b)) .div b
      | .mod => remainderTree a b
      | op => .binary a op b
  | e => e

variable {p : Printer} {env : String → Int}

theorem pos_of_isPositive {meaning : BinOp → Int → Int → Option Int} {e : Expr} {v : Int}
    (h : e.isPositive = true) (hv : value meaning env e = some v) : 0 < v := by
  unfold isPositive at h
  split at h
  · simp_all [value]
  · simp at h

theorem nonneg_of_isNonNegative (henv : ∀ n ∈ p.nonNegative, 0 ≤ env n) {e : Expr} {v : Int}
    (h : p.isNonNegative e = true) (hv : value floors env e = some v) : 0 ≤ v := by
  fun_induction isNonNegative p e generalizing v with
  | case1 n => simp_all [value]
  | case2 n =>
    obtain rfl : env n = v := by simpa [value] using hv
    exact henv n (by simpa using h)
  | case3 l r ihl ihr =>
    obtain ⟨a, b, ha, hb, hab⟩ := value_binary.mp hv
    simp only [Bool.or_eq_true, Bool.and_eq_true] at h
    rcases h with hpos | ⟨hl, hr⟩
    · obtain ⟨-, rfl⟩ := divided_eq_some.mp hab
      exact Int.fmod_nonneg_of_pos a (pos_of_isPositive hpos hb)
    · exact floors_nonneg (ihl hl ha) (ihr hr hb) (by decide) hab
  | case4 l r ihl ihr | case5 l r ihl ihr | case6 l r ihl ihr | case7 l r ihl ihr =>
    obtain ⟨a, b, ha, hb, hab⟩ := value_binary.mp hv
    simp only [Bool.and_eq_true] at h
    exact floors_nonneg (ihl h.1 ha) (ihr h.2 hb) (by decide) hab
  | case8 | case9 => simp at h

theorem value_signed (e : Expr) :
    value truncates env (signed .neg e) = (value truncates env e).map (- ·) := by
  unfold signed
  split
  next =>
    split
    next m hm => simp [value, Number.toInt_of_int64? hm]
    next => rfl
  next => rfl

/-- Between numbers that are not negative, operators that truncate compute what the source means. -/
theorem truncates_of_nonneg {op : BinOp} {a b v : Int} (ha : 0 ≤ a) (hb : 0 ≤ b)
    (h : floors op a b = some v) :
    truncates (if op = .floorDiv then .div else op) a b = some v := by
  unfold floors at h
  split at h <;> simp_all [truncates, divided_eq_some]
  · rw [← h.2, Int.fdiv_eq_tdiv_of_nonneg ha hb]
  · rw [← h.2, Int.fmod_eq_emod_of_nonneg a hb, Int.tmod_eq_emod_of_nonneg ha]

theorem value_remainderTree {l r : Expr} {a b : Int} (ha : value truncates env l = some a)
    (hb : value truncates env r = some b) (hne : b ≠ 0) :
    value truncates env (remainderTree l r) = some (a.fmod b) := by
  simp [remainderTree, value, ha, hb, truncates, divided, hne, tmod_add_tmod hne]

/-- What the target reads has the value of the source. -/
theorem value_target (henv : ∀ n ∈ p.nonNegative, 0 ≤ env n) :
    ∀ {e : Expr} {v : Int}, value floors env e = some v → value truncates env (p.target e) = some v
  | .const (.int n), v, h => h
  | .name n, v, h => h
  | .unary .neg e, v, h => by
    obtain ⟨a, ha, rfl⟩ := Option.map_eq_some_iff.mp h
    simp [target, value_signed, value_target henv ha]
  | .binary l op r, v, h => by
    obtain ⟨a, b, ha, hb, hab⟩ := value_binary.mp h
    have hl := value_target henv ha
    have hr := value_target henv hb
    simp only [target]
    split
    next hnonneg =>
      simp only [Bool.and_eq_true] at hnonneg
      exact value_binary.mpr ⟨a, b, hl, hr, truncates_of_nonneg
        (nonneg_of_isNonNegative henv hnonneg.1 ha) (nonneg_of_isNonNegative henv hnonneg.2 hb) hab⟩
    next =>
      split
      next =>
        obtain ⟨hne, rfl⟩ := divided_eq_some.mp hab
        refine value_binary.mpr ⟨a - a.fmod b, b, ?_, hr, ?_⟩
        · exact value_binary.mpr ⟨a, _, hl, value_remainderTree hl hr hne, rfl⟩
        · exact divided_eq_some.mpr ⟨hne, sub_fmod_tdiv hne⟩
      next =>
        obtain ⟨hne, rfl⟩ := divided_eq_some.mp hab
        exact value_remainderTree hl hr hne
      next hquotient hremainder =>
        refine value_binary.mpr ⟨a, b, hl, hr, ?_⟩
        cases op <;> simp_all [floors, truncates]

/-! The printed text -/

open Grammar Token

variable {s t : List Char} {l r e : Expr}

theorem prints_remainder (hl : Prints 11 s l) (hr : Prints 12 t r) :
    Prints 11 ('(' :: (s ++ ' ' :: '%' :: ' ' :: (t ++ ' ' :: '+' :: ' ' :: (t ++ ')' ::
      ' ' :: '%' :: ' ' :: t)))) (remainderTree l r) := by
  have hmod := Prints.binary isSymbol_mod (by decide) hl hr
  have hsum := Prints.binary isSymbol_add (by decide) (hmod.loosen (by decide) (by decide))
    (hr.loosen (by decide) (by decide))
  have hgroup := hsum.round (by decide)
  simpa [remainderTree] using
    Prints.binary isSymbol_mod (by decide) (hgroup.loosen (by decide) (by decide)) hr

/-- The quotient that rounds down, in brackets. -/
theorem prints_quotient (hl : Prints 11 s l) (hr : Prints 12 t r) :
    Prints 14 ('(' :: '(' :: (s ++ ' ' :: '-' :: ' ' :: '(' :: (s ++ ' ' :: '%' :: ' ' ::
      (t ++ ' ' :: '+' :: ' ' :: (t ++ ')' :: ' ' :: '%' :: ' ' :: (t ++ ')' :: ' ' :: '/' :: ' ' ::
        (t ++ [')'])))))))
      (.binary (.binary l .sub (remainderTree l r)) .div r) := by
  have hdifference := Prints.binary isSymbol_sub (by decide) (hl.loosen (by decide) (by decide))
    (prints_remainder hl hr)
  have hgroup := hdifference.round (by decide)
  have hquotient := Prints.binary isSymbol_div (by decide)
    (hgroup.loosen (by decide) (by decide)) hr
  simpa using hquotient.round (by decide)

theorem isDelicate_of_isArithmetic (h : e.isArithmetic = true) (d : Dialect) :
    Operand.isDelicate d e = false := by
  cases e with
  | binary l op r => cases op <;> simp_all [isArithmetic, BinOp.isArithmetic, Operand.isDelicate,
      BinOp.isBitwise]
  | boolOp op l r => simp [isArithmetic] at h
  | _ => rfl

theorem precedence_of_isArithmetic (h : e.isArithmetic = true) : 6 ≤ e.precedence := by
  cases e with
  | const c =>
    cases c with
    | int n => simp only [precedence]; split <;> omega
    | _ => simp [isArithmetic] at h
  | unary op e => cases op <;> simp_all [isArithmetic, precedence]
  | binary l op r => cases op <;> simp_all [isArithmetic, BinOp.isArithmetic, precedence,
      BinOp.precedence]
  | _ => simp_all [isArithmetic, precedence]

def Written (o : Operand) (e : Expr) : Prop :=
  o.expr.isArithmetic = true ∧ Prints o.expr.precedence o.text.toList e

/-- An operand gets brackets where it would bind too loosely. -/
theorem Written.within {o : Operand} (h : Written o e) (d : Dialect) {least : Nat}
    (hlow : 6 ≤ least) (hhigh : least ≤ 14) : Prints least (o.within d least).toList e := by
  obtain ⟨ha, h⟩ := h
  simp only [Operand.within, isDelicate_of_isArithmetic ha, Bool.or_false, decide_eq_true_eq]
  split
  · have hround := h.round (precedence_of_isArithmetic ha)
    simpa [Comprehend.round] using hround.loosen hlow hhigh
  · exact h.loosen hlow (by omega)

/-- The targets whose operators truncate and whose texts keep the notation of the source. -/
def truncating : List Dialect :=
  [.go, .csharp, .sqlite, .postgres]

/-- What a scanned text makes sure of: a name is a name, and the negative of an integer is one. -/
def Readable : Expr → Prop :=
  LeafWise (fun n => -0x8000000000000000 < n.toInt) (isName · = true)

variable {x y : Operand} {a b : Expr} {op : BinOp}

theorem binarySymbol_truncating (hd : p.dialect ∈ truncating) (hop : op.isArithmetic = true) :
    ∃ c n, (binarySymbol p.dialect op).toList = [c] ∧ op.precedence = n + 6 ∧ n ≤ 5 ∧
      IsSymbol c (if op = .floorDiv then .div else op) n := by
  have hsymbol : binarySymbol p.dialect op =
      (if op = .floorDiv then .div else op : BinOp).symbol := by
    simp only [truncating, List.mem_cons, List.not_mem_nil, or_false] at hd
    cases op <;> rcases hd with h | h | h | h <;>
      simp_all [binarySymbol, BinOp.isArithmetic, BinOp.symbol]
  rw [hsymbol]
  cases op <;> simp only [BinOp.isArithmetic, Bool.false_eq_true] at hop
  case add => exact ⟨'+', 4, by decide, rfl, by decide, isSymbol_add⟩
  case sub => exact ⟨'-', 4, by decide, rfl, by decide, isSymbol_sub⟩
  case mul => exact ⟨'*', 5, by decide, rfl, by decide, isSymbol_mul⟩
  case floorDiv => exact ⟨'/', 5, by decide, rfl, by decide, isSymbol_div⟩
  case mod => exact ⟨'%', 5, by decide, rfl, by decide, isSymbol_mod⟩

/-- An operator that the target has, between its operands. -/
theorem prints_plain (hd : p.dialect ∈ truncating) (hop : op.isArithmetic = true)
    (hx : Written x a) (hy : Written y b) :
    Prints op.precedence (p.plain x op y).toList
      (.binary a (if op = .floorDiv then .div else op) b) := by
  have hplain : (p.plain x op y).toList = (x.within p.dialect op.precedence).toList ++
      ' ' :: (binarySymbol p.dialect op).toList ++
        ' ' :: (y.within p.dialect (op.precedence + 1)).toList := by
    simp only [truncating, List.mem_cons, List.not_mem_nil, or_false] at hd
    cases op <;> rcases hd with h | h | h | h <;> simp_all [plain, BinOp.isArithmetic]
  obtain ⟨c, n, hc, hn, hle, hsymbol⟩ := binarySymbol_truncating hd hop
  rw [hplain, hc, hn]
  simpa using Prints.binary hsymbol hle (hx.within p.dialect (by omega) (by omega))
    (hy.within p.dialect (by omega) (by omega))

theorem prints_floored (hd : p.dialect ∈ truncating) (hop : op = .floorDiv ∨ op = .mod)
    (hx : Written x a) (hy : Written y b) :
    Prints 14 (p.floored x op y).toList
      (if op = .floorDiv then .binary (.binary a .sub (remainderTree a b)) .div b
        else remainderTree a b) := by
  have hleft : Prints 11 (x.within p.dialect 11).toList a := hx.within _ (by omega) (by omega)
  have hright : Prints 12 (y.within p.dialect 12).toList b := hy.within _ (by omega) (by omega)
  simp only [truncating, List.mem_cons, List.not_mem_nil, or_false] at hd
  rcases hop with rfl | rfl
  · have hquotient := prints_quotient hleft hright
    rcases hd with h | h | h | h <;> simpa [floored, h, Printer.remainder] using hquotient
  · have hremainder := (prints_remainder hleft hright).round (by decide)
    rcases hd with h | h | h | h <;> simpa [floored, h, Printer.remainder] using hremainder

/-- The text of an arithmetic expression, read again. -/
theorem prints_target (hd : p.dialect ∈ truncating) :
    ∀ {e : Expr}, e.isArithmetic = true → Readable e →
      Prints e.precedence (p.print e).toList (p.target e)
  | .const (.int n), _, hleaves => prints_const hleaves
  | .name n, _, hleaves => ⟨_, (word_name hleaves).spells, .name n⟩
  | .unary .neg e, ha, hleaves => by
    have hx : Written ⟨e, p.print e⟩ (p.target e) := ⟨ha, prints_target hd ha hleaves⟩
    have hminus := ((hx.within p.dialect (by decide) (Nat.le_refl 14)).loosen
      (by decide) (by decide)).minus
    have hdotted : p.dialect.isDotted = false := by
      simp only [truncating, List.mem_cons, List.not_mem_nil, or_false] at hd
      rcases hd with h | h | h | h <;> simp [h, Dialect.isDotted]
    simpa [print, unary, signMark, hdotted, target, precedence] using hminus
  | .binary l op r, ha, hleaves => by
    simp only [isArithmetic, Bool.and_eq_true] at ha
    obtain ⟨⟨hop, hl⟩, hr⟩ := ha
    have hx : Written ⟨l, p.print l⟩ (p.target l) := ⟨hl, prints_target hd hl hleaves.1⟩
    have hy : Written ⟨r, p.print r⟩ (p.target r) := ⟨hr, prints_target hd hr hleaves.2⟩
    have hplain := prints_plain hd hop hx hy
    cases hsign : p.isNonNegative l && p.isNonNegative r with
    | true => cases op <;> simp_all [print, binary, target, precedence, BinOp.isArithmetic]
    | false =>
      by_cases hfloor : op = .floorDiv ∨ op = .mod
      · have hfloored := (prints_floored hd hfloor hx hy).loosen (n := 11) (by decide) (by decide)
        rcases hfloor with rfl | rfl <;>
          simpa [print, binary, target, precedence, BinOp.precedence, hsign] using hfloored
      · cases op <;> simp_all [print, binary, target, precedence, BinOp.isArithmetic]

/-- The leaves of an expression that was read from a text can be written and read again. -/
theorem readable_of_parse {t : String} (h : Expr.parse t = .ok e) : Readable e := by
  cases hscan : scan t.toList with
  | error fault => simp [Expr.parse, hscan] at h
  | ok ts =>
    obtain ⟨qs, htext, htiles, -⟩ := scan_eq_ok_iff.mp hscan
    have hphrase := (recognizes_expression.parseWith_tiles htiles htext.symm e).mp h
    refine LeafWise.imp ?_ ?_ hphrase.grown
    · rintro n ⟨m, hm, habs⟩
      have hpos := htiles.nonneg_of_mem (List.mem_filter.mp hm).1
      have hlt := m.toInt_lt
      omega
    · intro n hn
      exact htiles.isName_of_mem (List.mem_filter.mp hn).1

/-- Floor arithmetic survives translation. For an arithmetic expression of the source and a target
whose operators truncate, the printed text is an expression again; and whenever the names that the
printer takes to be not negative are so, and no divisor of the source is zero, that expression has
the same value by the operators of the target as the source has by its own. -/
theorem print_keeps_floor_arithmetic (p : Printer) (hd : p.dialect ∈ truncating) (t : String)
    (e : Expr) (h : Expr.parse t = .ok e) (ha : e.isArithmetic = true) :
    ∃ e', Expr.parse (p.print e) = .ok e' ∧
      ∀ env : String → Int, (∀ n ∈ p.nonNegative, 0 ≤ env n) →
        (∀ d ∈ e.divisors, value floors env d ≠ some 0) →
        ∃ v, value floors env e = some v ∧ value truncates env e' = some v := by
  obtain ⟨ks, hspells, hphrase⟩ := prints_target hd ha (readable_of_parse h)
  have hexpression := expression_of_phraseAt hphrase (precedence_of_isArithmetic ha)
  refine ⟨p.target e, parse_spelled hspells hexpression, fun env henv hdivisors => ?_⟩
  obtain ⟨v, hv⟩ := exists_value ha hdivisors
  exact ⟨v, hv, value_target henv hv⟩

/-- The tree of `-a // b % -3 - n // 2`. -/
def mixedArithmetic : Expr :=
  .binary (.binary (.binary (.unary .neg (.name "a")) .floorDiv (.name "b")) .mod
    (.const (.int (-3)))) .sub (.binary (.name "n") .floorDiv (.const (.int 2)))

/-- With `a = 7`, `b = 2` and `n = 5`, quotient and remainder round down twice below zero. -/
theorem print_keeps_floor_arithmetic_go :
    Expr.parse "-a // b % -3 - n // 2" = .ok mixedArithmetic ∧
      ∃ e', Expr.parse (print { dialect := .go, nonNegative := ["n"] } mixedArithmetic) = .ok e' ∧
        value truncates (fun n => if n = "a" then 7 else if n = "b" then 2 else 5) e' = some (-3) := by
  have hparse : Expr.parse "-a // b % -3 - n // 2" = .ok mixedArithmetic := by cbv
  obtain ⟨e', he', hvalue⟩ := print_keeps_floor_arithmetic
    { dialect := .go, nonNegative := ["n"] } (by decide) _ _ hparse rfl
  obtain ⟨v, hv, hv'⟩ := hvalue (fun n => if n = "a" then 7 else if n = "b" then 2 else 5)
    (by decide) (by decide)
  obtain rfl : v = -3 := Option.some.inj (hv.symm.trans (by decide))
  exact ⟨hparse, e', he', hv'⟩

end Printer

end Comprehend
