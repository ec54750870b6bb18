import Mathlib.Tactic.Linarith
import Comprehend.Proofs.Operands

/-! Plus signs. A plus sign is not written, but to the node above it it is a sign like any other:
brackets, and the form of an operator, are chosen for the sign and not for what stands behind it. A
node whose choices are the same for both is written as if there were no plus signs. -/
namespace Comprehend

namespace Expr

mutual

/-- The expression with every `+x` replaced by `x`. -/
def withoutPlus : Expr → Expr
  | .const l => .const l
  | .name n => .name n
  | .unary op e => if op = .pos then withoutPlus e else .unary op (withoutPlus e)
  | .binary l op r => .binary (withoutPlus l) op (withoutPlus r)
  | .boolOp op l r => .boolOp op (withoutPlus l) (withoutPlus r)
  | .compare l op r => .compare (withoutPlus l) op (withoutPlus r)
  | .ternary c y n => .ternary (withoutPlus c) (withoutPlus y) (withoutPlus n)
  | .call f args => .call (withoutPlus f) (allWithoutPlus args)
  | .member e field => .member (withoutPlus e) field
  | .subscript e i => .subscript (withoutPlus e) (withoutPlus i)
  | .tuple items => .tuple (allWithoutPlus items)
  | .list items => .list (allWithoutPlus items)

def allWithoutPlus : List Expr → List Expr
  | [] => []
  | e :: es => withoutPlus e :: allWithoutPlus es

end

theorem allWithoutPlus_eq_map (es : List Expr) : allWithoutPlus es = es.map withoutPlus := by
  induction es with
  | nil => rfl
  | cons e es ih => rw [allWithoutPlus, ih, List.map_cons]

def IsPlus (e : Expr) : Prop :=
  ∃ x, e = .unary .pos x

def isFloat : Expr → Bool
  | .const (.float _) => true
  | _ => false

def isTuple : Expr → Bool
  | .tuple _ => true
  | _ => false

end Expr

/-- The operand stands in brackets where only what binds at least as tightly as `least` needs
none. -/
def Operand.isLoose (d : Dialect) (least : Nat) (e : Expr) : Bool :=
  e.precedence < least || isDelicate d e

/-- Nodes that look the same to the node above them. -/
structure Expr.Alike (e e' : Expr) : Prop where
  isLoose : ∀ d least, Operand.isLoose d least e = Operand.isLoose d least e'
  isFloat : e.isFloat = e'.isFloat
  natural : e.natural? = e'.natural?
  isDisplay : Printer.isDisplay e = Printer.isDisplay e'
  const : ∀ l, e = .const l → e' = .const l
  name : ∀ n, e = .name n → e' = .name n

/-- Only a plus sign looks different when plus signs are left out. -/
theorem Expr.alike_withoutPlus {e : Expr} (h : ¬e.IsPlus) : Alike e.withoutPlus e := by
  cases e with
  | const l => exact ⟨fun _ _ => rfl, rfl, rfl, rfl, fun _ h => h, fun _ h => h⟩
  | name n => exact ⟨fun _ _ => rfl, rfl, rfl, rfl, fun _ h => h, fun _ h => h⟩
  | unary op x =>
    cases op with
    | pos => exact absurd ⟨x, rfl⟩ h
    | _ => exact ⟨fun _ _ => rfl, rfl, rfl, rfl, nofun, nofun⟩
  | boolOp op l r =>
    cases op <;>
      exact ⟨fun _ _ => rfl, rfl, rfl, rfl, nofun, nofun⟩
  | _ => exact ⟨fun _ _ => rfl, rfl, rfl, rfl, nofun, nofun⟩

namespace Printer

open Operand

/-! What a node looks at -/

/-- A test together with the expression that it is made on. -/
abbrev Test := Expr × (Expr → Bool)

/-- Quotient and remainder of operands that are never negative. -/
def isUnsigned (p : Printer) : Expr → Bool
  | .binary l _ r => p.isNonNegative l && p.isNonNegative r
  | _ => false

/-- A constant that is written with its type where a method is called on it. -/
def isTyped (p : Printer) : Expr → Bool
  | .const (.int _) => p.intType != ""
  | _ => false

def sides (p : Printer) (l : Expr) (left : Nat) (r : Expr) (right : Nat) : List Test :=
  [(l, isLoose p.dialect left), (r, isLoose p.dialect right)]

def called (p : Printer) (e : Expr) : List Test :=
  [(e, p.isTyped), (e, isLoose p.dialect 14)]

/-- What decides how a quotient or remainder is rounded down. -/
def flooredTests (p : Printer) (l r : Expr) : List Test :=
  match p.dialect with
  | .julia | .juliaBroadcast => []
  | .rust => (r, Expr.isPositive) :: if r.isPositive then p.called l else p.sides l 11 r 12
  | _ => p.sides l 11 r 12

def binaryTests (p : Printer) (l : Expr) (op : BinOp) (r : Expr) : List Test :=
  match op, p.dialect with
  | .pow, .rust => p.called l ++ [(r, Expr.isFloat), (r, isLoose p.dialect 14)]
  | .pow, .typescript | .pow, .julia | .pow, .juliaBroadcast => p.sides l 14 r 12
  | .pow, _ => []
  | .bitXor, .julia | .bitXor, .juliaBroadcast => []
  | .bitXor, .sqlite => p.sides l 14 r 14
  | .floorDiv, .typescript => p.sides l 11 r 12
  | .floorDiv, _ | .mod, _ =>
    (.binary l op r, p.isUnsigned) ::
      if p.isUnsigned (.binary l op r) then p.sides l 11 r 12 else p.flooredTests l r
  | op, _ => p.sides l op.precedence r (op.precedence + 1)

def membershipTests (p : Printer) (item container : Expr) : List Test :=
  match p.dialect with
  | .rust | .typescript | .csharp => [(container, isLoose p.dialect 14)]
  | .go => [(container, Expr.isTuple)]
  | .sqlite | .postgres => [(item, isLoose p.dialect 6)]
  | .julia => p.sides item 6 container 6
  | .juliaBroadcast => []

def compareTests (p : Printer) (l : Expr) (op : CmpOp) (r : Expr) : List Test :=
  match op with
  | .isIn | .notIn => p.membershipTests l r
  | _ => p.sides l 6 r 6

/-- The first argument of a builtin may be what a method is called on. -/
def argumentTests (p : Printer) (f : Expr) (args : List Expr) : List Test :=
  match f with
  | .name n =>
    match Builtin.ofName? n, args, p.dialect with
    | some .abs, [e], .rust => [(e, isLoose p.dialect 14)]
    | some .len, [e], .rust => [(e, isLoose p.dialect 14)]
    | some .len, [e], .typescript => [(e, isLoose p.dialect 14)]
    | some .len, [e], .csharp => [(e, isLoose p.dialect 14)]
    | some .min, e :: _ :: _, .rust => [(e, isLoose p.dialect 14)]
    | some .max, e :: _ :: _, .rust => [(e, isLoose p.dialect 14)]
    | _, _, _ => []
  | _ => []

def indexTests (p : Printer) (i : Expr) : List Test :=
  if p.dialect.isJulia then [(i, (·.natural?.isSome)), (i, isLoose p.dialect 10)]
  else if p.dialect = .rust then [(i, isLoose p.dialect 14)]
  else []

/-- What decides how a node is written, besides the texts of its operands. -/
def tests (p : Printer) : Expr → List Test
  | .const _ => []
  | .name _ => []
  | .unary op e => if op = .pos then [] else [(e, isLoose p.dialect 14)]
  | .binary l op r => p.binaryTests l op r
  | .boolOp op l r =>
    if p.dialect.isDotted then p.sides l 14 r 14
    else p.sides l (boolPrecedence op) r (boolPrecedence op + 1)
  | .compare l op r => p.compareTests l op r
  | .ternary c y n =>
    match p.dialect with
    | .typescript | .csharp | .julia =>
      [(c, isLoose p.dialect 2), (y, isLoose p.dialect 2), (n, isLoose p.dialect 1)]
    | _ => []
  | .call f args => (f, isLoose p.dialect 14) :: p.argumentTests f args
  | .member e _ => [(e, isLoose p.dialect 14)]
  | .subscript e i => (e, isLoose p.dialect 14) :: p.indexTests i
  | .tuple _ => []
  | .list _ => []

/-- A node is written in another way for the plus signs below it. -/
def noticesPlus (p : Printer) (e : Expr) : Bool :=
  (p.tests e).any fun t => t.2 t.1.withoutPlus != t.2 t.1

def Agree (ts : List Test) : Prop :=
  ∀ t ∈ ts, t.2 t.1.withoutPlus = t.2 t.1

@[simp] theorem agree_nil : Agree [] := by simp [Agree]

@[simp] theorem agree_cons {t : Test} {ts : List Test} :
    Agree (t :: ts) ↔ t.2 t.1.withoutPlus = t.2 t.1 ∧ Agree ts := by simp [Agree]

@[simp] theorem agree_append {ts us : List Test} :
    Agree (ts ++ us) ↔ Agree ts ∧ Agree us := by
  simp [Agree, or_imp, forall_and]

theorem noticesPlus_eq_false {p : Printer} {e : Expr} :
    p.noticesPlus e = false ↔ Agree (p.tests e) := by
  simp [noticesPlus, Agree]

end Printer

/-! Brackets -/

namespace Operand

variable {d : Dialect} {least : Nat} {e : Expr} {s : String}

theorem within_eq (o : Operand) (d : Dialect) (least : Nat) :
    o.within d least = if isLoose d least o.expr then round o.text else o.text := rfl

theorem length_round (s : String) : (round s).length = s.length + 2 := by
  have hopen : "(".length = 1 := rfl
  have hclose : ")".length = 1 := rfl
  rw [round, String.length_append, String.length_append, hopen, hclose]
  omega

theorem length_within (o : Operand) (d : Dialect) (least : Nat) :
    (o.within d least).length = o.text.length + 2 * (isLoose d least o.expr).toNat := by
  rw [within_eq]
  cases isLoose d least o.expr
  · rfl
  · exact length_round o.text

theorem isLoose_plus (d : Dialect) (least : Nat) (x : Expr) :
    isLoose d least (.unary .pos x) = decide (12 < least) :=
  Bool.or_false _

/-- Up to the level of signs, a plus sign takes brackets away. -/
theorem isLoose_of_le (hleast : least ≤ 12) (h : isLoose d least e = true) :
    isLoose d least e.withoutPlus = true := by
  by_cases hplus : e.IsPlus
  · obtain ⟨x, rfl⟩ := hplus
    rw [isLoose_plus, decide_eq_true_eq] at h
    omega
  · rwa [(Expr.alike_withoutPlus hplus).isLoose]

/-- Above the level of signs, a plus sign brings brackets along. -/
theorem isLoose_of_lt (hleast : 12 < least) (h : isLoose d least e.withoutPlus = true) :
    isLoose d least e = true := by
  by_cases hplus : e.IsPlus
  · obtain ⟨x, rfl⟩ := hplus
    rwa [isLoose_plus, decide_eq_true_eq]
  · rwa [(Expr.alike_withoutPlus hplus).isLoose] at h

/-- The operand without its plus signs, with the text that it has. -/
def bare (x : Operand) : Operand :=
  ⟨x.expr.withoutPlus, x.text⟩

@[simp] theorem bare_text (x : Operand) : x.bare.text = x.text := rfl

/-- Plus signs in the operand make no difference for its brackets. -/
def Steady (x : Operand) (d : Dialect) (least : Nat) : Prop :=
  isLoose d least x.expr.withoutPlus = isLoose d least x.expr

variable {x y : Operand} {left right : Nat}

theorem steady_of_not_isPlus (h : ¬x.expr.IsPlus) : x.Steady d least :=
  (Expr.alike_withoutPlus h).isLoose d least

theorem Steady.within (h : x.Steady d least) : x.bare.within d least = x.within d least := by
  rw [within_eq, within_eq, bare, show isLoose d least x.expr.withoutPlus = _ from h]

theorem steady_of_length (h : (x.bare.within d least).length = (x.within d least).length) :
    x.Steady d least := by
  simp only [length_within, bare] at h
  unfold Steady
  revert h
  cases isLoose d least x.expr.withoutPlus <;> cases isLoose d least x.expr <;> simp

theorem within_bare_iff : x.bare.within d least = x.within d least ↔ x.Steady d least :=
  ⟨fun h => steady_of_length (congrArg String.length h), Steady.within⟩

theorem length_within_le (h : least ≤ 12) :
    (x.within d least).length ≤ (x.bare.within d least).length := by
  simp only [length_within, bare]
  have hmono := Bool.toNat_le_toNat (isLoose_of_le (d := d) (e := x.expr) h)
  omega

theorem length_bare_within_le (h : 12 < least) :
    (x.bare.within d least).length ≤ (x.within d least).length := by
  simp only [length_within, bare]
  have hmono := Bool.toNat_le_toNat (isLoose_of_lt (d := d) (e := x.expr) h)
  omega

/-- Where two operands are bracketed in the same sense, their changes cannot make up for each
other. -/
theorem written_iff {f : String → String → String} {i j k : Nat}
    (hf : ∀ a b, (f a b).length = (i + 1) * a.length + (j + 1) * b.length + k)
    (hlevels : left ≤ 12 ∧ right ≤ 12 ∨ 12 < left ∧ 12 < right) :
    f (x.bare.within d left) (y.bare.within d right) = f (x.within d left) (y.within d right) ↔
      x.Steady d left ∧ y.Steady d right := by
  constructor
  · intro h
    have hlength := congrArg String.length h
    rw [hf, hf] at hlength
    rcases hlevels with ⟨hl, hr⟩ | ⟨hl, hr⟩
    · have hx : (x.within d left).length ≤ (x.bare.within d left).length := length_within_le hl
      have hy : (y.within d right).length ≤ (y.bare.within d right).length := length_within_le hr
      exact ⟨steady_of_length (by nlinarith), steady_of_length (by nlinarith)⟩
    · have hx : (x.bare.within d left).length ≤ (x.within d left).length :=
        length_bare_within_le hl
      have hy : (y.bare.within d right).length ≤ (y.within d right).length :=
        length_bare_within_le hr
      exact ⟨steady_of_length (by nlinarith), steady_of_length (by nlinarith)⟩
  · rintro ⟨hx, hy⟩
    rw [hx.within, hy.within]

/-- Nothing that starts with a bracket and a text starts with the text and something else. -/
theorem opening_ne {c : Char} (hc : c ≠ '(') (s u v : List Char) :
    '(' :: (s ++ u) ≠ s ++ c :: v := by
  induction s with
  | nil => exact fun h => hc (List.cons.inj h).1.symm
  | cons d s ih =>
    intro h
    obtain ⟨rfl, htail⟩ := List.cons.inj h
    exact ih htail

/-- What stands in front shows its brackets, whatever follows it. -/
theorem front_bare_iff {u v : String} (hu : ∃ c cs, u.toList = c :: cs ∧ c ≠ '(') :
    x.bare.within d 14 ++ u = x.within d 14 ++ v ↔ x.Steady d 14 ∧ u = v := by
  obtain ⟨c, cs, hu, hc⟩ := hu
  by_cases hsteady : x.Steady d 14
  · rw [hsteady.within, String.append_right_inj, and_iff_right hsteady]
  · refine iff_of_false (fun h => ?_) (fun h => hsteady h.1)
    have hloose : isLoose d 14 x.bare.expr = false ∧ isLoose d 14 x.expr = true := by
      have hmono : isLoose d 14 x.expr.withoutPlus = true → _ := isLoose_of_lt (by decide)
      unfold Steady at hsteady
      revert hsteady hmono
      simp only [bare]
      cases isLoose d 14 x.expr.withoutPlus <;> cases isLoose d 14 x.expr <;> simp
    have hchars := congrArg String.toList h
    rw [within_eq, within_eq, hloose.1, hloose.2] at hchars
    simp [round, hu, bare] at hchars
    exact opening_ne hc _ _ _ hchars.symm

end Operand

namespace Printer

open Operand

@[simp] theorem agree_sides {p : Printer} {x y : Operand} {left right : Nat} :
    Agree (p.sides x.expr left y.expr right) ↔
      x.Steady p.dialect left ∧ y.Steady p.dialect right := by
  simp [sides, Steady]

/-- Two texts around a symbol. -/
theorem length_around (a symbol b : String) :
    (a ++ " " ++ symbol ++ " " ++ b).length =
      (0 + 1) * a.length + (0 + 1) * b.length + (2 + symbol.length) := by
  have hblank : " ".length = 1 := rfl
  simp only [String.length_append, hblank]
  omega

end Printer

end Comprehend
