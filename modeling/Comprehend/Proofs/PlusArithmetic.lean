import Mathlib.Data.List.Basic
import Mathlib.Tactic.ByContra
import Comprehend.Proofs.PlusSigns
import Comprehend.Proofs.Spelling

/-! Plus signs under binary operators. The text of an operator that is written as such shows its
brackets by its length. Where there are several forms of a text, plus signs that decide for another
one are seen as well. -/
namespace Comprehend.Printer

open Operand

variable {p : Printer} {x y : Operand}

theorem floorQuotient_bare_iff :
    p.floorQuotient x.bare y.bare = p.floorQuotient x y ↔
      x.Steady p.dialect 11 ∧ y.Steady p.dialect 12 := by
  refine written_iff (f := fun a b => "Math.floor(" ++ a ++ " / " ++ b ++ ")") (i := 0) (j := 0)
    (k := 15) (fun a b => ?_) (.inl (by decide))
  have hopen : "Math.floor(".length = 11 := rfl
  have hmiddle : " / ".length = 3 := rfl
  have hclose : ")".length = 1 := rfl
  simp only [String.length_append, hopen, hmiddle, hclose]
  omega

/-- Symbols between operands. -/
theorem plain_bare_iff {op : BinOp} (hpow : op ≠ .pow) (hxor : op ≠ .bitXor) :
    p.plain x.bare op y.bare = p.plain x op y ↔
      x.Steady p.dialect op.precedence ∧ y.Steady p.dialect (op.precedence + 1) := by
  by_cases hfloor : op = .floorDiv ∧ p.dialect = .typescript
  · obtain ⟨rfl, hd⟩ := hfloor
    simp only [plain, hd]
    rw [← hd]
    exact floorQuotient_bare_iff
  · have hplain (l r : Operand) : p.plain l op r = l.within p.dialect op.precedence ++ " " ++
        binarySymbol p.dialect op ++ " " ++ r.within p.dialect (op.precedence + 1) := by
      cases op <;> simp_all [plain]
    rw [hplain, hplain]
    refine written_iff (fun a b => length_around a _ b) (.inl ?_)
    cases op <;> simp_all [BinOp.precedence]

theorem plain_xor_bare_iff :
    p.plain x.bare .bitXor y.bare = p.plain x .bitXor y ↔
      Agree (p.binaryTests x.expr .bitXor y.expr) := by
  cases hd : p.dialect with
  | julia => simp [plain, binaryTests, hd]
  | juliaBroadcast => simp [plain, binaryTests, hd]
  | sqlite =>
    simp only [plain, binaryTests, hd]
    rw [agree_sides, hd]
    refine written_iff (f := fun a b => "((" ++ a ++ " | " ++ b ++ ") - (" ++ a ++ " & " ++ b ++
      "))") (i := 1) (j := 1) (k := 15) (fun a b => ?_) (.inr (by decide))
    have hopen : "((".length = 2 := rfl
    have hor : " | ".length = 3 := rfl
    have hmiddle : ") - (".length = 5 := rfl
    have hand : " & ".length = 3 := rfl
    have hclose : "))".length = 2 := rfl
    simp only [String.length_append, hopen, hor, hmiddle, hand, hclose]
    omega
  | _ =>
    simp only [plain, binaryTests, hd]
    rw [agree_sides, hd]
    exact written_iff (fun a b => length_around a _ b) (.inl (by decide))

/-! Receivers -/

theorem isDigit_of_mem_toString {n : Int} (hn : 0 ≤ n) {c : Char} (hc : c ∈ (toString n).toList) :
    c.isDigit = true := by
  obtain ⟨m, rfl⟩ := Int.eq_ofNat_of_zero_le hn
  rw [Token.toList_toString_natCast] at hc
  exact Nat.isDigit_of_mem_toDigits (by decide) (by decide) hc

theorem eq_minus_or_isDigit {n : Int} {c : Char} (hc : c ∈ (toString n).toList) :
    c = '-' ∨ c.isDigit = true := by
  by_cases hn : n < 0
  · rw [Token.toList_toString_neg hn, List.mem_cons] at hc
    exact hc.imp_right (isDigit_of_mem_toString (by omega))
  · exact .inr (isDigit_of_mem_toString (Int.not_lt.mp hn) hc)

theorem toString_ne_bracket (n : Int) : ∃ c cs, (toString n).toList = c :: cs ∧ c ≠ '(' := by
  by_cases hn : n < 0
  · exact ⟨'-', _, Token.toList_toString_neg hn, by decide⟩
  · have hne : (toString n).toList ≠ [] := by
      obtain ⟨m, rfl⟩ := Int.eq_ofNat_of_zero_le (Int.not_lt.mp hn)
      rw [Token.toList_toString_natCast]
      exact Nat.toDigits_ne_nil
    obtain ⟨c, cs, hcs⟩ := List.exists_cons_of_ne_nil hne
    refine ⟨c, cs, hcs, ?_⟩
    rintro rfl
    have hdigit := isDigit_of_mem_toString (Int.not_lt.mp hn) (hcs ▸ List.mem_cons_self)
    exact absurd hdigit (by decide)

theorem receiver_of_not_const {e : Expr} (h : ∀ n, e ≠ .const (.int n)) (s : String) :
    p.receiver ⟨e, s⟩ = Operand.within ⟨e, s⟩ p.dialect 14 ∧ p.isTyped e = false := by
  cases e with
  | const l =>
    cases l with
    | int n => exact absurd rfl (h n)
    | _ => exact ⟨rfl, rfl⟩
  | _ => exact ⟨rfl, rfl⟩

/-- What a method is called on, where it is not just the text in brackets: the text, or a constant
with its type. -/
def Differs (p : Printer) (s receiver : String) : Prop :=
  receiver = s ∨ (∃ c cs, s.toList = c :: cs ∧ c ≠ '(') ∧
    (receiver = s ++ p.intType ∨ p.intType ≠ "" ∧ receiver = round (s ++ p.intType))

theorem receiver_eq_round (e : Expr) :
    (p.isTyped e = false ∧ isLoose p.dialect 14 e = true) ∧
        p.receiver ⟨e, p.print e⟩ = round (p.print e) ∨
      ¬(p.isTyped e = false ∧ isLoose p.dialect 14 e = true) ∧
        p.Differs (p.print e) (p.receiver ⟨e, p.print e⟩) := by
  by_cases hconst : ∃ n, e = .const (.int n)
  · obtain ⟨n, rfl⟩ := hconst
    have hprint : p.print (.const (.int n)) = toString n.toInt := rfl
    have hstarts := toString_ne_bracket n.toInt
    by_cases hn : 0 ≤ n.toInt
    · have hreceiver : p.receiver ⟨.const (.int n), p.print (.const (.int n))⟩ =
          toString n.toInt ++ p.intType := if_pos hn
      refine .inr ⟨?_, .inr ⟨hprint ▸ hstarts, .inl (hprint ▸ hreceiver)⟩⟩
      simp [isLoose, Expr.precedence, isDelicate, Int.not_lt.mpr hn]
    · have hreceiver : p.receiver ⟨.const (.int n), p.print (.const (.int n))⟩ =
          round (toString n.toInt ++ p.intType) := if_neg hn
      by_cases htype : p.intType = ""
      · refine .inl ⟨⟨by simp [isTyped, htype], ?_⟩, ?_⟩
        · simp [isLoose, Expr.precedence, Int.not_le.mp hn]
        · rw [hreceiver, hprint, htype, String.append_empty]
      · refine .inr ⟨by simp [isTyped, htype], .inr ⟨hprint ▸ hstarts, .inr ⟨htype, ?_⟩⟩⟩
        rw [hreceiver, hprint]
  · obtain ⟨hreceiver, htyped⟩ := receiver_of_not_const (fun n hn => hconst ⟨n, hn⟩) (p.print e)
    rw [hreceiver, within_eq]
    cases hloose : isLoose p.dialect 14 e with
    | true => exact .inl ⟨⟨htyped, rfl⟩, rfl⟩
    | false => exact .inr ⟨by simp, .inl rfl⟩

/-- What a method is called on is the same without plus signs, or a plus sign stands before it and
brings brackets along. -/
theorem receiver_cases (hx : p.print x.expr.withoutPlus = x.text) :
    Agree (p.called x.expr) ∧ p.receiver x.bare = p.receiver x ∨
      ¬Agree (p.called x.expr) ∧ p.receiver x = round x.text ∧
        p.Differs x.text (p.receiver x.bare) := by
  obtain ⟨e, s⟩ := x
  obtain rfl : p.print e.withoutPlus = s := hx
  simp only [called, agree_cons, agree_nil, and_true, bare]
  by_cases hplus : e.IsPlus
  · obtain ⟨f, rfl⟩ := hplus
    have hbehind := receiver_eq_round (p := p) f.withoutPlus
    have hround : p.receiver ⟨.unary .pos f, p.print f.withoutPlus⟩ =
      round (p.print f.withoutPlus) := rfl
    have hwithout : (Expr.unary .pos f).withoutPlus = f.withoutPlus := rfl
    rw [hwithout, hround, isLoose_plus]
    simpa [show p.isTyped (.unary .pos f) = false from rfl] using hbehind
  · have hloose : isLoose p.dialect 14 e.withoutPlus = isLoose p.dialect 14 e :=
      (Expr.alike_withoutPlus hplus).isLoose _ _
    by_cases hconst : ∃ n, e = .const (.int n)
    · obtain ⟨n, rfl⟩ := hconst
      exact .inl ⟨⟨rfl, rfl⟩, rfl⟩
    · obtain ⟨hreceiver, htyped⟩ :=
        receiver_of_not_const (p := p) (fun n hn => hconst ⟨n, hn⟩) (p.print e.withoutPlus)
      obtain ⟨hreceiver', htyped'⟩ := receiver_of_not_const (p := p)
        (fun n hn => hconst ⟨n, (Expr.alike_withoutPlus hplus).const _ hn⟩) (p.print e.withoutPlus)
      refine .inl ⟨⟨htyped'.trans htyped.symm, hloose⟩, ?_⟩
      rw [hreceiver, hreceiver', within_eq, within_eq, hloose]

theorem Differs.ne_round {s r : String} (h : p.Differs s r) : r ≠ round s := by
  rintro rfl
  rcases h with h | ⟨⟨c, cs, hs, hc⟩, h | ⟨htype, h⟩⟩
  · have hlength := congrArg String.length h
    rw [length_round] at hlength
    omega
  · have hchars := congrArg String.toList h
    simp only [round, String.toList_append, hs] at hchars
    exact hc (List.cons.inj hchars).1.symm
  · have hlength := congrArg String.length h
    rw [length_round, length_round, String.length_append] at hlength
    exact htype (String.length_eq_zero_iff.mp (by omega))

theorem receiver_bare_iff (hx : p.print x.expr.withoutPlus = x.text) :
    p.receiver x.bare = p.receiver x ↔ Agree (p.called x.expr) := by
  rcases receiver_cases hx with ⟨hagree, hsame⟩ | ⟨hnot, hround, hdiffers⟩
  · exact iff_of_true hsame hagree
  · exact iff_of_false (hround ▸ hdiffers.ne_round) hnot

theorem length_le_receiver (hx : p.print x.expr.withoutPlus = x.text) :
    x.text.length ≤ (p.receiver x).length := by
  by_cases hconst : ∃ n, x.expr = .const (.int n)
  · obtain ⟨n, hn⟩ := hconst
    have htext : x.text = toString n.toInt := by
      rw [← hx, hn]
      rfl
    simp only [receiver, hn, htext]
    split
    · rw [String.length_append]
      omega
    · rw [length_round, String.length_append]
      omega
  · obtain ⟨hreceiver, -⟩ :=
      receiver_of_not_const (p := p) (fun n hn => hconst ⟨n, hn⟩) x.text
    rw [hreceiver, length_within]
    exact Nat.le_add_right _ _

/-! Quotients and remainders -/

/-- How a quotient or remainder is rounded down where the target has no function for it. -/
def flooredText (op : BinOp) (a b : String) : String :=
  if op = .floorDiv then "((" ++ a ++ " - " ++ remainder a b ++ ") / " ++ b ++ ")"
  else "(" ++ remainder a b ++ ")"

theorem length_remainder (a b : String) :
    (remainder a b).length = a.length + 3 * b.length + 11 := by
  have hopen : "(".length = 1 := rfl
  have hmod : " % ".length = 3 := rfl
  have hplus : " + ".length = 3 := rfl
  have hclose : ") % ".length = 4 := rfl
  simp only [remainder, String.length_append, hopen, hmod, hplus, hclose]
  omega

theorem length_flooredText (op : BinOp) (a b : String) :
    (flooredText op a b).length =
      ((if op = .floorDiv then 1 else 0) + 1) * a.length +
        ((if op = .floorDiv then 3 else 2) + 1) * b.length + if op = .floorDiv then 21 else 13 := by
  have hopen : "(".length = 1 := rfl
  have hclose : ")".length = 1 := rfl
  have hopen' : "((".length = 2 := rfl
  have hminus : " - ".length = 3 := rfl
  have hdiv : ") / ".length = 4 := rfl
  unfold flooredText
  split <;>
    simp only [String.length_append, length_remainder, hopen, hclose, hopen', hminus, hdiv] <;>
    omega

def isGeneral (p : Printer) (op : BinOp) (r : Expr) : Bool :=
  match p.dialect with
  | .julia | .juliaBroadcast => false
  | .rust => !r.isPositive
  | .typescript => op ≠ .floorDiv
  | _ => true

theorem floored_general {op : BinOp} (h : p.isGeneral op y.expr = true) :
    p.floored x op y = flooredText op (x.within p.dialect 11) (y.within p.dialect 12) := by
  unfold isGeneral at h
  cases hd : p.dialect <;> simp_all [floored, flooredText]

theorem flooredText_bare_iff (op : BinOp) :
    flooredText op (x.bare.within p.dialect 11) (y.bare.within p.dialect 12) =
        flooredText op (x.within p.dialect 11) (y.within p.dialect 12) ↔
      x.Steady p.dialect 11 ∧ y.Steady p.dialect 12 :=
  written_iff (length_flooredText op) (.inl (by decide))

theorem blank_ne_opening (u v t : String) : u ++ " " ++ t ≠ v ++ "(" ++ t := by
  intro h
  have hchars := congrArg String.toList (String.append_left_inj t |>.mp h)
  simp only [String.toList_append] at hchars
  have hlast := congrArg List.getLast? hchars
  simp at hlast

theorem exists_flooredText_eq (op : BinOp) (a b : String) :
    ∃ u, flooredText op a b = u ++ " " ++ (b ++ ")") := by
  unfold flooredText
  split
  · refine ⟨"((" ++ a ++ " - " ++ remainder a b ++ ") /", ?_⟩
    simp [← String.toList_inj]
  · refine ⟨"((" ++ a ++ " % " ++ b ++ " + " ++ b ++ ") %", ?_⟩
    simp [← String.toList_inj, remainder]

theorem withoutPlus_of_isPositive {e : Expr} (h : e.isPositive = true) : e.withoutPlus = e := by
  unfold Expr.isPositive at h
  split at h
  · rfl
  · simp at h

theorem eq_plus_of_isPositive {e : Expr} (h : e.withoutPlus.isPositive = true)
    (hnot : e.isPositive = false) : e.IsPlus := by
  by_contra hplus
  unfold Expr.isPositive at h
  split at h
  next n hn =>
    rw [(Expr.alike_withoutPlus hplus).const _ hn] at hnot
    rw [hn, Expr.isPositive] at *
    simp_all
  · simp at h

/-- A method of rounding down is called on the first operand. -/
theorem floored_rust (hd : p.dialect = .rust) {op : BinOp} (hy : y.expr.isPositive = true) :
    p.floored x op y = p.receiver x ++
      (if op = .floorDiv then ".div_euclid" else ".rem_euclid") ++ "(" ++ (y.text ++ ")") := by
  simp only [floored, hd, hy, ↓reduceIte]
  split <;> simp [← String.toList_inj]

/-- The divisor is a constant above zero only without its plus sign. -/
theorem floored_bare_ne (hd : p.dialect = .rust) {op : BinOp}
    (hy : y.expr.isPositive = false) (hy' : y.bare.expr.isPositive = true) :
    p.floored x.bare op y.bare ≠ p.floored x op y := by
  obtain ⟨f, hf⟩ := eq_plus_of_isPositive hy' hy
  have hwithin : y.within p.dialect 12 = y.text := by
    rw [within_eq, hf, isLoose_plus]
    rfl
  obtain ⟨u, hu⟩ := exists_flooredText_eq op (x.within p.dialect 11) (y.within p.dialect 12)
  rw [floored_rust hd hy', floored_general (by simp [isGeneral, hd, hy]), hu, hwithin]
  exact (blank_ne_opening _ _ _).symm

theorem floored_bare_iff {op : BinOp} (hx : p.print x.expr.withoutPlus = x.text) :
    p.floored x.bare op y.bare = p.floored x op y ↔ Agree (p.flooredTests x.expr y.expr) := by
  have hgeneral (h : p.isGeneral op y.expr = true) (h' : p.isGeneral op y.bare.expr = true) :
      p.floored x.bare op y.bare = p.floored x op y ↔ Agree (p.sides x.expr 11 y.expr 12) := by
    rw [floored_general h, floored_general h', flooredText_bare_iff, agree_sides]
  unfold flooredTests
  cases hd : p.dialect with
  | julia => simp [floored, hd, bare]
  | juliaBroadcast => simp [floored, hd, bare]
  | rust =>
    simp only [agree_cons]
    cases hy : y.expr.isPositive with
    | true =>
      have hy' : y.expr.withoutPlus.isPositive = true := by
        rw [withoutPlus_of_isPositive hy, hy]
      rw [floored_rust hd hy, floored_rust (y := y.bare) hd hy', show y.bare.text = y.text from rfl]
      simpa [String.append_left_inj, hy'] using receiver_bare_iff hx
    | false =>
      cases hy' : y.expr.withoutPlus.isPositive with
      | true => simpa using floored_bare_ne hd hy hy'
      | false =>
        have h := hgeneral (by simp [isGeneral, hd, hy]) (by simp [isGeneral, hd, bare, hy'])
        simpa using h
  | typescript =>
    by_cases hop : op = .floorDiv
    · have h := floorQuotient_bare_iff (p := p) (x := x) (y := y)
      simpa [floored, hd, hop] using h
    · exact hgeneral (by simp [isGeneral, hd, hop]) (by simp [isGeneral, hd, hop])
  | _ => exact hgeneral (by simp [isGeneral, hd]) (by simp [isGeneral, hd])

theorem plain_eq {op : BinOp} (hop : op = .floorDiv ∨ op = .mod)
    (hfloor : ¬(op = .floorDiv ∧ p.dialect = .typescript)) :
    p.plain x op y = x.within p.dialect 11 ++ " " ++ binarySymbol p.dialect op ++ " " ++
      y.within p.dialect 12 := by
  rcases hop with rfl | rfl <;> cases hd : p.dialect <;> simp_all [plain, BinOp.precedence]

theorem length_plain_le {op : BinOp} (hop : op = .floorDiv ∨ op = .mod)
    (hfloor : ¬(op = .floorDiv ∧ p.dialect = .typescript)) :
    (p.plain x op y).length ≤ x.text.length + y.text.length + 8 := by
  have hsymbol : (binarySymbol p.dialect op).length ≤ 2 := by
    rcases hop with rfl | rfl <;> cases p.dialect <;> decide
  have hx := Bool.toNat_le (isLoose p.dialect 11 x.expr)
  have hy := Bool.toNat_le (isLoose p.dialect 12 y.expr)
  rw [plain_eq hop hfloor, length_around, length_within, length_within]
  omega

/-- The functions of Julia are as long as the operator only if both operands stand in brackets. -/
theorem plain_ne_function {op : BinOp} (hop : op = .floorDiv ∨ op = .mod)
    (hd : p.dialect.isJulia = true) : p.plain x.bare op y.bare ≠ p.floored x op y := by
  intro h
  have hdialect : p.dialect ≠ .typescript := by
    rintro hts
    simp [hts, Dialect.isJulia] at hd
  have hfloored : p.floored x op y = (if op = .floorDiv then "fld" else "mod") ++ p.dialect.dot ++
      "(" ++ x.text ++ ", " ++ y.text ++ ")" := by
    cases hp : p.dialect <;> simp_all [floored, Dialect.isJulia]
  rw [plain_eq hop (fun hts => hdialect hts.2), hfloored] at h
  have hlength := congrArg String.length h
  have hsymbol : (binarySymbol p.dialect op).length = 1 + p.dialect.dot.length := by
    rcases hop with rfl | rfl <;> cases hp : p.dialect <;> simp_all [Dialect.isJulia] <;> decide
  have hname : (if op = .floorDiv then "fld" else "mod").length = 3 := by split <;> rfl
  rw [length_around, length_within, length_within, hsymbol] at hlength
  simp only [String.length_append, hname, show "(".length = 1 from rfl,
    show ", ".length = 2 from rfl, show ")".length = 1 from rfl] at hlength
  have hx := Bool.toNat_le (isLoose p.dialect 11 x.bare.expr)
  have hy := Bool.toNat_le (isLoose p.dialect 12 y.bare.expr)
  change _ * (x.text.length + _) + _ * (y.text.length + _) + _ = _ at hlength
  have hloose : isLoose p.dialect 11 x.bare.expr = true := by
    cases hl : isLoose p.dialect 11 x.bare.expr with
    | true => rfl
    | false =>
      rw [hl, Bool.toNat_false] at hlength
      omega
  have hchars := congrArg (fun s => s.toList.head?) h
  simp only [within_eq, hloose, ↓reduceIte, round, String.toList_append] at hchars
  rcases hop with rfl | rfl <;> simp at hchars

/-- What is rounded down is never written as what need not be. -/
theorem plain_ne_floored {op : BinOp} (hop : op = .floorDiv ∨ op = .mod)
    (hfloor : ¬(op = .floorDiv ∧ p.dialect = .typescript))
    (hx : p.print x.expr.withoutPlus = x.text) :
    p.plain x.bare op y.bare ≠ p.floored x op y := by
  by_cases hjulia : p.dialect.isJulia = true
  · exact plain_ne_function hop hjulia
  intro h
  have hplain : (p.plain x.bare op y.bare).length ≤ x.text.length + y.text.length + 8 :=
    length_plain_le hop hfloor
  rw [h] at hplain
  by_cases hgeneral : p.isGeneral op y.expr = true
  · rw [floored_general hgeneral, length_flooredText, length_within, length_within] at hplain
    rcases hop with rfl | rfl <;> simp at hplain <;> omega
  · obtain ⟨hd, hpositive⟩ : p.dialect = .rust ∧ y.expr.isPositive = true := by
      cases hd : p.dialect <;> simp_all [isGeneral, Dialect.isJulia]
    have hmethod : (if op = .floorDiv then ".div_euclid" else ".rem_euclid").length = 11 := by
      split <;> rfl
    have hreceiver := length_le_receiver hx
    rw [floored_rust hd hpositive] at hplain
    simp only [String.length_append, hmethod, show "(".length = 1 from rfl,
      show ")".length = 1 from rfl] at hplain
    omega

theorem isNonNegative_withoutPlus {e : Expr} (h : p.isNonNegative e = true) :
    p.isNonNegative e.withoutPlus = true := by
  induction e using Expr.induction_on_operands with
  | h e ih =>
    cases e with
    | const l => exact h
    | name n => exact h
    | binary l op r =>
      have hl := ih l (by simp [Expr.operands])
      have hr := ih r (by simp [Expr.operands])
      have hpos (hpos : r.isPositive = true) : r.withoutPlus.isPositive = true := by
        unfold Expr.isPositive at hpos
        split at hpos
        · simpa [Expr.withoutPlus, Expr.isPositive] using hpos
        · simp at hpos
      cases op <;> simp only [isNonNegative, Expr.withoutPlus, Bool.and_eq_true, Bool.or_eq_true,
        Bool.false_eq_true] at h ⊢ <;> grind
    | _ => simp [isNonNegative] at h

theorem isUnsigned_withoutPlus {l r : Expr} {op : BinOp}
    (h : p.isUnsigned (.binary l op r) = true) :
    p.isUnsigned (.binary l op r : Expr).withoutPlus = true := by
  simp only [isUnsigned, Expr.withoutPlus, Bool.and_eq_true] at h ⊢
  exact ⟨isNonNegative_withoutPlus h.1, isNonNegative_withoutPlus h.2⟩

theorem binary_rounded {op : BinOp} (hop : op = .floorDiv ∨ op = .mod) :
    p.binary x op y =
      if p.isUnsigned (.binary x.expr op y.expr) then p.plain x op y else p.floored x op y := by
  rcases hop with rfl | rfl <;> rfl

theorem binaryTests_rounded {l r : Expr} {op : BinOp} (hop : op = .floorDiv ∨ op = .mod)
    (hfloor : ¬(op = .floorDiv ∧ p.dialect = .typescript)) :
    p.binaryTests l op r = (.binary l op r, p.isUnsigned) ::
      if p.isUnsigned (.binary l op r) then p.sides l 11 r 12 else p.flooredTests l r := by
  rcases hop with rfl | rfl <;> cases hd : p.dialect <;>
    simp_all [binaryTests]

/-- A quotient or remainder is written in its own way if its operands are never negative, and that
is what the plus signs hide. -/
theorem rounded_bare_iff {op : BinOp} (hop : op = .floorDiv ∨ op = .mod)
    (hx : p.print x.expr.withoutPlus = x.text) :
    p.binary x.bare op y.bare = p.binary x op y ↔ Agree (p.binaryTests x.expr op y.expr) := by
  have hpow : op ≠ .pow ∧ op ≠ .bitXor := by rcases hop with rfl | rfl <;> decide
  have hlevel : op.precedence = 11 := by rcases hop with rfl | rfl <;> rfl
  have hplain : p.plain x.bare op y.bare = p.plain x op y ↔
      x.Steady p.dialect 11 ∧ y.Steady p.dialect 12 := by
    rw [plain_bare_iff hpow.1 hpow.2, hlevel]
  rw [binary_rounded hop, binary_rounded hop]
  by_cases hfloor : op = .floorDiv ∧ p.dialect = .typescript
  · obtain ⟨rfl, hd⟩ := hfloor
    have hsame (l r : Operand) : p.plain l .floorDiv r = p.floored l .floorDiv r := by
      simp [plain, floored, hd]
    simp only [binaryTests, hd, ← hsame, ite_self]
    rw [hplain, agree_sides]
  · have hbare : Expr.binary x.bare.expr op y.bare.expr =
        (Expr.binary x.expr op y.expr).withoutPlus := rfl
    rw [binaryTests_rounded hop hfloor, hbare]
    simp only [agree_cons]
    cases hsigned : p.isUnsigned (.binary x.expr op y.expr) with
    | true => simp [isUnsigned_withoutPlus hsigned, hplain]
    | false =>
      cases hsigned' : p.isUnsigned (Expr.binary x.expr op y.expr).withoutPlus with
      | true => exact iff_of_false (plain_ne_floored hop hfloor hx) (by simp)
      | false => simpa using floored_bare_iff hx

/-! Powers -/

def Related (p : Printer) (x : Operand) : Prop :=
  p.receiver x.bare = p.receiver x ∨
    p.receiver x = round x.text ∧ p.Differs x.text (p.receiver x.bare)

theorem related (hx : p.print x.expr.withoutPlus = x.text) : p.Related x := by
  rcases receiver_cases hx with ⟨-, h⟩ | ⟨-, h⟩
  · exact .inl h
  · exact .inr h

/-- A power with a float is another method. -/
theorem Related.ne_float (h : p.Related x) (t : String) :
    "(" ++ p.receiver x.bare ++ " as f64).powf(" ++ t ++ ")" ≠
      p.receiver x ++ ".pow(" ++ round t ++ " as u32)" := by
  intro heq
  have hchars := congrArg String.toList heq
  rcases h with h | ⟨hround, h | ⟨⟨c, cs, hs, hc⟩, h | ⟨htype, h⟩⟩⟩
  · simp [h, round] at hchars
    exact opening_ne (by decide) _ _ _ hchars
  · simp [h, hround, round] at hchars
  · simp [h, hround, round] at hchars
    have hlength := congrArg List.length hchars
    simp only [List.length_append, List.length_cons, List.length_nil] at hlength
    obtain ⟨d, hd⟩ := List.length_eq_one_iff.mp (show p.intType.toList.length = 1 by omega)
    simp [hd] at hchars
  · simp [h, hround, round, hs] at hchars
    exact hc hchars.1.symm

/-- The exponent stands in brackets only with its plus sign. -/
theorem Related.ne_tight (h : p.Related x) (t : String) :
    p.receiver x.bare ++ ".pow(" ++ t ++ " as u32)" ≠
      p.receiver x ++ ".pow(" ++ round t ++ " as u32)" := by
  intro heq
  have hchars := congrArg String.toList heq
  rcases h with h | ⟨hround, h | ⟨⟨c, cs, hs, hc⟩, h | ⟨htype, h⟩⟩⟩
  · have hlength := congrArg String.length heq
    simp only [h, String.length_append, length_round] at hlength
    omega
  · simp [h, hround, round] at hchars
    exact opening_ne (by decide) _ _ _ hchars.symm
  · simp [h, hround, round, hs] at hchars
    exact hc hchars.1
  · simp [h, hround, round] at hchars
    have hlength := congrArg List.length hchars
    simp only [List.length_append, List.length_cons, List.length_nil] at hlength
    obtain ⟨a, b, hab⟩ := List.length_eq_two.mp (show p.intType.toList.length = 2 by omega)
    simp [hab] at hchars

/-- A constant exponent is written as such only without its plus sign. -/
theorem Related.ne_natural (h : p.Related x) {t : String} (hne : t.toList ≠ [])
    (hdigits : ')' ∉ t.toList) :
    p.receiver x.bare ++ ".pow(" ++ t ++ ")" ≠
      p.receiver x ++ ".pow(" ++ round t ++ " as u32)" := by
  intro heq
  have hchars := congrArg String.toList heq
  rcases h with h | ⟨hround, h | ⟨⟨c, cs, hs, hc⟩, h | ⟨htype, h⟩⟩⟩
  · have hlength := congrArg String.length heq
    simp only [h, String.length_append, length_round, show ")".length = 1 from rfl,
      show " as u32)".length = 8 from rfl] at hlength
    omega
  · simp [h, hround, round] at hchars
    exact opening_ne (by decide) _ _ _ hchars.symm
  · simp [h, hround, round, hs] at hchars
    exact hc hchars.1
  · simp [h, hround, round] at hchars
    have hlength := congrArg List.length hchars
    simp only [List.length_append, List.length_cons, List.length_nil] at hlength
    have hdrop := congrArg (List.drop 9) hchars
    rw [List.drop_left' (by omega)] at hdrop
    rcases ht : t.toList with _ | ⟨a, _ | ⟨b, _ | ⟨c, cs⟩⟩⟩
    · exact hne ht
    · simp [ht] at hdrop
    · simp [ht] at hdrop
    · simp [ht] at hdrop
      exact hdigits (by simp [ht, ← hdrop.1])

def raised (d : Dialect) (receiver : String) (y : Operand) : String :=
  if y.expr.isFloat then "(" ++ receiver ++ " as f64).powf(" ++ y.text ++ ")"
  else
    match y.expr.natural? with
    | some n => receiver ++ ".pow(" ++ toString n.toInt ++ ")"
    | none => receiver ++ ".pow(" ++ y.within d 14 ++ " as u32)"

theorem power_rust (hd : p.dialect = .rust) : p.power x y = raised p.dialect (p.receiver x) y := by
  obtain ⟨e, t⟩ := y
  simp only [power, raised, hd]
  cases e with
  | const l => cases l <;> rfl
  | _ => rfl

theorem raised_inj {d : Dialect} {r r' : String} : raised d r y = raised d r' y ↔ r = r' := by
  unfold raised
  split
  · simp only [String.append_left_inj, String.append_right_inj]
  · split <;> simp only [String.append_left_inj]

theorem raised_bare (hplus : ¬y.expr.IsPlus) (d : Dialect) (r : String) :
    raised d r y.bare = raised d r y := by
  have hsteady : y.Steady d 14 := steady_of_not_isPlus hplus
  have halike := Expr.alike_withoutPlus hplus
  unfold raised
  rw [hsteady.within, show y.bare.expr = y.expr.withoutPlus from rfl, halike.isFloat,
    halike.natural]
  rfl

/-- A natural number is written in digits, and needs no brackets. -/
theorem print_natural {e : Expr} {n : Int64} (h : e.natural? = some n) :
    0 ≤ n.toInt ∧ p.print e = toString n.toInt ∧ isLoose p.dialect 14 e = false := by
  unfold Expr.natural? at h
  split at h
  next k =>
    split at h
    next hk =>
      obtain rfl := Option.some.inj h
      exact ⟨hk, rfl, by simp [isLoose, Expr.precedence, isDelicate, Int.not_lt.mpr hk]⟩
    next => simp at h
  next => simp at h

theorem power_rust_bare_iff (hd : p.dialect = .rust) (hx : p.print x.expr.withoutPlus = x.text)
    (hy : p.print y.expr.withoutPlus = y.text) :
    p.power x.bare y.bare = p.power x y ↔ Agree (p.binaryTests x.expr .pow y.expr) := by
  rw [power_rust hd, power_rust hd]
  simp only [binaryTests, hd, agree_append, agree_cons, agree_nil, and_true]
  rw [← receiver_bare_iff hx]
  by_cases hplus : y.expr.IsPlus
  · obtain ⟨f, hf⟩ := hplus
    have hloose : isLoose .rust 14 y.expr = true := by
      rw [hf, isLoose_plus]
      rfl
    have hraised (r : String) :
        raised .rust r y = r ++ ".pow(" ++ round y.text ++ " as u32)" := by
      simp [raised, hf, Expr.isFloat, Expr.natural?, within_eq, isLoose_plus]
    rw [hraised, hloose, show y.expr.isFloat = false by rw [hf]; rfl]
    cases hfloat : y.expr.withoutPlus.isFloat with
    | true =>
      refine iff_of_false ?_ (by simp)
      simpa [raised, bare, hfloat] using (related hx).ne_float y.text
    | false =>
      cases hnatural : y.expr.withoutPlus.natural? with
      | some n =>
        obtain ⟨hn, hprint, htight⟩ := print_natural (p := p) hnatural
        rw [hd] at htight
        rw [hy] at hprint
        refine iff_of_false ?_ (by simp [htight])
        have hne : y.text.toList ≠ [] := by
          obtain ⟨c, cs, hcs, -⟩ := toString_ne_bracket n.toInt
          rw [hprint, hcs]
          exact List.cons_ne_nil c cs
        have hdigits : ')' ∉ y.text.toList := fun hmem =>
          absurd (isDigit_of_mem_toString hn (hprint ▸ hmem)) (by decide)
        simpa [raised, bare, hfloat, hnatural, ← hprint] using (related hx).ne_natural hne hdigits
      | none =>
        cases htight : isLoose .rust 14 y.expr.withoutPlus with
        | true => simp [raised, bare, hfloat, hnatural, within_eq, htight]
        | false =>
          refine iff_of_false ?_ (by simp)
          simpa [raised, bare, hfloat, hnatural, within_eq, htight] using
            (related hx).ne_tight y.text
  · have halike := Expr.alike_withoutPlus hplus
    rw [raised_bare hplus, raised_inj, halike.isFloat, halike.isLoose]
    simp

theorem power_bare_iff (hx : p.print x.expr.withoutPlus = x.text)
    (hy : p.print y.expr.withoutPlus = y.text) :
    p.power x.bare y.bare = p.power x y ↔ Agree (p.binaryTests x.expr .pow y.expr) := by
  have hsides : Agree (p.sides x.expr 14 y.expr 12) ↔ _ := agree_sides
  cases hd : p.dialect with
  | rust => exact power_rust_bare_iff hd hx hy
  | typescript =>
    simp only [power, hd, binaryTests, String.append_assoc] at hsides ⊢
    rw [front_bare_iff (by simp), String.append_right_inj, within_bare_iff, hsides]
  | julia =>
    simp only [power, hd, binaryTests, String.append_assoc] at hsides ⊢
    rw [front_bare_iff (by simp), hsides]
    simp only [String.append_right_inj, within_bare_iff]
  | juliaBroadcast =>
    simp only [power, hd, binaryTests, String.append_assoc] at hsides ⊢
    rw [front_bare_iff (by simp), hsides]
    simp only [String.append_right_inj, within_bare_iff]
  | _ => simp [power, hd, binaryTests, bare]

/-! Operators -/

theorem binary_bare_iff (op : BinOp) (hx : p.print x.expr.withoutPlus = x.text)
    (hy : p.print y.expr.withoutPlus = y.text) :
    p.binary x.bare op y.bare = p.binary x op y ↔ Agree (p.binaryTests x.expr op y.expr) := by
  cases op with
  | pow => exact power_bare_iff hx hy
  | floorDiv => exact rounded_bare_iff (.inl rfl) hx
  | mod => exact rounded_bare_iff (.inr rfl) hx
  | bitXor => exact plain_xor_bare_iff
  | _ =>
    simp only [binary, binaryTests, agree_sides]
    exact plain_bare_iff (by decide) (by decide)

end Comprehend.Printer
