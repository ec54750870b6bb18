import Mathlib.Data.List.Infix
import Comprehend.Proofs.Formula

/-! Expressions that work element by element. Between two blanks of such a text stands no operator
that works on whole values, but for one: an index that is no constant is raised by an undotted
sum. -/
namespace Comprehend.Broadcast

def operators : List String :=
  ["+", "-", "*", "/", "%", "^", "&", "|", "==", "!=", "<", ">", "<=", ">=", "<<", ">>", "&&", "||"]

/-- The operator stands between two blanks of the text. -/
def Shows (op text : String) : Prop :=
  (" " ++ op ++ " ").toList <:+: text.toList

instance (op text : String) : Decidable (Shows op text) :=
  inferInstanceAs (Decidable (_ <:+: _))

/-! Words of a text -/

def isMark (c : Char) : Bool :=
  "+-*/%^&|=!<>".toList.contains c

/-- A character that tells a word from an operator. Where sums may be shown, a plus sign does. -/
def isFirm (sums : Bool) (c : Char) : Bool :=
  !isMark c || sums && c == '+'

/-- Runs over a text whose words all hold a firm character, the last one apart: for that one the
result tells it. The text may go on with a word that has been begun. -/
def walk (sums : Bool) : Bool → List Char → Option Bool
  | firm, [] => some firm
  | firm, c :: cs =>
    if c = ' ' then if firm then walk sums false cs else none
    else walk sums (firm || isFirm sums c) cs

variable {sums : Bool}

theorem walk_append (firm : Bool) (cs ds : List Char) :
    walk sums firm (cs ++ ds) = (walk sums firm cs).bind (walk sums · ds) := by
  induction cs generalizing firm with
  | nil => rfl
  | cons c cs ih =>
    rw [List.cons_append, walk, walk, ih, ih]
    split
    · cases firm <;> rfl
    · rfl

/-- Characters of words are firm. -/
theorem walk_word {cs : List Char} (firm : Bool) (h : ∀ c ∈ cs, Text.isIdentRest c = true) :
    walk sums firm cs = some (firm || !cs.isEmpty) := by
  induction cs generalizing firm with
  | nil => cases firm <;> rfl
  | cons c cs ih =>
    obtain ⟨hc, hcs⟩ := List.forall_mem_cons.mp h
    have hblank : c ≠ ' ' := by
      rintro rfl
      exact absurd hc (by decide)
    have hmark : isMark c = false := by
      refine Bool.eq_false_iff.mpr fun hmark => ?_
      have hnone : ("+-*/%^&|=!<>".toList.all fun m => !Text.isIdentRest m) = true := by decide
      have := List.all_eq_true.mp hnone c (List.contains_iff_mem.mp hmark)
      simp [hc] at this
    rw [walk, if_neg hblank, ih _ hcs]
    simp [isFirm, hmark]

def isBare (sums : Bool) (cs : List Char) : Bool :=
  cs.all fun c => c != ' ' && !isFirm sums c

/-- The run ends behind such a word. -/
theorem walk_bare {op : List Char} (hop : isBare sums op = true) (firm : Bool)
    (cs ds : List Char) : walk sums firm (cs ++ (' ' :: op ++ ' ' :: ds)) = none := by
  have hword : walk sums false (op ++ ' ' :: ds) = none := by
    induction op with
    | nil => rfl
    | cons c op ih =>
      simp only [isBare, List.all_cons, Bool.and_eq_true, bne_iff_ne, Bool.not_eq_true'] at hop
      rw [List.cons_append, walk, if_neg hop.1.1, hop.1.2]
      exact ih hop.2
  rw [walk_append]
  cases walk sums firm cs with
  | none => rfl
  | some firm =>
    rw [Option.bind_some, List.cons_append, walk, if_pos rfl, hword]
    exact ite_self none

/-- Every word of the text holds a firm character, the first one and the last one too. -/
def Solid (sums : Bool) (s : String) : Prop :=
  ∀ firm, walk sums firm s.toList = some true

/-- The same, behind a word that has a firm character. -/
def Trailing (sums : Bool) (s : String) : Prop :=
  walk sums true s.toList = some true

/-- After a word with a firm character, words go on behind this text. -/
def Links (sums : Bool) (s : String) : Prop :=
  (walk sums true s.toList).isSome = true

def isSolid (s : String) : Bool :=
  [false, true].all fun sums => [false, true].all fun firm =>
    walk sums firm s.toList == some true

theorem solid_of_isSolid {s : String} (h : isSolid s = true) : Solid sums s := by
  intro firm
  simp only [isSolid, List.all_cons, List.all_nil, Bool.and_true, Bool.and_eq_true,
    beq_iff_eq] at h
  cases sums <;> cases firm <;> simp [h]

theorem links_of_forall {s : String} (h : ∀ sums, (walk sums true s.toList).isSome = true) :
    Links sums s :=
  h sums

theorem Solid.trailing {s : String} (h : Solid sums s) : Trailing sums s :=
  h true

theorem Solid.append {s t : String} (hs : Solid sums s) (ht : Trailing sums t) :
    Solid sums (s ++ t) := by
  intro firm
  rw [String.toList_append, walk_append, hs firm]
  exact ht

/-- In front of a text it is enough that no word before its last is an operator. -/
theorem Solid.behind {s t : String} (hs : ∀ firm, (walk sums firm s.toList).isSome = true)
    (ht : Solid sums t) : Solid sums (s ++ t) := by
  intro firm
  obtain ⟨later, hlater⟩ := Option.isSome_iff_exists.mp (hs firm)
  rw [String.toList_append, walk_append, hlater]
  exact ht later

theorem Solid.link {s k t : String} (hs : Solid sums s) (hk : Links sums k)
    (ht : Solid sums t) : Solid sums (s ++ k ++ t) := by
  intro firm
  obtain ⟨later, hlater⟩ := Option.isSome_iff_exists.mp hk
  rw [String.toList_append, String.toList_append, walk_append, walk_append, hs firm,
    Option.bind_some, hlater]
  exact ht later

theorem solid_of_chars {s : String} (hne : s.toList ≠ [])
    (h : ∀ c ∈ s.toList, Text.isIdentRest c = true) : Solid sums s := by
  intro firm
  rw [walk_word firm h]
  simp [hne]

theorem trailing_of_chars {cs : List Char} (h : ∀ c ∈ cs, Text.isIdentRest c = true) :
    Trailing sums (String.ofList cs) := by
  rw [Trailing, String.toList_ofList, walk_word true h, Bool.true_or]

theorem solid_word {s : String} (h : Formula.isWord s = true) : Solid sums s := by
  obtain ⟨c, cs, hs, -, hrest⟩ := Formula.exists_of_isWord h
  exact solid_of_chars (by simp [hs]) (hs ▸ hrest)

/-! Literals -/

theorem solid_repr (n : Nat) : Solid sums (Nat.repr n) := by
  obtain ⟨c, cs, hn, -, hrest⟩ := Formula.exists_digits n
  have hs : (Nat.repr n).toList = c :: cs := by
    rw [Nat.repr_eq_ofList_toDigits, String.toList_ofList, hn]
  exact solid_of_chars (by simp [hs]) (hs ▸ hrest)

theorem solid_toString (n : Int) : Solid sums (toString n) := by
  cases n with
  | ofNat n => exact solid_repr n
  | negSucc n =>
    have hsign : ∀ sums firm, (walk sums firm "-".toList).isSome = true := by decide
    exact (solid_repr (n + 1)).behind (hsign sums)

/-- The digits are cut in two at the point, and one part may be empty. -/
theorem solid_positional (d : Number.Decimal) : Solid sums d.positional := by
  obtain ⟨c, cs, hn, -, hrest⟩ := Formula.exists_digits d.digits
  have htext : d.text = c :: cs := by
    rw [Number.Decimal.text, Nat.repr_eq_ofList_toDigits, String.toList_ofList, hn]
  have hzeros (k : Nat) : ∀ c ∈ List.replicate k '0', Text.isIdentRest c = true := by
    intro c hc
    rw [List.eq_of_mem_replicate hc]
    decide
  have hdigits : ∀ c ∈ d.text, Text.isIdentRest c = true := htext ▸ hrest
  unfold Number.Decimal.positional
  dsimp only
  split
  · exact solid_of_isSolid (by decide)
  split
  · exact (solid_of_isSolid (by decide)).append
      (trailing_of_chars (List.forall_mem_append.mpr ⟨hzeros _, hdigits⟩))
  split
  · refine solid_of_chars ?_ ?_ <;> rw [String.toList_ofList]
    · simp [htext]
    · exact List.forall_mem_append.mpr ⟨hdigits, hzeros _⟩
  · have hwhole (firm : Bool) :
        (walk sums firm (String.ofList (d.text.take d.pointAt.toNat)).toList).isSome = true := by
      rw [String.toList_ofList, walk_word firm fun c hc => hdigits c (List.mem_of_mem_take hc)]
      rfl
    have hpoint : Solid sums "." := solid_of_isSolid (by decide)
    exact (hpoint.behind hwhole).append
      (trailing_of_chars fun c hc => hdigits c (List.mem_of_mem_drop hc))

theorem solid_pointed (x : Number.Binary64) : Solid sums x.pointed := by
  unfold Number.Binary64.pointed Number.Binary64.spell
  split
  · have hsign : ∀ sums firm,
        (walk sums firm (if x.isNegative then "-" else "").toList).isSome = true := by
      cases x.isNegative <;> decide
    refine Solid.behind (hsign sums) ?_
    dsimp only
    split
    · exact (solid_positional _).append (solid_of_isSolid (by decide)).trailing
    · exact solid_positional _
  · split
    · exact solid_of_isSolid (by decide)
    · split <;> exact solid_of_isSolid (by decide)

def isText : Expr → Bool
  | .const (.str _) => true
  | _ => false

theorem solid_literal {l : Literal} (h : isText (.const l) = false) :
    Solid sums (Dialect.juliaBroadcast.literal l) := by
  cases l with
  | int n => exact solid_toString n.toInt
  | float x => exact solid_pointed x
  | bool b => cases b <;> exact solid_of_isSolid (by decide)
  | str s => cases h
  | none => exact solid_of_isSolid (by decide)

/-! Nodes -/

/-- An index that is no constant, and so is raised in the text. -/
def isShifted : Expr → Bool
  | .subscript _ i => i.natural?.isNone
  | _ => false

/-- How a text is woven of the texts of expressions and of fixed ones. An expression without a
raised index need not be shown. -/
inductive Woven (p : Printer) (sums : Bool) : List Expr → String → Prop where
  | text (d : Expr) : Woven p sums [d] (p.print d)
  | mark {s : String} (hs : Solid sums s) : Woven p sums [] s
  | link {ds es : List Expr} {s t : String} (k : String) (hk : Links sums k)
    (hs : Woven p sums ds s) (ht : Woven p sums es t) : Woven p sums (ds ++ es) (s ++ k ++ t)
  | hide {ds : List Expr} {s : String} (d : Expr) (hd : d.anyNode isShifted = false)
    (hs : Woven p sums ds s) : Woven p sums (d :: ds) s

namespace Woven

variable {p : Printer} {ds es : List Expr} {s t : String}

theorem solid (h : Woven p sums ds s) (hds : ∀ d ∈ ds, Solid sums (p.print d)) : Solid sums s := by
  induction h with
  | text d => exact hds d List.mem_cons_self
  | mark hs => exact hs
  | link k hk hs ht ihs iht =>
    obtain ⟨hleft, hright⟩ := List.forall_mem_append.mp hds
    exact (ihs hleft).link hk (iht hright)
  | hide d hd hs ih => exact ih (List.forall_mem_cons.mp hds).2

/-- Where an index is raised, its expression is shown in full. -/
theorem shown_of_shifted (h : Woven p sums ds s) {d : Expr} (hd : d ∈ ds)
    (hshift : d.anyNode isShifted = true) : (p.print d).toList <:+: s.toList := by
  induction h with
  | text e => rw [List.mem_singleton.mp hd]
  | mark hs => cases hd
  | link k hk hs ht ihs iht =>
    rw [String.toList_append, String.toList_append]
    rcases List.mem_append.mp hd with hd | hd
    · exact ((ihs hd).trans (List.prefix_append ..).isInfix).trans (List.prefix_append ..).isInfix
    · exact (iht hd).trans (List.suffix_append ..).isInfix
  | hide e he hs ih =>
    rcases List.mem_cons.mp hd with rfl | hd
    · rw [he] at hshift
      cases hshift
    · exact ih hd

/-- Texts side by side. -/
theorem append (hs : Woven p sums ds s) (ht : Woven p sums es t) :
    Woven p sums (ds ++ es) (s ++ t) := by
  have h := link "" (links_of_forall (by decide)) hs ht
  rwa [String.append_empty] at h

theorem opened (k : String) (hk : isSolid k = true) (ht : Woven p sums ds t) :
    Woven p sums ds (k ++ t) :=
  (mark (solid_of_isSolid hk)).append ht

theorem closed (k : String) (hk : isSolid k = true) (hs : Woven p sums ds s) :
    Woven p sums ds (s ++ k) := by
  simpa using hs.append (mark (solid_of_isSolid hk))

/-- Brackets around an operand are fixed texts. -/
theorem within (d : Dialect) (n : Nat) (e : Expr) :
    Woven p sums [e] (Operand.within ⟨e, p.print e⟩ d n) := by
  unfold Operand.within
  split
  · exact ((text e).opened "(" (by decide)).closed ")" (by decide)
  · exact text e

theorem join (e : Expr) (es : List Expr) :
    Woven p sums (e :: es) (Operand.join (p.operands (e :: es))) := by
  show Woven p sums (e :: es) (", ".intercalate ((p.operands (e :: es)).map (·.text)))
  induction es generalizing e with
  | nil => simpa [Printer.operands] using text e
  | cons d es ih =>
    have h := link ", " (links_of_forall (by decide)) (text e) (ih d)
    simp only [Printer.operands, List.map_cons] at h ⊢
    rwa [String.intercalate_cons_cons]

/-- Arguments in brackets, if there are any. -/
theorem enclosed {a b : String} (ha : isSolid a = true) (hb : isSolid b = true) (es : List Expr) :
    Woven p sums es (a ++ Operand.join (p.operands es) ++ b) := by
  cases es with
  | nil =>
    have hnone : Operand.join (p.operands []) = "" := rfl
    rw [hnone, String.append_empty]
    exact (mark (solid_of_isSolid ha)).closed b hb
  | cons e es => exact ((join e es).opened a ha).closed b hb

/-- A function of two arguments. -/
theorem applied {lead : String} (hlead : isSolid lead = true) (l r : Expr) :
    Woven p sums [l, r] (lead ++ p.print l ++ ", " ++ p.print r ++ ")") := by
  have hleft : Woven p sums [l] (lead ++ p.print l) := (text l).opened lead hlead
  exact (link ", " (links_of_forall (by decide)) hleft (text r)).closed ")" (by decide)

/-- A dotted operator between two operands. -/
theorem dotted {k : String} (hk : isSolid k = true) (d : Dialect) (m n : Nat) (l r : Expr) :
    Woven p sums [l, r] (Operand.within ⟨l, p.print l⟩ d m ++ " " ++ k ++ " " ++
      Operand.within ⟨r, p.print r⟩ d n) := by
  have hblank : Links sums " " := links_of_forall (by decide)
  exact link " " hblank (link " " hblank (within d m l) (mark (solid_of_isSolid hk))) (within d n r)

end Woven

section Nodes

variable {p : Printer} (hd : p.dialect = .juliaBroadcast)

include hd

theorem woven_unary (op : UnaryOp) (e : Expr) :
    Woven p sums [e] (p.unary op ⟨e, p.print e⟩) := by
  cases op <;> simp only [Printer.unary, Printer.signMark, hd]
  case pos => exact .text e
  all_goals exact (Woven.within _ _ e).opened _ (by decide)

theorem woven_plain (l : Expr) {op : BinOp} (hop : op ≠ .pow) (r : Expr) :
    Woven p sums [l, r] (p.plain ⟨l, p.print l⟩ op ⟨r, p.print r⟩) := by
  cases op <;> simp only [Printer.plain, Printer.binarySymbol, hd]
  case pow => exact absurd rfl hop
  case bitXor => exact .applied (by decide) l r
  all_goals exact .dotted (by decide) _ _ _ l r

theorem woven_floored (l : Expr) (op : BinOp) (r : Expr) :
    Woven p sums [l, r] (p.floored ⟨l, p.print l⟩ op ⟨r, p.print r⟩) := by
  simp only [Printer.floored, hd]
  split <;> exact .applied (by decide) l r

theorem woven_power (l r : Expr) :
    Woven p sums [l, r] (p.power ⟨l, p.print l⟩ ⟨r, p.print r⟩) := by
  have h : Woven p sums [l, r] _ := .dotted (k := ".^") (by decide) .juliaBroadcast 14 12 l r
  simp only [Printer.power, hd]
  simpa [Dialect.dot, Dialect.isDotted, String.append_assoc] using h

theorem woven_binary (l : Expr) (op : BinOp) (r : Expr) :
    Woven p sums [l, r] (p.binary ⟨l, p.print l⟩ op ⟨r, p.print r⟩) := by
  unfold Printer.binary
  split
  · exact woven_power hd l r
  · split
    · exact woven_plain hd l (by decide) r
    · exact woven_floored hd l _ r
  · split
    · exact woven_plain hd l (by decide) r
    · exact woven_floored hd l _ r
  · exact woven_plain hd l ‹_› r

theorem woven_boolOp (op : BoolOp) (l r : Expr) :
    Woven p sums [l, r] (p.boolOp op ⟨l, p.print l⟩ ⟨r, p.print r⟩) := by
  cases op <;> simp only [Printer.boolOp, Printer.boolSymbol, hd] <;>
    exact .dotted (by decide) _ _ _ l r

theorem woven_membership (l r : Expr) (negated : Bool) (items : List Operand) :
    Woven p sums [l, r] (p.membership ⟨l, p.print l⟩ negated ⟨r, p.print r⟩ items) := by
  have htest : Woven p sums [l, r] ("in.(" ++ p.print l ++ ", Ref(" ++ p.print r ++ "))") := by
    have hleft : Woven p sums [l] ("in.(" ++ p.print l) := (Woven.text l).opened _ (by decide)
    exact (hleft.link ", Ref(" (links_of_forall (by decide)) (.text r)).closed _ (by decide)
  simp only [Printer.membership, hd]
  split
  · exact htest.opened _ (by decide)
  · exact htest

theorem woven_compare (l : Expr) (op : CmpOp) (r : Expr) (items : List Operand) :
    Woven p sums [l, r] (p.compare ⟨l, p.print l⟩ op ⟨r, p.print r⟩ items) := by
  cases op <;> simp only [Printer.compare, hd]
  case isIn => exact woven_membership hd l r false items
  case notIn => exact woven_membership hd l r true items
  all_goals exact .dotted (by decide) _ _ _ l r

theorem woven_ternary (c y n : Expr) :
    Woven p sums [c, y, n] (p.ternary ⟨c, p.print c⟩ ⟨y, p.print y⟩ ⟨n, p.print n⟩) := by
  have hcomma : Links sums ", " := links_of_forall (by decide)
  have hcond : Woven p sums [c] ("ifelse.(" ++ p.print c) := (Woven.text c).opened _ (by decide)
  simp only [Printer.ternary, hd]
  exact ((hcond.link ", " hcomma (.text y)).link ", " hcomma (.text n)).closed ")" (by decide)

/-- A constant index is written as the number after it. -/
theorem woven_subscript (x i : Expr) (hsums : isShifted (.subscript x i) = true → sums = true) :
    Woven p sums [x, i] (p.subscript ⟨x, p.print x⟩ ⟨i, p.print i⟩) := by
  have hopen : Woven p sums [x] (Operand.within ⟨x, p.print x⟩ p.dialect 14 ++ "[") :=
    (Woven.within _ _ x).closed "[" (by decide)
  simp only [Printer.subscript, hd] at hopen ⊢
  cases hi : i.natural? with
  | some n =>
    have hconst : i.anyNode isShifted = false := by
      unfold Expr.natural? at hi
      split at hi
      · rfl
      · cases hi
    have hindex : Woven p sums [i] (toString (n + 1).toInt) :=
      .hide i hconst (.mark (solid_toString _))
    exact (hopen.append hindex).closed "]" (by decide)
  | none =>
    have hplus : Links sums " + " := by
      rw [hsums (by simp [isShifted, hi])]
      exact (by decide : (walk true true " + ".toList).isSome = true)
    have hone : Woven p sums [] "1]" := .mark (solid_of_isSolid (by decide))
    have h := (hopen.append (Woven.within .juliaBroadcast 10 i)).link " + " hplus hone
    simpa [String.append_assoc] using h

/-- A builtin has a name of its own in the text. -/
theorem exists_of_builtin {f : Expr} {args : List Operand} {s : String}
    (h : p.builtin? f args = some s) :
    (∃ n, f = .name n) ∧ ∃ lead : String, isSolid lead = true ∧
      s = lead ++ Operand.join args ++ ")" := by
  unfold Printer.builtin? at h
  split at h
  · refine ⟨⟨_, rfl⟩, ?_⟩
    split at h <;> cases h
    · exact ⟨"abs.(", by decide, by simp [Printer.absolute, hd, Operand.join, commas, Dialect.dot,
        Dialect.isDotted]⟩
    · exact ⟨"length.(", by decide, by simp [Printer.length, hd, Operand.join, commas, Dialect.dot,
        Dialect.isDotted]⟩
    · exact ⟨"min.(", by decide, by simp [Printer.extremum, hd]⟩
    · exact ⟨"max.(", by decide, by simp [Printer.extremum, hd]⟩
  · cases h

theorem woven_call (f : Expr) (args : List Expr) :
    Woven p sums (f :: args) (p.call ⟨f, p.print f⟩ (p.operands args)) := by
  unfold Printer.call
  split
  next s hs =>
    obtain ⟨⟨n, rfl⟩, lead, hlead, rfl⟩ := exists_of_builtin hd hs
    exact .hide _ rfl (.enclosed hlead (by decide) args)
  · have hargs : Woven p sums args (".(" ++ Operand.join (p.operands args) ++ ")") :=
      .enclosed (by decide) (by decide) args
    have h := (Woven.within p.dialect 14 f).append hargs
    simpa [hd, Dialect.dot, Dialect.isDotted, String.append_assoc] using h

theorem woven_tuple (items : List Expr) : Woven p sums items (p.tuple (p.operands items)) := by
  simp only [Printer.tuple, hd]
  split <;> exact .enclosed (by decide) (by decide) items

theorem woven_list (items : List Expr) : Woven p sums items (p.list (p.operands items)) := by
  simp only [Printer.list, hd]
  exact .enclosed (by decide) (by decide) items

/-- A node's text is woven of the texts of its operands. -/
theorem woven_print {e : Expr} (htext : isText e = false)
    (hwords : ∀ n ∈ e.words, Formula.isWord n = true) (hsums : isShifted e = true → sums = true) :
    Woven p sums e.operands (p.print e) := by
  cases e with
  | const l =>
    rw [Printer.print, hd]
    exact .mark (solid_literal htext)
  | name n => exact .mark (solid_word (hwords n (by simp [Expr.words])))
  | unary op x => exact woven_unary hd op x
  | binary l op r => exact woven_binary hd l op r
  | boolOp op l r => exact woven_boolOp hd op l r
  | compare l op r => exact woven_compare hd l op r _
  | ternary c y n => exact woven_ternary hd c y n
  | call f args => exact woven_call hd f args
  | member x field =>
    have hfield : Woven p sums [] field := .mark (solid_word (hwords field (by simp [Expr.words])))
    exact ((Woven.within p.dialect 14 x).closed "." (by decide)).append hfield
  | subscript x i => exact woven_subscript hd x i hsums
  | tuple items => exact woven_tuple hd items
  | list items => exact woven_list hd items

/-! Trees -/

/-- Every word of the text holds a firm character, where plus signs are firm if an index is
raised. -/
theorem solid_print {e : Expr} (htext : e.anyNode isText = false)
    (hwords : ∀ n ∈ e.words, Formula.isWord n = true)
    (hsums : e.anyNode isShifted = true → sums = true) : Solid sums (p.print e) := by
  induction e using Expr.induction_on_operands with
  | h e ih =>
    obtain ⟨hnode, hbelow⟩ := Expr.anyNode_eq_false.mp htext
    have hself (h : isShifted e = true) : sums = true :=
      hsums (Expr.anyNode_eq_true.mpr (.inl h))
    refine (woven_print hd hnode hwords hself).solid fun d hmem => ?_
    exact ih d hmem (hbelow d hmem) (fun n hn => hwords n (Expr.words_of_operand hmem hn))
      fun h => hsums (Expr.anyNode_eq_true.mpr (.inr ⟨d, hmem, h⟩))

/-- The sum that raises an index is shown, however deep the index stands. -/
theorem shows_of_shifted {e : Expr} (htext : e.anyNode isText = false)
    (hwords : ∀ n ∈ e.words, Formula.isWord n = true) (hshift : e.anyNode isShifted = true) :
    Shows "+" (p.print e) := by
  induction e using Expr.induction_on_operands with
  | h e ih =>
    obtain ⟨hnode, hbelow⟩ := Expr.anyNode_eq_false.mp htext
    rcases Expr.anyNode_eq_true.mp hshift with hself | ⟨d, hmem, hbelowShift⟩
    · cases e with
      | subscript x i =>
        have hi : i.natural? = none := by simpa [isShifted] using hself
        have hsum : Shows "+" " + 1]" := by decide
        simp only [Printer.print, Printer.subscript, hd, hi]
        exact hsum.trans (String.toList_append ▸ (List.suffix_append ..).isInfix)
      | _ => cases hself
    · have hwoven : Woven p true e.operands (p.print e) := woven_print hd hnode hwords fun _ => rfl
      have hshown := ih d hmem (hbelow d hmem)
        (fun n hn => hwords n (Expr.words_of_operand hmem hn)) hbelowShift
      exact hshown.trans (hwoven.shown_of_shifted hmem hbelowShift)

end Nodes

/-- No operator is shown that is a bare word. -/
theorem not_shows_of_solid {s op : String} (hs : Solid sums s)
    (hop : isBare sums op.toList = true) : ¬ Shows op s := by
  rintro ⟨before, behind, heq⟩
  have hparts : s.toList = before ++ (' ' :: op.toList ++ ' ' :: behind) := by simp [← heq]
  have hsolid := hs true
  rw [hparts, walk_bare hop] at hsolid
  cases hsolid

/-- The only operator on whole values in a text that works element by element is the sum that
raises an index, and that one is there for every index that is no constant. -/
theorem shows_print_iff {p : Printer} (hd : p.dialect = .juliaBroadcast) (e : Expr)
    (htext : e.anyNode isText = false) (hwords : ∀ n ∈ e.words, Formula.isWord n = true)
    (op : String) (hop : op ∈ operators) :
    Shows op (p.print e) ↔ op = "+" ∧ e.anyNode isShifted = true := by
  constructor
  · intro hshows
    have hsolid : Solid (e.anyNode isShifted) (p.print e) := solid_print hd htext hwords id
    have hbare : ∀ sums, (operators.all fun op => op == "+" && sums || isBare sums op.toList) =
        true := by
      decide
    have hcases := List.all_eq_true.mp (hbare (e.anyNode isShifted)) op hop
    rw [Bool.or_eq_true, Bool.and_eq_true, beq_iff_eq] at hcases
    exact hcases.resolve_right fun h => not_shows_of_solid hsolid h hshows
  · rintro ⟨rfl, hshift⟩
    exact shows_of_shifted hd htext hwords hshift

def elementTest : Expr :=
  .compare (.subscript (.name "xs") (.name "i")) .lt (.binary (.name "x") .add (.const (.int 1)))

theorem shows_print_iff_elementTest :
    Printer.print { dialect := .juliaBroadcast } elementTest = "xs[i + 1] .< x .+ 1" ∧
      elementTest.anyNode isText = false ∧
      (∀ n ∈ elementTest.words, Formula.isWord n = true) ∧ "<" ∈ operators ∧
      (Shows "<" (Printer.print { dialect := .juliaBroadcast } elementTest) ↔
        "<" = "+" ∧ elementTest.anyNode isShifted = true) := by
  have htext : elementTest.anyNode isText = false := by decide
  have hwords : ∀ n ∈ elementTest.words, Formula.isWord n = true := by decide
  exact ⟨by decide, htext, hwords, by decide,
    shows_print_iff rfl elementTest htext hwords "<" (by decide)⟩

/-- An element at an index that is no constant is not read element by element. -/
theorem shows_print_element :
    Printer.print { dialect := .juliaBroadcast } (.subscript (.name "xs") (.name "i")) =
        "xs[i + 1]" ∧
      Shows "+" (Printer.print { dialect := .juliaBroadcast }
        (.subscript (.name "xs") (.name "i"))) := by
  decide

end Comprehend.Broadcast
