import Comprehend.Proofs.ExpressionText

/-! How tokens are spelled: texts that the scanner takes for given tokens wherever they stand, as
long as a break follows. Names and numbers spell themselves, and such texts can be put together with
spaces, signs and brackets. -/
namespace Comprehend

namespace Token

open Text Piece

/-- The characters are words of these kinds with spaces between them, at any bracket depth and
before any break. -/
def Spells (s : List Char) (ks : List TokenKind) : Prop :=
  ∃ qs, text qs = s ∧ Piece.kinds qs = ks ∧ StartsInWord qs ∧ EndsInWord qs ∧
    ∀ depth rest, Breaks rest → Tiles rest depth qs

variable {s t : List Char} {ks ls : List TokenKind}

/-- Before any break, the characters are one word of this kind. -/
def Word (k : TokenKind) (s : List Char) : Prop :=
  ∃ c cs, s = c :: cs ∧ ∀ rest, Breaks rest → lexeme c (cs ++ rest) = .ok (k, cs.length + 1)

theorem Word.tiles {k : TokenKind} {rest : List Char} {depth : Nat} {qs : List Piece} (h : Word k s)
    (hbreaks : Breaks (text qs ++ rest)) (hqs : Tiles rest (k.depthAfter depth) qs) :
    Tiles rest depth (⟨s, some k⟩ :: qs) := by
  obtain ⟨c, cs, rfl, hlexeme⟩ := h
  exact .word (hlexeme _ hbreaks) hqs

theorem Word.isWordKind {k : TokenKind} (h : Word k s) : isWordKind k = true := by
  obtain ⟨c, cs, -, hlexeme⟩ := h
  exact isWordKind_of_lexeme (hlexeme [] (by simp))

theorem endsInWord_single {k : TokenKind} (hk : Token.isWordKind k = true) (cs : List Char) :
    EndsInWord [⟨cs, some k⟩] := by
  simpa [EndsInWord] using hk

theorem Word.spells {k : TokenKind} (h : Word k s) : Spells s [k] :=
  ⟨[⟨s, some k⟩], by simp, rfl, ⟨s, k, [], rfl, h.isWordKind⟩, endsInWord_single h.isWordKind s,
    fun _ _ hrest => h.tiles hrest .done⟩

/-- A word that is known whatever follows may stand before another without a space. -/
theorem Spells.behind {c : Char} {k : TokenKind} (hk : ∀ us, lexeme c us = .ok (k, 1))
    (h : Spells s ks) : Spells (c :: s) (k :: ks) := by
  obtain ⟨qs, rfl, rfl, hstarts, hends, htiles⟩ := h
  exact ⟨⟨[c], some k⟩ :: qs, rfl, rfl, ⟨[c], k, qs, rfl, isWordKind_of_lexeme (hk [])⟩,
    hends.append hstarts.ne_nil [_], fun depth rest hrest => .word (hk _) (htiles _ rest hrest)⟩

theorem gap_space (depth : Nat) (us : List Char) : gap depth ' ' us = 1 := by
  simp [gap, isBlank]

theorem Spells.spaced (h : Spells s ks) (g : Spells t ls) : Spells (s ++ ' ' :: t) (ks ++ ls) := by
  obtain ⟨qs, rfl, rfl, hstarts, -, hqs⟩ := h
  obtain ⟨rs, rfl, rfl, hstarts', hends', hrs⟩ := g
  have hends : EndsInWord (⟨[' '], none⟩ :: rs) := hends'.append hstarts'.ne_nil [_]
  refine ⟨qs ++ ⟨[' '], none⟩ :: rs, by simp, by simp, hstarts.append _,
    hends.append (by simp) qs, fun depth rest hrest => ?_⟩
  exact tiles_append.mpr ⟨hqs depth _ (by simp [isBreak]),
    .gap (gap_space _ _) (hrs _ rest hrest)⟩

theorem single_facts {c : Char} {k : TokenKind} (h : single c = some k) :
    ¬(c = '"' ∨ c = '\'') ∧ c.isDigit = false ∧ isIdentStart c = false := by
  unfold single at h
  split at h
  all_goals first | decide | cases h

/-- An operator of one character, if the next one makes no longer operator of it. -/
theorem lexeme_single {c : Char} {k : TokenKind} {us : List Char} (hk : single c = some k)
    (hdot : c ≠ '.') (hdouble : us.head?.bind (double c) = none) :
    lexeme c us = .ok (k, 1) := by
  obtain ⟨hquote, hdigit, hstart⟩ := single_facts hk
  refine lexeme_iff.mpr (.operator hquote ?_ hstart ?_)
  · simp [startsNumber, hdigit, hdot]
  · simp [operator, hdouble, hk]

/-- The character begins no operator of two characters. -/
def isSolo (c : Char) : Bool :=
  c != '*' && c != '/' && c != '=' && c != '!' && c != '<' && c != '>'

theorem lexeme_solo {c : Char} {k : TokenKind} (hk : single c = some k) (hdot : c ≠ '.')
    (hsolo : isSolo c = true) (us : List Char) : lexeme c us = .ok (k, 1) := by
  refine lexeme_single hk hdot ?_
  cases us with
  | nil => rfl
  | cons d us =>
    simp only [isSolo, Bool.and_eq_true, bne_iff_ne] at hsolo
    simp only [List.head?_cons, Option.bind_some]
    unfold double
    split <;> simp_all

theorem word_operator {c : Char} {k : TokenKind} (hk : single c = some k) (hdot : c ≠ '.') :
    Word k [c] := by
  refine ⟨c, [], rfl, fun rest hrest => lexeme_single hk hdot ?_⟩
  cases rest with
  | nil => rfl
  | cons d rest => exact double_of_isBreak c d (by simpa using hrest)

theorem Spells.round (h : Spells s ks) :
    Spells ('(' :: (s ++ [')'])) (.lparen :: (ks ++ [.rparen])) := by
  obtain ⟨qs, rfl, rfl, hstarts, -, hqs⟩ := h
  have hclose : Spells (text qs ++ [')']) (Piece.kinds qs ++ [.rparen]) := by
    refine ⟨qs ++ [⟨[')'], some .rparen⟩], by simp, by simp, hstarts.append _,
      (endsInWord_single rfl _).append (by simp) qs, fun depth rest hrest => ?_⟩
    exact tiles_append.mpr ⟨hqs depth _ (by simp [isBreak]),
      .word (lexeme_solo rfl (by decide) rfl _) .done⟩
  exact hclose.behind (lexeme_solo rfl (by decide) rfl)

/-! Names -/

def isName (s : String) : Bool :=
  match s.toList with
  | [] => false
  | c :: cs => isIdentStart c && cs.all isIdentRest && TokenKind.ofWord s == .ident s

theorem isIdentStart_facts {c : Char} (h : isIdentStart c = true) :
    ¬(c = '"' ∨ c = '\'') ∧ c.isDigit = false ∧ c ≠ '.' := by
  refine ⟨?_, ?_, ?_⟩
  · rintro (rfl | rfl) <;> revert h <;> decide
  · refine Bool.not_eq_true _ ▸ fun hdigit => ?_
    rw [isDigit_iff] at hdigit
    have hascii : c.toNat < 128 := by omega
    have halpha : c.isAlpha = false := by
      rw [← Bool.not_eq_true, isAlpha_iff]
      omega
    have hline : c ≠ '_' := by
      rintro rfl
      revert hdigit
      decide
    simp [isIdentStart, isLetter, hascii, halpha, hline] at h
  · rintro rfl
    revert h
    decide

theorem takeWhile_all {p : Char → Bool} {cs rest : List Char} (h : ∀ c ∈ cs, p c = true)
    (hp : ∀ c, isBreak c = true → p c = false) (hrest : Breaks rest) :
    (cs ++ rest).takeWhile p = cs := by
  rw [List.takeWhile_append_of_pos h]
  cases rest with
  | nil => simp
  | cons d rest => simp [hp d (by simpa using hrest)]

/-- Letters and numerals, a letter first, are one word. -/
theorem word_ofWord {c : Char} {cs : List Char} (hstart : isIdentStart c = true)
    (hrest : ∀ d ∈ cs, isIdentRest d = true) :
    Word (.ofWord (String.ofList (c :: cs))) (c :: cs) := by
  obtain ⟨hquote, hdigit, hdot⟩ := isIdentStart_facts hstart
  refine ⟨c, cs, rfl, fun rest hbreaks => lexeme_iff.mpr ?_⟩
  have hrun := takeWhile_all hrest (fun _ => isIdentRest_of_isBreak) hbreaks
  have hlexeme : Lexeme c (cs ++ rest) _ _ :=
    .word hquote (by simp [startsNumber, hdigit, hdot]) hstart
  rwa [hrun, Nat.add_comm] at hlexeme

theorem word_name {n : String} (h : isName n = true) : Word (.ident n) n.toList := by
  unfold isName at h
  split at h
  · simp at h
  next c cs hn =>
    simp only [Bool.and_eq_true, List.all_eq_true, beq_iff_eq] at h
    have hword := word_ofWord h.1.1 h.1.2
    rwa [← hn, String.ofList_toList, h.2] at hword

theorem isName_of_lexeme {c : Char} {us : List Char} {n : String} {w : Nat}
    (h : lexeme c us = .ok (.ident n, w)) : isName n = true := by
  obtain ⟨hstart, hn, hword, -⟩ := name_of_lexeme h
  have hlist : n.toList = c :: us.takeWhile isIdentRest := by rw [hn, String.toList_ofList]
  simp only [isName, hlist, hstart, hword, beq_self_eq_true, Bool.and_true, Bool.true_and,
    List.all_eq_true]
  exact fun d hd => mem_takeWhile hd

/-- Whatever a scanned text has names in is a name. -/
theorem Tiles.isName_of_mem {rest : List Char} {depth : Nat} {qs : List Piece}
    (h : Tiles rest depth qs) {n : String} (hn : .ident n ∈ Piece.kinds qs) : isName n = true := by
  induction h with
  | done => simp at hn
  | gap _ _ ih => exact ih hn
  | line _ ih => exact ih (by simpa using hn)
  | word hword _ ih =>
    rcases List.mem_cons.mp hn with rfl | hn
    · exact isName_of_lexeme hword
    · exact ih hn

/-- Whatever integers a scanned text has are not below zero. -/
theorem Tiles.nonneg_of_mem {rest : List Char} {depth : Nat} {qs : List Piece}
    (h : Tiles rest depth qs) {n : Int64} (hn : .int n ∈ Piece.kinds qs) : 0 ≤ n.toInt := by
  induction h with
  | done => simp at hn
  | gap _ _ ih => exact ih hn
  | line _ ih => exact ih (by simpa using hn)
  | word hword _ ih =>
    rcases List.mem_cons.mp hn with rfl | hn
    · exact int_of_lexeme hword
    · exact ih hn

/-! Integers -/

theorem digitsValue_of_isDigit {ds : List Char} (h : ∀ d ∈ ds, d.isDigit = true) :
    digitsValue 10 ds = Nat.ofDigitChars 10 ds 0 := by
  unfold digitsValue Nat.ofDigitChars
  generalize 0 = n
  induction ds generalizing n with
  | nil => rfl
  | cons d ds ih =>
    rw [List.foldl_cons, List.foldl_cons, ih fun c hc => h c (by simp [hc])]
    simp [digitValue, h d (by simp), Nat.mul_comm]

/-- Digits before a break are a whole number without a fraction and an exponent. -/
theorem decimalParts_of_digits {ds rest : List Char} (h : ∀ d ∈ ds, d.isDigit = true)
    (hrest : Breaks rest) : DecimalParts.of (ds ++ rest) = ⟨ds, [], []⟩ := by
  have hwhole : (ds ++ rest).takeWhile isDigitRun = ds :=
    takeWhile_all (fun d hd => by simp [isDigitRun, h d hd]) isDigitRun_of_isBreak hrest
  simp [DecimalParts.of, hwhole, fractionWidth_of_breaks hrest, exponentWidth_of_breaks hrest]

theorem isHexStart_of_digits {c : Char} {cs rest : List Char} (h : ∀ d ∈ cs, d.isDigit = true)
    (hrest : Breaks rest) : isHexStart (c :: (cs ++ rest)) = false := by
  cases cs with
  | nil => exact isHexStart_of_breaks c hrest
  | cons d cs =>
    have hd := h d (by simp)
    have hmark : isHexMark d = false := by
      refine Bool.not_eq_true _ ▸ fun hmark => ?_
      simp only [isHexMark, Bool.or_eq_true, beq_iff_eq] at hmark
      rcases hmark with rfl | rfl <;> simp [Char.isDigit] at hd
    simp [isHexStart, hmark]

/-- Digits are the integer of their value. -/
theorem word_digits {ds : List Char} {n : Int64} (hne : ds ≠ []) (h : ∀ d ∈ ds, d.isDigit = true)
    (hn : n.toInt = digitsValue 10 ds) : Word (.int n) ds := by
  obtain ⟨c, cs, rfl⟩ := List.exists_cons_of_ne_nil hne
  have hc : c.isDigit = true := h c (by simp)
  have hquote : ¬(c = '"' ∨ c = '\'') := by
    rintro (rfl | rfl) <;> simp [Char.isDigit] at hc
  refine ⟨c, cs, rfl, fun rest hrest =>
    lexeme_iff.mpr (.number hquote (by simp [startsNumber, hc]) ?_)⟩
  have hunderscore : withoutUnderscores (c :: cs) = c :: cs := by
    refine List.filter_eq_self.mpr fun d hd => bne_iff_ne.mpr ?_
    rintro rfl
    simpa [Char.isDigit] using h _ hd
  rw [number_decimal (isHexStart_of_digits (fun d hd => h d (by simp [hd])) hrest),
    DecimalParts.decimalNumber_eq, ← List.cons_append, decimalParts_of_digits h hrest]
  simp [DecimalParts.kind, DecimalParts.width, hunderscore, integerOf, ← hn]

theorem toList_toString_natCast (m : Nat) : (toString (m : Int)).toList = Nat.toDigits 10 m :=
  String.toList_ofList

/-- A negative integer is written as a sign and its absolute value. -/
theorem toList_toString_neg {a : Int} (h : a < 0) :
    (toString a).toList = '-' :: (toString (-a)).toList := by
  obtain ⟨m, rfl⟩ := Int.eq_negSucc_of_lt_zero h
  have hneg : -Int.negSucc m = ((m + 1 : Nat) : Int) := rfl
  rw [hneg, toList_toString_natCast]
  show ("-" ++ Nat.repr (m + 1)).toList = _
  rw [String.toList_append]
  exact congrArg ('-' :: ·) String.toList_ofList

theorem word_natural {n : Int64} (h : 0 ≤ n.toInt) : Word (.int n) (toString n.toInt).toList := by
  obtain ⟨m, hm⟩ := Int.eq_ofNat_of_zero_le h
  have hall : ∀ d ∈ Nat.toDigits 10 m, d.isDigit = true :=
    fun d hd => Nat.isDigit_of_mem_toDigits (by decide) (by decide) hd
  rw [hm, toList_toString_natCast]
  refine word_digits Nat.toDigits_ne_nil hall ?_
  rw [digitsValue_of_isDigit hall, Nat.ofDigitChars_toDigits (by decide) (by decide), hm]

end Token

namespace Expr

open Grammar

/-- No line feed stands in a phrase. -/
theorem filter_native {ks : List TokenKind} (h : Native ks) : ks.filter (· != .newline) = ks := by
  refine List.filter_eq_self.mpr fun k hk => bne_iff_ne.mpr ?_
  rintro rfl
  simpa [isForeign] using h _ hk

/-- A text that spells a phrase is read as its tree. -/
theorem parse_spelled {s : String} {ks : List TokenKind} {e : Expr} (hs : Token.Spells s.toList ks)
    (he : Expression ks e) : parse s = .ok e := by
  obtain ⟨qs, htext, rfl, -, -, htiles⟩ := hs
  rw [parse_eq, recognizes_expression.parseWith_tiles (htiles 0 [] (by simp)) htext.symm,
    filter_native he.native]
  exact he

/-! Phrases in print -/

open Token

/-- The phrases that bind at least as tightly as the level says, on the scale of
`Expr.precedence`. -/
def phraseAt (level : Nat) : List TokenKind → Expr → Prop :=
  if level ≤ 11 then Ladder (level - 6) else if level ≤ 12 then Sign else Primary

/-- The characters spell a phrase of the given level. -/
def Prints (level : Nat) (s : List Char) (e : Expr) : Prop :=
  ∃ ks, Spells s ks ∧ phraseAt level ks e

theorem sign_of_primary {ks : List TokenKind} {e : Expr} (h : Primary ks e) : Sign ks e :=
  .power (.plain (.primary h))

theorem phraseAt_sign {level : Nat} {ks : List TokenKind} {e : Expr} (h : phraseAt level ks e)
    (hlevel : 12 ≤ level) : Sign ks e := by
  unfold phraseAt at h
  split at h
  · omega
  split at h
  · exact h
  · exact sign_of_primary h

theorem phraseAt_ladder {level n : Nat} {ks : List TokenKind} {e : Expr} (h : phraseAt level ks e)
    (hn : n ≤ 6) (hlevel : n + 6 ≤ level) : Ladder n ks e := by
  by_cases hsign : 12 ≤ level
  · exact ladder_loosen hn (.sign (phraseAt_sign h hsign))
  · rw [phraseAt, if_pos (by omega)] at h
    exact ladder_loosen (by omega) h

theorem phraseAt_loosen {m n : Nat} {ks : List TokenKind} {e : Expr} (h : phraseAt m ks e)
    (hn : 6 ≤ n) (hmn : n ≤ m) : phraseAt n ks e := by
  unfold phraseAt
  split
  · exact phraseAt_ladder h (by omega) (by omega)
  split
  · exact phraseAt_sign h (by omega)
  · rwa [phraseAt, if_neg (by omega), if_neg (by omega)] at h

theorem expression_of_phraseAt {level : Nat} {ks : List TokenKind} {e : Expr}
    (h : phraseAt level ks e) (hlevel : 6 ≤ level) : Expression ks e :=
  .plain (.one (.one (.plain (.plain (phraseAt_ladder h (by omega) (by omega))))))

variable {s t : List Char} {l r e : Expr} {n : Nat}

theorem Prints.loosen {m : Nat} (h : Prints m s e) (hn : 6 ≤ n) (hmn : n ≤ m) : Prints n s e := by
  obtain ⟨ks, hs, hks⟩ := h
  exact ⟨ks, hs, phraseAt_loosen hks hn hmn⟩

theorem Prints.parse_eq {text : String} (h : Prints n text.toList e) (hn : 6 ≤ n) :
    parse text = .ok e := by
  obtain ⟨ks, hs, hks⟩ := h
  exact parse_spelled hs (expression_of_phraseAt hks hn)

theorem Prints.round (h : Prints n s e) (hn : 6 ≤ n) : Prints 14 ('(' :: (s ++ [')'])) e := by
  obtain ⟨ks, hs, hks⟩ := h
  exact ⟨_, hs.round, .group (.series (.last (expression_of_phraseAt hks hn)))⟩

theorem Prints.minus (h : Prints 12 s e) : Prints 12 ('-' :: s) (signed .neg e) := by
  obtain ⟨ks, hs, hks⟩ := h
  exact ⟨_, hs.behind (lexeme_solo rfl (by decide) rfl), sign_signed rfl hks⟩

def IsSymbol (c : Char) (op : BinOp) (n : Nat) : Prop :=
  ∃ k, (k, op) ∈ rung n ∧ single c = some k ∧ c ≠ '.'

theorem isSymbol_add : IsSymbol '+' .add 4 := ⟨.plus, by decide, rfl, by decide⟩

theorem isSymbol_sub : IsSymbol '-' .sub 4 := ⟨.minus, by decide, rfl, by decide⟩

theorem isSymbol_mul : IsSymbol '*' .mul 5 := ⟨.star, by decide, rfl, by decide⟩

theorem isSymbol_div : IsSymbol '/' .div 5 := ⟨.slash, by decide, rfl, by decide⟩

theorem isSymbol_mod : IsSymbol '%' .mod 5 := ⟨.percent, by decide, rfl, by decide⟩

/-- Operands of one rung and of the next, with a symbol between them. -/
theorem Prints.binary {c : Char} {op : BinOp} (hc : IsSymbol c op n) (hn : n ≤ 5)
    (hl : Prints (n + 6) s l) (hr : Prints (n + 7) t r) :
    Prints (n + 6) (s ++ ' ' :: c :: ' ' :: t) (.binary l op r) := by
  obtain ⟨k, hk, hsingle, hdot⟩ := hc
  obtain ⟨ks, hs, hks⟩ := hl
  obtain ⟨ls, ht, hls⟩ := hr
  have hladder := Ladder.binary (phraseAt_ladder hks (by omega) (by omega)) hk
    (phraseAt_ladder hls (by omega) (by omega))
  have hspells := hs.spaced ((word_operator hsingle hdot).spells.spaced ht)
  refine ⟨ks ++ k :: ls, by simpa using hspells, ?_⟩
  rwa [phraseAt, if_pos (by omega), Nat.add_sub_cancel]

theorem prints_natural {n : Int64} (h : 0 ≤ n.toInt) :
    Prints 14 (toString n.toInt).toList (.const (.int n)) :=
  ⟨_, (word_natural h).spells, .int n⟩

theorem prints_const {n : Int64} (h : -0x8000000000000000 < n.toInt) :
    Prints (precedence (.const (.int n))) (toString n.toInt).toList (.const (.int n)) := by
  by_cases hneg : n.toInt < 0
  · have hfits : Number.Fits (-n.toInt) := by
      have := n.le_toInt
      unfold Number.Fits
      omega
    obtain ⟨m, hm⟩ : ∃ m, Number.int64? (-n.toInt) = some m := ⟨_, if_pos hfits⟩
    have hm' := Number.toInt_of_int64? hm
    have hfold : signed .neg (.const (.int m)) = .const (.int n) := by
      simp [signed, hm']
    have hminus := ((prints_natural (n := m) (by omega)).loosen (by decide) (by decide)).minus
    rw [hfold, hm', ← toList_toString_neg hneg] at hminus
    simpa only [precedence, hneg, ↓reduceIte] using hminus
  · simpa only [precedence, hneg, ↓reduceIte] using prints_natural (by omega)

end Expr

end Comprehend
