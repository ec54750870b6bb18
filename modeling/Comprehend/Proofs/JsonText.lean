import Comprehend.Json.Reader
import Comprehend.Proofs.Spelling

/-! JSON texts read back. A value whose numbers are 64-bit integers is read from its text again,
whatever strings it holds, and so its text determines it. -/
namespace Comprehend

/-! Finite numbers -/

namespace Number

theorem roundHalfEven_le {a b m : Nat} (hb : 0 < b) (h : a < m * b) : roundHalfEven a b ≤ m := by
  have hquotient : a / b < m := (Nat.div_lt_iff_lt_mul hb).mpr h
  have hparity : a / b % 2 ≤ 1 := by omega
  simp only [roundHalfEven]
  split
  · omega
  · split <;> omega

namespace Binary64

/-- The fields of a whole number of 64 bits lie far below those of infinity. -/
theorem exists_ofFraction_eq {n : Nat} (hn : n ≠ 0) (h : n < 0x10000000000000000) :
    ∃ field, field ≤ 1087 * hiddenBit ∧
      ofFraction n 1 = ⟨UInt64.ofNat (min field 0x7ff0000000000000)⟩ := by
  have hlow : 2 ^ n.log2 ≤ n := Nat.log2_self_le hn
  have hhigh : n < 2 ^ (n.log2 + 1) := Nat.lt_log2_self
  have hlog : n.log2 < 64 := (Nat.log2_lt hn).mpr h
  have hone : Nat.log2 1 = 0 := by decide
  have hscale : max (-1074) ((n.log2 : Int) - 52) = n.log2 - 52 := by omega
  refine ⟨_, ?_, rfl⟩
  simp only [hone, Int.natCast_zero, Int.sub_zero, Int.natCast_nonneg, ↓reduceIte,
    Int.toNat_natCast, Nat.one_mul, Nat.pow_eq, Nat.not_lt.mpr hlow, hscale]
  have hexponent : ((n.log2 : Int) - 52 + 1074).toNat ≤ 1085 := by omega
  have hbit : hiddenBit = 2 ^ 52 := rfl
  -- the significand is scaled up or down to lie between two powers of two
  split
  next hlarge =>
    have hround : roundHalfEven n (2 ^ ((n.log2 : Int) - 52).toNat) ≤ 2 ^ 53 := by
      refine roundHalfEven_le (Nat.two_pow_pos _) ?_
      rwa [← Nat.pow_add, show 53 + ((n.log2 : Int) - 52).toNat = n.log2 + 1 by omega]
    simp only [hbit]
    omega
  next hsmall =>
    have hround : roundHalfEven (n * 2 ^ (-((n.log2 : Int) - 52)).toNat) 1 ≤ 2 ^ 53 := by
      refine roundHalfEven_le Nat.one_pos ?_
      rw [show 53 = n.log2 + 1 + (-((n.log2 : Int) - 52)).toNat by omega, Nat.pow_add, Nat.mul_one]
      exact Nat.mul_lt_mul_of_pos_right hhigh (Nat.two_pow_pos _)
    simp only [hbit]
    omega

theorem ofDecimal_ne_infinity {n : Nat} (h : n < 0x10000000000000000) :
    ofDecimal ⟨n, 0⟩ ≠ infinity := by
  have hlength : (Decimal.text ⟨n, 0⟩).length ≤ 20 := by
    rw [Decimal.text, Nat.repr_eq_ofList_toDigits, String.toList_ofList,
      Nat.length_toDigits_le_iff (by decide) (by decide)]
    exact Nat.lt_trans h (by decide)
  unfold ofDecimal
  split
  · decide
  next hn =>
    have hpoint : Decimal.pointAt ⟨n, 0⟩ = (Decimal.text ⟨n, 0⟩).length := Int.add_zero _
    rw [if_neg (by omega), if_neg (by omega)]
    obtain ⟨field, hfield, hbits⟩ := exists_ofFraction_eq hn h
    have hnumber : ofFraction (n * (Decimal.power 0).1) (Decimal.power 0).2 = ofFraction n 1 := by
      rw [show (Decimal.power 0).1 = 1 from rfl, Nat.mul_one]
      rfl
    rw [hnumber, hbits]
    intro hinf
    have hfields : min field 0x7ff0000000000000 = 0x7ff0000000000000 := by
      have hnat := congrArg (fun x : Binary64 => x.bits.toNat) hinf
      simp only [infinity, UInt64.toNat_ofNat'] at hnat
      rw [Nat.mod_eq_of_lt (by omega)] at hnat
      exact hnat
    simp only [hiddenBit] at hfield
    omega

end Binary64

end Number

namespace Json

/-! Strings -/

/-- A number that is no surrogate stands for its character, whatever follows it. -/
theorem characters_number {n : Nat} (h : n < 0xd800) (us : List (Char ⊕ Nat)) :
    characters (.inr n :: us) = (characters us).map (Char.ofNat n :: ·) := by
  have hhigh : isHighSurrogate n = false := by simp [isHighSurrogate]; omega
  have hlow : isLowSurrogate n = false := by simp [isLowSurrogate]; omega
  cases us with
  | nil => simp [characters, hhigh, hlow]
  | cons u us => cases u <;> simp [characters, hhigh, hlow]

theorem hexNumber?_control {n : Nat} (h : n < 0x20) :
    Text.hexNumber? ['0', '0', hexDigit (n / 16), hexDigit (n % 16)] = some n := by
  revert n
  decide

/-- A character is written behind a backslash, by its number, or as it is. -/
theorem escape_cases (c : Char) :
    (∃ e, escape c = ['\\', e] ∧ simpleEscape e = some c) ∨
    (c.toNat < 0x20 ∧
      escape c = ['\\', 'u', '0', '0', hexDigit (c.toNat / 16), hexDigit (c.toNat % 16)]) ∨
    (escape c = [c] ∧ 0x20 ≤ c.toNat ∧ c ≠ '"' ∧ c ≠ '\\') := by
  unfold escape
  split
  next hc => exact .inl ⟨'"', rfl, by rw [hc]; rfl⟩
  next hquote =>
    split
    next hc => exact .inl ⟨'\\', rfl, by rw [hc]; rfl⟩
    next hslash =>
      split
      next hc => exact .inl ⟨'b', rfl, by rw [hc]; rfl⟩
      split
      next hc => exact .inl ⟨'f', rfl, by rw [hc]; rfl⟩
      split
      next hc => exact .inl ⟨'n', rfl, by rw [hc]; rfl⟩
      split
      next hc => exact .inl ⟨'r', rfl, by rw [hc]; rfl⟩
      split
      next hc => exact .inl ⟨'t', rfl, by rw [hc]; rfl⟩
      split
      next hc => exact .inr (.inl ⟨hc, rfl⟩)
      next hc => exact .inr (.inr ⟨rfl, Nat.le_of_not_lt hc, hquote, hslash⟩)

/-- A character as it is written in a string is read as a unit that stands for it. -/
theorem units_escape (c : Char) :
    ∃ u, (∀ us, characters (u :: us) = (characters us).map (c :: ·)) ∧
      ∀ cs, units (escape c ++ cs) = (units cs).bind fun r => some (u :: r.1, r.2) := by
  rcases escape_cases c with ⟨e, he, hc⟩ | ⟨hc, he⟩ | ⟨he, hplain, hquote, hslash⟩
  · refine ⟨.inl c, fun us => rfl, fun cs => ?_⟩
    have hu : e ≠ 'u' := by
      rintro rfl
      simp [simpleEscape] at hc
    rw [he]
    simp [units, hc, hu]
  · refine ⟨.inr c.toNat, fun us => ?_, fun cs => ?_⟩
    · rw [characters_number (by omega), Char.ofNat_toNat]
    · rw [he]
      simp [units, hexNumber?_control hc]
  · refine ⟨.inl c, fun us => rfl, fun cs => ?_⟩
    rw [he]
    have hnot : (c.toNat < 0x20 || c == '\\') = false := by simp [hslash]; omega
    simp [units, hslash, hnot]

/-- The contents of a string are read from between its quotes. -/
theorem stringBody_quote (s : String) (rest : List Char) :
    stringBody (s.toList.flatMap escape ++ '"' :: rest) = some (some s, rest) := by
  have hunits (cs : List Char) : ∃ us, characters us = some cs ∧
      units (cs.flatMap escape ++ '"' :: rest) = some (us, rest) := by
    induction cs with
    | nil => exact ⟨[], rfl, rfl⟩
    | cons c cs ih =>
      obtain ⟨us, hus, hread⟩ := ih
      obtain ⟨u, hu, hescape⟩ := units_escape c
      refine ⟨u :: us, by rw [hu, hus]; rfl, ?_⟩
      rw [List.flatMap_cons, List.append_assoc, hescape, hread]
      rfl
  obtain ⟨us, hus, hread⟩ := hunits s.toList
  simp [stringBody, hread, hus]

/-! Numbers -/

theorem digitsValue_toDigits (n : Nat) : digitsValue (Nat.toDigits 10 n) = n := by
  have hvalue : digitsValue (Nat.toDigits 10 n) = Nat.ofDigitChars 10 (Nat.toDigits 10 n) 0 := by
    simp only [digitsValue, Nat.ofDigitChars, Nat.mul_comm]
  rw [hvalue, Nat.ofDigitChars_toDigits (by decide) (by decide)]

theorem toDigits_starts (n : Nat) : ∃ c cs, Nat.toDigits 10 n = c :: cs ∧ c.isDigit = true := by
  obtain ⟨c, cs, hcs⟩ := List.exists_cons_of_ne_nil (Nat.toDigits_ne_nil (n := n) (b := 10))
  have hmem : c ∈ Nat.toDigits 10 n := by simp [hcs]
  exact ⟨c, cs, hcs, Nat.isDigit_of_mem_toDigits (by decide) (by decide) hmem⟩

/-- The digits of a number start with a zero only if that is all of them. -/
theorem toDigits_zero_cons {n : Nat} {ds : List Char} (h : Nat.toDigits 10 n = '0' :: ds) :
    ds = [] := by
  induction n using Nat.strongRecOn generalizing ds with
  | ind n ih =>
    by_cases hn : n < 10
    · rw [Nat.toDigits_of_lt_base hn] at h
      exact (List.cons.inj h).2.symm
    · rw [Nat.toDigits_of_base_le (by decide) (by omega)] at h
      obtain ⟨c, cs, hcs, -⟩ := toDigits_starts (n / 10)
      rw [hcs, List.cons_append] at h
      obtain ⟨rfl, rfl⟩ := List.cons.inj h
      obtain rfl := ih (n / 10) (by omega) hcs
      have hzero : n / 10 = 0 := by
        rw [← digitsValue_toDigits (n / 10), hcs]
        rfl
      omega

def EndsNumber (rest : List Char) : Prop :=
  rest.head?.all (fun c => !c.isDigit && c != '.' && !isExponentMark c) = true

theorem endsNumber_cons {c : Char} {cs : List Char} :
    EndsNumber (c :: cs) ↔ c.isDigit = false ∧ c ≠ '.' ∧ isExponentMark c = false := by
  simp [EndsNumber, and_assoc]

theorem takeWhile_digits {ds rest : List Char} (h : ∀ d ∈ ds, d.isDigit = true)
    (hrest : EndsNumber rest) : (ds ++ rest).takeWhile Char.isDigit = ds := by
  rw [List.takeWhile_append_of_pos h]
  cases rest with
  | nil => simp
  | cons c rest => simp [(endsNumber_cons.mp hrest).1]

theorem wholePart_toDigits (n : Nat) {rest : List Char} (hrest : EndsNumber rest) :
    wholePart (Nat.toDigits 10 n ++ rest) = some (Nat.toDigits 10 n, rest) := by
  unfold wholePart
  rw [takeWhile_digits (fun d hd => Nat.isDigit_of_mem_toDigits (by decide) (by decide) hd) hrest]
  split
  next h => exact absurd h Nat.toDigits_ne_nil
  next ds h =>
    obtain rfl := toDigits_zero_cons h
    rw [h]
    rfl
  next => simp

theorem fractionPart_of_ends {rest : List Char} (hrest : EndsNumber rest) :
    fractionPart rest = some ([], rest) := by
  unfold fractionPart
  split
  next => exact absurd rfl (endsNumber_cons.mp hrest).2.1
  next => rfl

theorem exponentPart_of_ends {rest : List Char} (hrest : EndsNumber rest) :
    exponentPart rest = some (none, rest) := by
  cases rest with
  | nil => rfl
  | cons c rest => simp [exponentPart, (endsNumber_cons.mp hrest).2.2]

theorem unsignedNumber_toDigits {negative : Bool} {n : Nat} (hn : n < 0x10000000000000000)
    (hzero : negative = true → n ≠ 0) {rest : List Char} (hrest : EndsNumber rest) :
    unsignedNumber negative (Nat.toDigits 10 n ++ rest) =
      some (.int (if negative then -n else n), rest) := by
  simpa [unsignedNumber, wholePart_toDigits n hrest, fractionPart_of_ends hrest,
    exponentPart_of_ends hrest, digitsValue_toDigits, Number.Binary64.ofDecimal_ne_infinity hn]
    using hzero

/-- An integer is written as digits, perhaps with a sign before them. -/
theorem toString_starts (n : Int) :
    ∃ c cs, (toString n).toList = c :: cs ∧ (c = '-' ∨ c.isDigit = true) := by
  by_cases hn : n < 0
  · exact ⟨'-', _, Token.toList_toString_neg hn, .inl rfl⟩
  · obtain ⟨m, rfl⟩ := Int.eq_ofNat_of_zero_le (Int.not_lt.mp hn)
    obtain ⟨c, cs, hcs, hc⟩ := toDigits_starts m
    exact ⟨c, cs, (Token.toList_toString_natCast m).trans hcs, .inr hc⟩

theorem number_of_digit {c : Char} (hc : c.isDigit = true) (cs : List Char) :
    number (c :: cs) = unsignedNumber false (c :: cs) := by
  unfold number
  split
  next h =>
    obtain ⟨rfl, -⟩ := List.cons.inj h
    simp [Char.isDigit] at hc
  next => rfl

theorem number_toString {n : Int} (hn : Number.Fits n) {rest : List Char}
    (hrest : EndsNumber rest) : number ((toString n).toList ++ rest) = some (.int n, rest) := by
  obtain ⟨hlow, hhigh⟩ := hn
  by_cases hneg : n < 0
  · obtain ⟨m, hm⟩ := Int.eq_ofNat_of_zero_le (a := -n) (by omega)
    rw [Token.toList_toString_neg hneg, hm, Token.toList_toString_natCast, List.cons_append, number,
      unsignedNumber_toDigits (by omega) (by omega) hrest, if_pos rfl, ← hm, Int.neg_neg]
  · obtain ⟨m, rfl⟩ := Int.eq_ofNat_of_zero_le (Int.not_lt.mp hneg)
    obtain ⟨c, cs, hcs, hc⟩ := toDigits_starts m
    have hnumber : number (Nat.toDigits 10 m ++ rest) =
        unsignedNumber false (Nat.toDigits 10 m ++ rest) := by
      rw [hcs, List.cons_append, number_of_digit hc]
    rw [Token.toList_toString_natCast, hnumber, unsignedNumber_toDigits (by omega) (by simp) hrest]
    rfl

/-! Spaces -/

theorem skipSpace_of_not {c : Char} (hc : isSpace c = false) (cs : List Char) :
    skipSpace (c :: cs) = c :: cs := by
  simp [skipSpace, hc]

theorem skipSpace_breakTo (depth : Nat) (cs : List Char) :
    skipSpace (breakTo depth ++ cs) = skipSpace cs := by
  refine List.dropWhile_append_of_pos fun c hc => ?_
  simp only [breakTo, List.mem_cons, List.mem_replicate] at hc
  rcases hc with rfl | ⟨-, rfl⟩ <;> rfl

/-- The text of a value starts with neither a space nor a closing bracket. -/
theorem pretty_starts (depth : Nat) (v : Json) :
    ∃ c cs, pretty depth v = c :: cs ∧ isSpace c = false ∧ c ≠ ']' := by
  cases v with
  | int n =>
    obtain ⟨c, cs, hcs, hc⟩ := toString_starts n
    refine ⟨c, cs, by rw [pretty, hcs], ?_, ?_⟩
    · refine Bool.eq_false_iff.mpr fun hspace => ?_
      simp only [isSpace, Bool.or_eq_true, beq_iff_eq] at hspace
      rcases hspace with ((rfl | rfl) | rfl) | rfl <;> simp [Char.isDigit] at hc
    · rintro rfl
      simp [Char.isDigit] at hc
  | bool b => cases b <;> exact ⟨_, _, rfl, by decide⟩
  | arr vs => cases vs <;> exact ⟨_, _, rfl, by decide⟩
  | obj ms => cases ms <;> exact ⟨_, _, rfl, by decide⟩
  | null | real | str | hollow => exact ⟨_, _, rfl, by decide⟩

theorem skipSpace_pretty (depth : Nat) (v : Json) (cs : List Char) :
    skipSpace (pretty depth v ++ cs) = pretty depth v ++ cs := by
  obtain ⟨c, ds, hpretty, hc, -⟩ := pretty_starts depth v
  rw [hpretty, List.cons_append, skipSpace_of_not hc]

/-! Values -/

/-- A value is read from its text at any depth, behind any space and before whatever ends it. -/
def ReadsBack (v : Json) : Prop :=
  ∀ ⦃depth fuel : Nat⦄ ⦃cs rest : List Char⦄, (pretty depth v).length ≤ fuel → EndsNumber rest →
    skipSpace cs = pretty depth v ++ rest → value fuel cs = some (v, rest)

/-- The values that are read back from their texts: all numbers in them are 64-bit integers. -/
inductive Faithful : Json → Prop
  | null : Faithful .null
  | bool (b : Bool) : Faithful (.bool b)
  | int {n : Int} (h : Number.Fits n) : Faithful (.int n)
  | str (s : String) : Faithful (.str s)
  | arr {vs : List Json} (h : ∀ v ∈ vs, Faithful v) : Faithful (.arr vs)
  | obj {ms : List (String × Json)} (h : ∀ m ∈ ms, Faithful m.2) : Faithful (.obj ms)

theorem endsNumber_comma (cs : List Char) : EndsNumber (',' :: cs) := rfl

theorem endsNumber_breakTo (depth : Nat) (cs : List Char) : EndsNumber (breakTo depth ++ cs) := rfl

section

variable {depth outer fuel : Nat} {cs rest : List Char} {v : Json} {k : String}

/-- One item is read, and what stands behind it decides how the array goes on. -/
theorem items_step (hv : ReadsBack v) (hfuel : (pretty depth v).length ≤ fuel)
    (hrest : EndsNumber rest) (hcs : skipSpace cs = pretty depth v ++ rest) :
    items (fuel + 1) cs =
      match skipSpace rest with
      | ',' :: cs => (items fuel cs).bind fun r => some (v :: r.1, r.2)
      | ']' :: cs => some ([v], cs)
      | _ => none := by
  rw [items, hv hfuel hrest hcs]
  rfl

theorem membersOf_step (hv : ReadsBack v) (hfuel : (pretty depth v).length ≤ fuel)
    (hrest : EndsNumber rest)
    (hcs : skipSpace cs = quote k ++ (':' :: ' ' :: (pretty depth v ++ rest))) :
    membersOf (fuel + 1) cs =
      match skipSpace rest with
      | ',' :: cs => (membersOf fuel cs).bind fun r => some ((some k, v) :: r.1, r.2)
      | '\x7d' :: cs => some ([(some k, v)], cs)
      | _ => none := by
  have hspace : skipSpace (' ' :: (pretty depth v ++ rest)) = pretty depth v ++ rest :=
    skipSpace_pretty depth v rest
  simp only [quote, List.cons_append, List.append_assoc, List.nil_append] at hcs
  rw [membersOf, hcs]
  simp only [stringBody_quote, Option.bind_eq_bind, Option.bind_some]
  rw [skipSpace_of_not (by decide)]
  simp only [hv hfuel hrest hspace, Option.bind_some]
  rfl

/-- The items of an array from one item on are read up to the closing bracket. -/
theorem items_pretty {vs : List Json} (hv : ReadsBack v) (hvs : ∀ w ∈ vs, ReadsBack w)
    (hfuel : (pretty depth v).length + (prettyItems depth vs).length ≤ fuel)
    (hcs : skipSpace cs =
      pretty depth v ++ (prettyItems depth vs ++ (breakTo outer ++ ']' :: rest))) :
    items (fuel + 1) cs = some (v :: vs, rest) := by
  induction vs generalizing v fuel cs with
  | nil =>
    rw [prettyItems, List.nil_append] at hcs
    rw [items_step hv (by omega) (endsNumber_breakTo outer _) hcs, skipSpace_breakTo,
      skipSpace_of_not (by decide)]
    rfl
  | cons w vs ih =>
    simp only [prettyItems, List.cons_append, List.length_cons, List.length_append,
      List.append_assoc] at hfuel hcs
    rw [items_step hv (by omega) (endsNumber_comma _) hcs, skipSpace_of_not (by decide)]
    simp only
    obtain ⟨fuel, rfl⟩ : ∃ m, fuel = m + 1 := ⟨fuel - 1, by omega⟩
    rw [ih (hvs w (by simp)) (fun u hu => hvs u (by simp [hu])) (by omega)
      (by rw [skipSpace_breakTo, skipSpace_pretty])]
    rfl

/-- The members of an object from one member on are read up to the closing brace. -/
theorem membersOf_pretty {ms : List (String × Json)} (hv : ReadsBack v)
    (hms : ∀ m ∈ ms, ReadsBack m.2)
    (hfuel : (pretty depth v).length + (prettyMembers depth ms).length ≤ fuel)
    (hcs : skipSpace cs = quote k ++ (':' :: ' ' :: (pretty depth v ++
      (prettyMembers depth ms ++ (breakTo outer ++ '\x7d' :: rest))))) :
    membersOf (fuel + 1) cs = some (((k, v) :: ms).map fun m => (some m.1, m.2), rest) := by
  induction ms generalizing k v fuel cs with
  | nil =>
    rw [prettyMembers, List.nil_append] at hcs
    rw [membersOf_step hv (by omega) (endsNumber_breakTo outer _) hcs, skipSpace_breakTo,
      skipSpace_of_not (by decide)]
    rfl
  | cons m ms ih =>
    obtain ⟨l, w⟩ := m
    simp only [prettyMembers, List.cons_append, List.length_cons, List.length_append,
      List.append_assoc, List.nil_append] at hfuel hcs
    rw [membersOf_step hv (by omega) (endsNumber_comma _) hcs, skipSpace_of_not (by decide)]
    simp only
    obtain ⟨fuel, rfl⟩ : ∃ m, fuel = m + 1 := ⟨fuel - 1, by omega⟩
    have hw : ReadsBack w := hms (l, w) (by simp)
    rw [ih hw (fun u hu => hms u (by simp [hu])) (by omega)
      (by rw [skipSpace_breakTo]; exact skipSpace_of_not rfl _)]
    rfl

theorem mapM_map_eq_some {α β : Type} {write : α → β} {read : β → Option α}
    (h : ∀ a, read (write a) = some a) (as : List α) : (as.map write).mapM read = some as := by
  induction as with
  | nil => rfl
  | cons a as ih => simp [h, ih]

theorem ofMembers_some (ms : List (String × Json)) :
    ofMembers (ms.map fun m => (some m.1, m.2)) = .obj ms := by
  have hkeys : (ms.map fun m => (some m.1, m.2)).mapM
      (fun m : Option String × Json => m.1.map (·, m.2)) = some ms := by
    refine mapM_map_eq_some (fun m => ?_) ms
    rfl
  rw [ofMembers, hkeys]

end

/-- A text is never empty, so that there is fuel for its first step. -/
theorem readsBack_of_succ {v : Json} (h : ∀ ⦃depth fuel : Nat⦄ ⦃cs rest : List Char⦄,
    (pretty depth v).length ≤ fuel + 1 → EndsNumber rest → skipSpace cs = pretty depth v ++ rest →
      value (fuel + 1) cs = some (v, rest)) : ReadsBack v := by
  intro depth fuel cs rest hfuel hrest hcs
  obtain ⟨c, ds, hpretty, -⟩ := pretty_starts depth v
  obtain ⟨fuel, rfl⟩ : ∃ m, fuel = m + 1 :=
    Nat.exists_eq_succ_of_ne_zero (by rintro rfl; simp [hpretty] at hfuel)
  exact h hfuel hrest hcs

/-- A digit or a sign is the start of a number. -/
theorem value_number {fuel : Nat} {cs ds : List Char} {c : Char} (hcs : skipSpace cs = c :: ds)
    (hc : c = '-' ∨ c.isDigit = true) : value (fuel + 1) cs = number (c :: ds) := by
  have hother {d : Char} (hminus : d ≠ '-') (hdigit : d.isDigit = false) : c ≠ d := by
    rintro rfl
    simp [hminus, hdigit] at hc
  rw [value, hcs]
  -- the other values start with characters of their own
  split <;> try exact absurd (List.cons.inj ‹_›).1 (hother (by decide) (by decide))
  rfl

theorem readsBack_int {n : Int} (hn : Number.Fits n) : ReadsBack (.int n) := by
  refine readsBack_of_succ fun depth fuel cs rest _ hrest hcs => ?_
  obtain ⟨c, ds, hds, hc⟩ := toString_starts n
  have hnumber := number_toString hn hrest
  rw [pretty, hds, List.cons_append] at hcs
  rw [hds, List.cons_append] at hnumber
  rw [value_number hcs hc, hnumber]

theorem readsBack_str (s : String) : ReadsBack (.str s) := by
  refine readsBack_of_succ fun depth fuel cs rest _ _ hcs => ?_
  simp only [pretty, quote, List.cons_append, List.append_assoc, List.nil_append] at hcs
  rw [value, hcs]
  simp [stringBody_quote]

theorem readsBack_arr {vs : List Json} (h : ∀ v ∈ vs, ReadsBack v) : ReadsBack (.arr vs) := by
  refine readsBack_of_succ fun depth fuel cs rest hfuel _ hcs => ?_
  cases vs with
  | nil =>
    rw [value, hcs]
    rfl
  | cons v vs =>
    simp only [pretty, List.cons_append, List.append_assoc, List.nil_append, List.length_cons,
      List.length_append, List.length_nil] at hfuel hcs
    obtain ⟨fuel, rfl⟩ : ∃ m, fuel = m + 1 := ⟨fuel - 1, by omega⟩
    have hitems : items (fuel + 1) (pretty (depth + 1) v ++ (prettyItems (depth + 1) vs ++
        (breakTo depth ++ ']' :: rest))) = some (v :: vs, rest) :=
      items_pretty (h v (by simp)) (fun w hw => h w (by simp [hw])) (by omega)
        (skipSpace_pretty (depth + 1) v _)
    obtain ⟨c, ds, hpretty, -, hclose⟩ := pretty_starts (depth + 1) v
    rw [value, hcs]
    simp only [skipSpace_breakTo, skipSpace_pretty]
    split
    next hcons =>
      rw [hpretty, List.cons_append] at hcons
      exact absurd (List.cons.inj hcons).1 hclose
    next => rw [hitems, Option.map_some]

theorem readsBack_obj {ms : List (String × Json)} (h : ∀ m ∈ ms, ReadsBack m.2) :
    ReadsBack (.obj ms) := by
  refine readsBack_of_succ fun depth fuel cs rest hfuel _ hcs => ?_
  cases ms with
  | nil =>
    rw [value, hcs]
    rfl
  | cons m ms =>
    obtain ⟨k, v⟩ := m
    simp only [pretty, List.cons_append, List.append_assoc, List.nil_append, List.length_cons,
      List.length_append, List.length_nil] at hfuel hcs
    obtain ⟨fuel, rfl⟩ : ∃ m, fuel = m + 1 := ⟨fuel - 1, by omega⟩
    have hv : ReadsBack v := h (k, v) (by simp)
    have hquote (us : List Char) : skipSpace (quote k ++ us) = quote k ++ us :=
      skipSpace_of_not rfl _
    have hmembers : membersOf (fuel + 1) (quote k ++ (':' :: ' ' :: (pretty (depth + 1) v ++
        (prettyMembers (depth + 1) ms ++ (breakTo depth ++ '\x7d' :: rest))))) =
          some (((k, v) :: ms).map fun m => (some m.1, m.2), rest) :=
      membersOf_pretty hv (fun w hw => h w (by simp [hw])) (by omega) (hquote _)
    rw [value, hcs]
    simp only [skipSpace_breakTo, hquote]
    split
    next hcons =>
      simp [quote] at hcons
    next => rw [hmembers, Option.map_some, ofMembers_some]

/-- A value with no numbers but 64-bit integers is read back from its text. -/
theorem Faithful.readsBack {v : Json} (h : Faithful v) : ReadsBack v := by
  induction h with
  | null =>
    refine readsBack_of_succ fun depth fuel cs rest _ _ hcs => ?_
    rw [value, hcs]
    rfl
  | bool b =>
    refine readsBack_of_succ fun depth fuel cs rest _ _ hcs => ?_
    rw [value, hcs]
    cases b <;> rfl
  | int h => exact readsBack_int h
  | str s => exact readsBack_str s
  | arr _ ih => exact readsBack_arr ih
  | obj _ ih => exact readsBack_obj ih

theorem ofText?_text {v : Json} (h : Faithful v) : ofText? v.text = some v := by
  have hread : value ((pretty 0 v).length + 1) (pretty 0 v) = some (v, []) := by
    refine h.readsBack (Nat.le_succ _) rfl ?_
    simpa using skipSpace_pretty 0 v []
  rw [ofText?, text, String.toList_ofList]
  simp [hread, skipSpace]

end Json

end Comprehend
