import Comprehend.Proofs.Characters
import Comprehend.Proofs.Conditions
import Comprehend.Proofs.Names

/-! Expressions in the texts of SQL. The text of an expression is read on its own, whatever stands
around it, and a connective that it shows outside of brackets binds at least as tightly as the
expression does. -/
namespace Comprehend.Target.Sql

open Sign

/-! Texts one after the other -/

/-- No sign goes on in this text. -/
def startsParted (cs : List Char) : Bool :=
  cs.head?.all (!continues [] ·)

def endsParted (cs : List Char) : Bool :=
  cs.getLast?.any (!continues [] ·)

theorem continues_of_parted {c : Char} (h : continues [] c = false) (seen : List Char) :
    continues seen c = false := by
  cases seen with
  | nil => exact h
  | cons b seen =>
    simp only [continues, Bool.or_eq_false_iff] at h ⊢
    rw [h.1, h.2, Bool.and_false, Bool.and_false]
    exact ⟨rfl, rfl⟩

theorem continues_of_isIdentRest {seen : List Char} {c : Char}
    (hseen : ∀ b ∈ seen, Text.isIdentRest b = true) (hc : Text.isIdentRest c = true) :
    continues seen c = true := by
  cases seen with
  | nil => rw [continues, hc, Bool.true_or]
  | cons b seen => rw [continues, hseen b List.mem_cons_self, hc, Bool.and_self, Bool.true_or]

theorem scan_parted {c : Char} (hc : continues [] c = false) (hquote : c ≠ '\'')
    (seen cs : List Char) :
    scan false seen (c :: cs) = ofRun seen ++ ofChar c ++ scan false [] cs := by
  rw [scan, continues_of_parted hc seen, hc, if_neg Bool.false_ne_true, if_neg Bool.false_ne_true,
    if_neg hquote]

theorem startsParted_append {cs rest : List Char} (hcs : startsParted cs = true)
    (h : cs = [] → startsParted rest = true) : startsParted (cs ++ rest) = true := by
  cases cs with
  | nil => exact h rfl
  | cons c cs => exact hcs

theorem scan_append {cs rest : List Char} (seen : List Char) (hcs : '\'' ∉ cs)
    (hrest : startsParted rest = true) :
    scan false seen (cs ++ rest) = scan false seen cs ++ scan false [] rest := by
  induction cs generalizing seen with
  | nil =>
    cases rest with
    | nil => simp [scan, ofRun]
    | cons c rest =>
      have hc : continues [] c = false := by simpa [startsParted] using hrest
      simp only [List.nil_append, scan, continues_of_parted hc seen, hc, Bool.false_eq_true,
        if_false]
      split <;> simp [ofRun]
  | cons c cs ih =>
    have hquote : ¬ c = '\'' := fun h => hcs (h ▸ List.mem_cons_self)
    have hcs : '\'' ∉ cs := fun h => hcs (List.mem_cons_of_mem c h)
    by_cases hc : continues seen c = true
    · simp only [List.cons_append, scan, hc, if_true]
      exact ih _ hcs
    · by_cases hfirst : continues [] c = true
      · simp only [List.cons_append, scan, hc, hfirst, if_false, if_true, List.append_assoc,
          Bool.false_eq_true]
        rw [ih _ hcs]
      · simp only [List.cons_append, scan, hc, hfirst, hquote, if_false, List.append_assoc,
          Bool.false_eq_true]
        rw [ih _ hcs]

theorem scan_append_of_ends {cs : List Char} (seen : List Char) (hcs : '\'' ∉ cs)
    (hends : endsParted cs = true) (rest : List Char) :
    scan false seen (cs ++ rest) = scan false seen cs ++ scan false [] rest := by
  obtain rfl | ⟨ds, c, rfl⟩ := List.eq_nil_or_concat cs
  · cases hends
  · rw [List.concat_eq_append] at hcs hends ⊢
    have hc : continues [] c = false := by simpa [endsParted] using hends
    have hds : '\'' ∉ ds := fun h => hcs (List.mem_append_left _ h)
    have hquote : ¬ c = '\'' := fun h => hcs (h ▸ List.mem_append_right _ List.mem_cons_self)
    have hlast : scan false [] (c :: rest) = scan false [] [c] ++ scan false [] rest := by
      rw [scan_parted hc hquote, scan_parted hc hquote]
      simp [scan, ofRun]
    rw [List.append_assoc, scan_append seen hds (by simpa [startsParted] using hc),
      scan_append seen hds (by simpa [startsParted] using hc), List.append_assoc]
    exact congrArg _ hlast

/-- The text holds something, and it is read on its own before anything that continues no sign. With
`j` brackets left open, it shows no connective that binds less than `n`. -/
structure Stands (n j : Nat) (s : String) : Prop where
  full : signs s ≠ []
  reads (rest : List Char) (h : startsParted rest = true) :
    scan false [] (s.toList ++ rest) = signs s ++ scan false [] rest
  depth_eq : depth 0 (signs s) = j
  hides (ρ : Role) (h : ρ.rank < n) : cut ρ 0 (signs s) = none

/-- The text holds something, and it is read on its own before anything. -/
structure Leads (n j : Nat) (s : String) : Prop where
  full : signs s ≠ []
  reads (rest : List Char) : scan false [] (s.toList ++ rest) = signs s ++ scan false [] rest
  depth_eq : depth 0 (signs s) = j
  hides (ρ : Role) (h : ρ.rank < n) : cut ρ 0 (signs s) = none

/-- What may stand between brackets; it may be empty. -/
structure Inner (s : String) : Prop where
  reads (rest : List Char) (h : startsParted rest = true) :
    scan false [] (s.toList ++ rest) = signs s ++ scan false [] rest
  binds : Binds 1 (signs s)

/-- The text has no quotes; behind it `k` brackets are open if there were `j` before it, and it
shows no connective that binds less than `n`. -/
def isBare (n j k : Nat) (s : String) : Bool :=
  s.toList.all (· ≠ '\'') && depth j (signs s) = k &&
    [Role.plain, .disjunction, .conjunction, .negation, .relation, .opening, .closing].all fun ρ =>
      n ≤ ρ.rank || (cut ρ j (signs s)).isNone

def isWhole (n k : Nat) (s : String) : Bool :=
  isBare n 0 k s && !(signs s).isEmpty

def isHead (n k : Nat) (s : String) : Bool :=
  isWhole n k s && endsParted s.toList

def isTail (n j k : Nat) (s : String) : Bool :=
  isBare n j k s && startsParted s.toList

def isLink (n j k : Nat) (s : String) : Bool :=
  isTail n j k s && endsParted s.toList

section Bare

variable {n j k : Nat} {s : String}

theorem quote_not_mem_of_isBare (h : isBare n j k s = true) : '\'' ∉ s.toList := by
  intro hmem
  simp only [isBare, Bool.and_eq_true, List.all_eq_true] at h
  simpa using h.1.1 _ hmem

theorem depth_of_isBare (h : isBare n j k s = true) : depth j (signs s) = k := by
  simp only [isBare, Bool.and_eq_true, decide_eq_true_eq] at h
  exact h.1.2

theorem cut_of_isBare (h : isBare n j k s = true) {ρ : Role} (hρ : ρ.rank < n) :
    cut ρ j (signs s) = none := by
  simp only [isBare, Bool.and_eq_true, List.all_eq_true] at h
  have hcut := h.2 ρ (by cases ρ <;> simp)
  simp only [Bool.or_eq_true, decide_eq_true_eq, Option.isNone_iff_eq_none] at hcut
  exact hcut.resolve_left (by omega)

theorem stands_bare (h : isWhole n k s = true) : Stands n k s := by
  obtain ⟨hbare, hfull⟩ := Bool.and_eq_true_iff.mp h
  exact ⟨by simpa using hfull, fun _ => scan_append [] (quote_not_mem_of_isBare hbare),
    depth_of_isBare hbare, fun _ => cut_of_isBare hbare⟩

theorem leads_bare (h : isHead n k s = true) : Leads n k s := by
  obtain ⟨hwhole, hends⟩ := Bool.and_eq_true_iff.mp h
  obtain ⟨hbare, -⟩ := Bool.and_eq_true_iff.mp hwhole
  have hstands := stands_bare hwhole
  exact ⟨hstands.full, scan_append_of_ends [] (quote_not_mem_of_isBare hbare) hends,
    hstands.depth_eq, hstands.hides⟩

end Bare

namespace Stands

variable {m n j k : Nat} {s t : String}

theorem binds (h : Stands n 0 s) : Binds n (signs s) :=
  ⟨h.depth_eq, h.hides⟩

theorem inner (h : Stands n 0 s) (hn : 1 ≤ n) : Inner s :=
  ⟨h.reads, h.binds.mono hn⟩

theorem mono (h : Stands n j s) (hmn : m ≤ n) : Stands m j s :=
  ⟨h.full, h.reads, h.depth_eq, fun ρ hρ => h.hides ρ (by omega)⟩

theorem tight (h : Stands 6 0 s) : Stands 14 0 s :=
  ⟨h.full, h.reads, h.depth_eq, h.binds.tight.hides⟩

theorem signs_append (h : Stands n j s) (ht : startsParted t.toList = true) :
    signs (s ++ t) = signs s ++ signs t := by
  unfold signs
  rw [String.toList_append]
  exact h.reads _ ht

theorem full_append (h : Stands n j s) (ht : startsParted t.toList = true) :
    signs (s ++ t) ≠ [] := by
  rw [h.signs_append ht]
  exact List.append_ne_nil_of_left_ne_nil h.full _

/-- A text whose signs have no role of their own. -/
theorem of_plain {ts : List Sign} (hne : ts ≠ []) (hts : ∀ t ∈ ts, t.role = .plain)
    (h : ∀ rest, startsParted rest = true →
      scan false [] (s.toList ++ rest) = ts ++ scan false [] rest) : Stands 14 0 s := by
  have hsigns : signs s = ts := by simpa [signs, scan, ofRun] using h [] rfl
  have hplain : depth 0 ts = 0 ∧ ∀ ρ : Role, ρ.rank < 14 → cut ρ 0 ts = none := by
    clear h hsigns hne
    induction ts with
    | nil => exact ⟨rfl, fun _ _ => rfl⟩
    | cons t ts ih =>
      have ht : t.role = .plain := hts t List.mem_cons_self
      have hafter : after 0 t = 0 := by simp [after, ht]
      obtain ⟨hdepth, hcut⟩ := ih fun u hu => hts u (List.mem_cons_of_mem t hu)
      refine ⟨?_, fun ρ hρ => cut_cons_eq_none.mpr ⟨fun h => ?_, ?_⟩⟩
      · show depth (after 0 t) ts = 0
        rw [hafter, hdepth]
      · rw [← h.2, ht] at hρ
        exact absurd hρ (by decide)
      · rw [hafter, hcut ρ hρ]
  rw [← hsigns] at hne h hplain
  exact ⟨hne, h, hplain.1, hplain.2⟩

theorem shows_append (h : Stands n j s) (ht : isTail n j k t = true) :
    depth 0 (signs (s ++ t)) = k ∧ ∀ ρ : Role, ρ.rank < n → cut ρ 0 (signs (s ++ t)) = none := by
  obtain ⟨hbare, hstarts⟩ := Bool.and_eq_true_iff.mp ht
  rw [h.signs_append hstarts, depth_append, h.depth_eq, depth_of_isBare hbare]
  refine ⟨rfl, fun ρ hρ => cut_append_eq_none.mpr ⟨h.hides ρ hρ, ?_⟩⟩
  rw [h.depth_eq, cut_of_isBare hbare hρ]

/-- A fixed text ends what is read. -/
theorem close (h : Stands n j s) (ht : isTail n j k t = true) : Stands n k (s ++ t) := by
  obtain ⟨hdepth, hcut⟩ := h.shows_append ht
  obtain ⟨hbare, hstarts⟩ := Bool.and_eq_true_iff.mp ht
  refine ⟨h.full_append hstarts, fun rest hrest => ?_, hdepth, hcut⟩
  rw [String.toList_append, List.append_assoc,
    h.reads _ (startsParted_append hstarts fun _ => hrest),
    scan_append [] (quote_not_mem_of_isBare hbare) hrest, h.signs_append hstarts, List.append_assoc]
  rfl

/-- A fixed text parts what was read from what follows. -/
theorem link (h : Stands n j s) (ht : isLink n j k t = true) : Leads n k (s ++ t) := by
  obtain ⟨htail, hends⟩ := Bool.and_eq_true_iff.mp ht
  obtain ⟨hdepth, hcut⟩ := h.shows_append htail
  obtain ⟨hbare, hstarts⟩ := Bool.and_eq_true_iff.mp htail
  have hne : t.toList ≠ [] := by
    intro hnil
    rw [hnil] at hends
    cases hends
  refine ⟨h.full_append hstarts, fun rest => ?_, hdepth, hcut⟩
  rw [String.toList_append, List.append_assoc,
    h.reads _ (startsParted_append hstarts fun hnil => absurd hnil hne),
    scan_append_of_ends [] (quote_not_mem_of_isBare hbare) hends, h.signs_append hstarts,
    List.append_assoc]
  rfl

end Stands

namespace Leads

variable {n j : Nat} {s t : String}

theorem signs_append (h : Leads n j s) (t : String) : signs (s ++ t) = signs s ++ signs t := by
  unfold signs
  rw [String.toList_append]
  exact h.reads _

/-- A text that is one sign. -/
theorem signs_cons (h : Leads n j s) {a : Sign} (hs : signs s = [a]) (t : String) :
    signs (s ++ t) = a :: signs t := by
  rw [h.signs_append, hs, List.singleton_append]

theorem full_append (h : Leads n j s) (t : String) : signs (s ++ t) ≠ [] := by
  rw [h.signs_append]
  exact List.append_ne_nil_of_left_ne_nil h.full _

theorem reads_append (h : Leads n j s) {rest : List Char}
    (ht : scan false [] (t.toList ++ rest) = signs t ++ scan false [] rest) :
    scan false [] ((s ++ t).toList ++ rest) = signs (s ++ t) ++ scan false [] rest := by
  rw [String.toList_append, List.append_assoc, h.reads, ht, h.signs_append, List.append_assoc]

/-- An operand outside of brackets. -/
theorem before (h : Leads n 0 s) (ht : Stands n 0 t) : Stands n 0 (s ++ t) where
  full := h.full_append t
  reads rest hrest := h.reads_append (ht.reads rest hrest)
  depth_eq := by rw [h.signs_append, depth_append, h.depth_eq, ht.depth_eq]
  hides ρ hρ := by
    rw [h.signs_append]
    exact cut_append_eq_none.mpr ⟨h.hides ρ hρ, by rw [h.depth_eq, ht.hides ρ hρ]⟩

/-- Any text with all its partners inside of brackets. -/
theorem inside (h : Leads n (j + 1) s) (ht : Inner t) : Stands n (j + 1) (s ++ t) where
  full := h.full_append t
  reads rest hrest := h.reads_append (ht.reads rest hrest)
  depth_eq := by rw [h.signs_append, depth_append, h.depth_eq, ht.binds.depth_inside]
  hides ρ hρ := by
    rw [h.signs_append]
    exact cut_append_eq_none.mpr ⟨h.hides ρ hρ, by rw [h.depth_eq, ht.binds.cut_inside]⟩

/-- Two operands of one sign inside of brackets. -/
theorem pair {a b : String} (h : Leads n (j + 1) s) (ha : Inner a)
    (ht : isLink n (j + 1) (j + 1) t = true) (hb : Inner b) :
    Stands n (j + 1) (s ++ a ++ t ++ b) :=
  ((h.inside ha).link ht).inside hb

end Leads

/-! Literals -/

section Literals

theorem toUpper_of_isDigit {c : Char} (h : c.isDigit = true) : c.toUpper = c := by
  have hdigit := (Text.isDigit_iff.mp h).2
  refine dif_neg fun hlower => ?_
  have hbound : 97 ≤ c.toNat := UInt32.le_iff_toNat_le.mp hlower.1
  omega

theorem role_of_digits {cs : List Char} (h : ∀ c ∈ cs, c.isDigit = true) :
    (word cs).role = .plain := by
  have hupper : cs.map Char.toUpper = cs :=
    (List.map_congr_left fun c hc => toUpper_of_isDigit (h c hc)).trans (List.map_id cs)
  have hrelation : relation? (word cs) = none := by
    unfold relation?
    dsimp only
    rw [hupper]
    split <;> first | rfl | exact absurd (h _ List.mem_cons_self) (by decide)
  unfold role
  dsimp only
  rw [hupper, hrelation]
  split <;> first | rfl | exact absurd (h _ List.mem_cons_self) (by decide)

def isNumberChar (c : Char) : Bool :=
  c.isDigit || c == '.' || c == '-'

structure NumberText (cs : List Char) : Prop where
  ne_nil : cs ≠ []
  chars : cs.all isNumberChar = true

theorem role_ofRun {seen : List Char} (h : ∀ c ∈ seen, c.isDigit = true) :
    ∀ t ∈ ofRun seen, t.role = .plain := by
  intro t ht
  unfold ofRun at ht
  split at ht
  · cases ht
  · rw [List.mem_singleton.mp ht]
    exact role_of_digits fun c hc => h c (List.mem_reverse.mp hc)

theorem role_of_scan {cs seen : List Char} (hcs : cs.all isNumberChar = true)
    (hseen : ∀ c ∈ seen, c.isDigit = true) : ∀ t ∈ scan false seen cs, t.role = .plain := by
  induction cs generalizing seen with
  | nil => exact role_ofRun hseen
  | cons c cs ih =>
    rw [List.all_cons, Bool.and_eq_true] at hcs
    obtain ⟨hc, hcs⟩ := hcs
    have hident {b : Char} (hb : b.isDigit = true) : Text.isIdentRest b = true :=
      Text.isIdentRest_of_isHexDigit (by simp [Text.isHexDigit, hb])
    by_cases hdigit : c.isDigit = true
    · rw [scan, if_pos (continues_of_isIdentRest (fun b hb => hident (hseen b hb)) (hident hdigit))]
      exact ih hcs (List.forall_mem_cons.mpr ⟨hdigit, hseen⟩)
    · have hmark : c = '.' ∨ c = '-' := by simpa [isNumberChar, hdigit] using hc
      have hscan : scan false seen (c :: cs) = ofRun seen ++ [mark c] ++ scan false [] cs := by
        rcases hmark with rfl | rfl <;> exact scan_parted (by decide) (by decide) seen cs
      have hrole : (mark c).role = .plain := by rcases hmark with rfl | rfl <;> rfl
      intro t ht
      rw [hscan, List.mem_append, List.mem_append, List.mem_singleton] at ht
      rcases ht with (ht | rfl) | ht
      · exact role_ofRun hseen t ht
      · exact hrole
      · exact ih hcs (by simp) t ht

theorem scan_quoted_ne_nil (seen cs : List Char) : scan true seen cs ≠ [] := by
  induction cs generalizing seen with
  | nil => simp [scan]
  | cons c cs ih =>
    rw [scan]
    split
    · simp
    · exact ih _

/-- Only blanks leave no sign. -/
theorem isBlank_of_scan_eq_nil {seen cs : List Char} (h : scan false seen cs = []) :
    seen = [] ∧ ∀ c ∈ cs, Text.isBlank c = true := by
  induction cs generalizing seen with
  | nil => simpa [scan, ofRun] using h
  | cons c cs ih =>
    rw [scan] at h
    split at h
    · exact absurd (ih h).1 (by simp)
    · split at h
      · exact absurd (ih (List.append_eq_nil_iff.mp h).2).1 (by simp)
      · split at h
        · exact absurd (List.append_eq_nil_iff.mp h).2 (scan_quoted_ne_nil [] cs)
        · obtain ⟨hfirst, hcs⟩ := List.append_eq_nil_iff.mp h
          obtain ⟨hrun, hchar⟩ := List.append_eq_nil_iff.mp hfirst
          refine ⟨by simpa [ofRun] using hrun, List.forall_mem_cons.mpr ⟨?_, (ih hcs).2⟩⟩
          simpa [ofChar] using hchar

theorem stands_number {s : String} (h : NumberText s.toList) : Stands 14 0 s := by
  have hchars := List.all_eq_true.mp h.chars
  have hquote : '\'' ∉ s.toList := fun hmem => absurd (hchars _ hmem) (by decide)
  have hfull : signs s ≠ [] := by
    intro hnil
    obtain ⟨c, hc⟩ := List.exists_mem_of_ne_nil _ h.ne_nil
    have hblank := (isBlank_of_scan_eq_nil hnil).2 c hc
    have hnumber := hchars c hc
    simp only [isNumberChar, Bool.or_eq_true, beq_iff_eq] at hnumber
    rcases hnumber with (hdigit | rfl) | rfl
    · have hident := Text.isIdentRest_of_isHexDigit (c := c) (by simp [Text.isHexDigit, hdigit])
      rw [Text.isBlank_of_isIdentRest hident] at hblank
      cases hblank
    · exact absurd hblank (by decide)
    · exact absurd hblank (by decide)
  exact Stands.of_plain hfull (role_of_scan h.chars (by simp)) fun _ => scan_append [] hquote

/-- The quotes of a text are doubled, so the text ends at the last one. -/
theorem scan_quoted (cs seen : List Char) : ∃ ts : List Sign, ts ≠ [] ∧
    (∀ t ∈ ts, t.role = .plain) ∧ ∀ rest,
      scan true seen (cs.flatMap Dialect.escapeSql ++ '\'' :: rest) = ts ++ scan false [] rest := by
  induction cs generalizing seen with
  | nil => exact ⟨[.quoted seen.reverse], by simp, by simp [role], fun rest => by simp [scan]⟩
  | cons c cs ih =>
    by_cases hc : c = '\''
    · obtain ⟨ts, -, hts, hscan⟩ := ih []
      refine ⟨.quoted seen.reverse :: ts, by simp, ?_, fun rest => ?_⟩
      · exact List.forall_mem_cons.mpr ⟨rfl, hts⟩
      · have hparted : continues [] '\'' = false := by decide
        subst hc
        rw [List.cons_append, ← hscan rest]
        simp [Dialect.escapeSql, scan, hparted, ofRun]
    · obtain ⟨ts, hne, hts, hscan⟩ := ih (c :: seen)
      refine ⟨ts, hne, hts, fun rest => ?_⟩
      rw [← hscan rest]
      simp [Dialect.escapeSql, scan, hc]

theorem stands_quote {d : Dialect} (hd : d.isSql = true) (s : String) :
    Stands 14 0 (d.quote s) := by
  obtain ⟨ts, hne, hts, hscan⟩ := scan_quoted s.toList []
  refine Stands.of_plain hne hts fun rest _ => ?_
  have hparted : continues [] '\'' = false := by decide
  rw [← hscan rest]
  simp [Dialect.quote, hd, scan, hparted, ofRun]

namespace NumberText

variable {cs ds : List Char}

theorem append (h : NumberText cs) (hds : ds.all isNumberChar = true) : NumberText (cs ++ ds) :=
  ⟨List.append_ne_nil_of_left_ne_nil h.ne_nil _, by rw [List.all_append, h.chars, hds]; rfl⟩

theorem behind (h : NumberText cs) (hds : ds.all isNumberChar = true) : NumberText (ds ++ cs) :=
  ⟨List.append_ne_nil_of_right_ne_nil _ h.ne_nil, by rw [List.all_append, h.chars, hds]; rfl⟩

theorem repr (n : Nat) : NumberText (Nat.repr n).toList := by
  rw [Nat.repr_eq_ofList_toDigits, String.toList_ofList]
  refine ⟨Nat.toDigits_ne_nil, List.all_eq_true.mpr fun c hc => ?_⟩
  have hdigit := Nat.isDigit_of_mem_toDigits (by decide) (by decide) hc
  simp [isNumberChar, hdigit]

theorem toString (n : Int) : NumberText (ToString.toString n).toList := by
  cases n with
  | ofNat m => exact repr m
  | negSucc m =>
    show NumberText ("-" ++ Nat.repr (m + 1)).toList
    rw [String.toList_append]
    exact (repr (m + 1)).behind (by decide)

theorem positional (d : Number.Decimal) : NumberText d.positional.toList := by
  have htext : NumberText d.text := repr d.digits
  have hpart {cs : List Char} (hsub : cs ⊆ d.text) : cs.all isNumberChar = true :=
    List.all_eq_true.mpr fun c hc => List.all_eq_true.mp htext.chars c (hsub hc)
  have hzeros (k : Nat) : (List.replicate k '0').all isNumberChar = true := by
    simp [isNumberChar]
  unfold Number.Decimal.positional
  dsimp only
  split
  · exact ⟨by decide, by decide⟩
  · split
    · simp only [String.toList_append, String.toList_ofList]
      exact (htext.behind (hzeros _)).behind (by decide)
    · split
      · rw [String.toList_ofList]
        exact htext.append (hzeros _)
      · simp only [String.toList_append, String.toList_ofList]
        have hpoint : NumberText ".".toList := ⟨by decide, by decide⟩
        exact (hpoint.behind (hpart (List.take_subset ..))).append (hpart (List.drop_subset ..))

end NumberText

/-- A number that is not finite is written as a word. -/
theorem stands_pointed (x : Number.Binary64) : Stands 14 0 x.pointed := by
  unfold Number.Binary64.pointed Number.Binary64.spell
  split
  · refine stands_number ?_
    rw [String.toList_append]
    refine NumberText.behind ?_ (by split <;> decide)
    dsimp only
    split
    · rw [String.toList_append]
      exact (NumberText.positional _).append (by decide)
    · exact NumberText.positional _
  · split
    · exact stands_bare (by decide)
    · split <;> exact stands_bare (by decide)

theorem stands_literal {d : Dialect} (hd : d.isSql = true) (l : Literal) :
    Stands 14 0 (d.literal l) := by
  cases l with
  | int n => exact stands_number (.toString n.toInt)
  | float x => exact stands_pointed x
  | bool b =>
    cases b <;> simp only [Dialect.literal, Dialect.truth, hd] <;>
      exact stands_bare (by decide)
  | str s => exact stands_quote hd s
  | none =>
    cases d with
    | sqlite => exact stands_bare (by decide)
    | postgres => exact stands_bare (by decide)
    | _ => cases hd

end Literals

/-! Operands -/

/-- How tightly the text of an expression binds; a conditional ends with a word of its own. -/
def level : Expr → Nat
  | .ternary .. => 14
  | e => e.precedence

theorem precedence_le_level (e : Expr) : e.precedence ≤ level e := by
  cases e <;> simp [level, Expr.precedence]

theorem precedence_range (e : Expr) : 1 ≤ e.precedence ∧ e.precedence ≤ 14 := by
  fun_cases Expr.precedence e with
  | case6 l op r => cases op <;> decide
  | _ => decide

theorem one_le_level (e : Expr) : 1 ≤ level e :=
  Nat.le_trans (precedence_range e).1 (precedence_le_level e)

/-- The text of the operand binds as tightly as its expression does. -/
def Legible (o : Operand) : Prop :=
  Stands (level o.expr) 0 o.text

theorem stands_round {s : String} (h : Inner s) : Stands 14 0 (round s) :=
  ((leads_bare (k := 1) (by decide)).inside h).close (by decide)

theorem signs_round {s : String} (h : Inner s) :
    signs (round s) = .mark '(' :: signs s ++ [.mark ')'] := by
  have hlead : Leads 14 1 "(" := leads_bare (by decide)
  have hfirst : signs "(" = [.mark '('] := by decide
  have hlast : signs ")" = [.mark ')'] := by decide
  rw [round, (hlead.inside h).signs_append (by decide), hlead.signs_append, hfirst, hlast]
  rfl

namespace Legible

variable {o : Operand} {n : Nat}

theorem alone (h : Legible o) : Inner o.text :=
  Stands.inner h (one_le_level o.expr)

theorem within (h : Legible o) (d : Dialect) (hn : n ≤ 14) : Stands n 0 (o.within d n) := by
  unfold Operand.within
  split
  · exact (stands_round h.alone).mono hn
  next hbinds =>
    have hle : n ≤ o.expr.precedence := by
      simp only [Bool.or_eq_true, decide_eq_true_eq] at hbinds
      omega
    exact Stands.mono h (Nat.le_trans hle (precedence_le_level o.expr))

theorem tight (h : Legible o) (d : Dialect) (hn : n ≤ 14) (hsix : 6 ≤ n) :
    Stands 14 0 (o.within d n) :=
  ((h.within d hn).mono hsix).tight

/-- Brackets around an operand make no difference to what it is. -/
theorem bare_within (h : Legible o) (d : Dialect) (n : Nat) :
    bare (signs (o.within d n)) = bare (signs o.text) := by
  unfold Operand.within
  split
  · rw [signs_round h.alone, bare_round h.alone.binds]
  · rfl

end Legible

/-! Forms of expressions -/

section Joined

variable {n : Nat} {s w t : String}

theorem isLink_blank (n : Nat) : isLink n 0 0 " " = true := by
  have hsigns : signs " " = [] := by decide
  have hparts : (startsParted " ".toList && endsParted " ".toList) = true := by decide
  simp_all [isLink, isTail, isBare, depth, cut]

theorem stands_joined (hs : Stands n 0 s) (hw : Stands n 0 w) (ht : Stands n 0 t) :
    Stands n 0 (s ++ " " ++ w ++ " " ++ t) :=
  (((hs.link (isLink_blank n)).before hw).link (isLink_blank n)).before ht

theorem signs_joined (hs : Stands n 0 s) (hw : Stands n 0 w) (t : String) :
    signs (s ++ " " ++ w ++ " " ++ t) = signs s ++ signs w ++ signs t := by
  have hblank : signs " " = [] := by decide
  have hleft := hs.link (isLink_blank n)
  have hmiddle := (hleft.before hw).link (isLink_blank n)
  rw [hmiddle.signs_append, (hleft.before hw).signs_append (by decide), hleft.signs_append,
    hs.signs_append (by decide), hblank, List.append_nil, List.append_nil]

theorem leads_not : Leads 4 0 "NOT " :=
  leads_bare (by decide)

/-- A function whose name ends with an open bracket. -/
theorem stands_applied {lead inner : String} (hlead : isHead 14 1 lead = true)
    (h : Inner inner) : Stands 14 0 (lead ++ inner ++ ")") :=
  ((leads_bare hlead).inside h).close (by decide)

theorem inner_join {os : List Operand} (h : ∀ o ∈ os, Legible o) : Inner (Operand.join os) := by
  show Inner (", ".intercalate (os.map (·.text)))
  cases os with
  | nil => exact ⟨fun _ _ => rfl, by decide, fun _ _ => rfl⟩
  | cons o os =>
    suffices hstands : Stands 1 0 (", ".intercalate ((o :: os).map (·.text))) from
      hstands.inner (Nat.le_refl 1)
    induction os generalizing o with
    | nil =>
      have ho : Legible o := h o List.mem_cons_self
      simpa using Stands.mono ho (one_le_level o.expr)
    | cons q os ih =>
      obtain ⟨ho, hos⟩ := List.forall_mem_cons.mp h
      have hfirst := (Stands.mono ho (one_le_level o.expr)).link (t := ", ") (k := 0) (by decide)
      rw [List.map_cons, List.map_cons, String.intercalate_cons_cons]
      exact hfirst.before (ih q hos)

end Joined

section Forms

variable {p : Printer} {x y z : Operand}

theorem isSql_iff {d : Dialect} : d.isSql = true ↔ d = .sqlite ∨ d = .postgres := by
  cases d <;> simp [Dialect.isSql]

theorem stands_unary (hd : p.dialect.isSql = true) {op : UnaryOp} (hx : Legible x)
    (hpos : op = .pos → 6 ≤ level x.expr) :
    Stands (Expr.unary op x.expr).precedence 0 (p.unary op x) := by
  have hmark : Printer.signMark p.dialect op =
      match op with | .pos => "" | .neg => "-" | .not => "NOT " | .invert => "~" := by
    rcases isSql_iff.mp hd with h | h <;> rw [h] <;> cases op <;> rfl
  have hoperand : Stands 14 0 (x.within p.dialect 14) := hx.tight _ (by decide) (by decide)
  cases op with
  | pos => exact (Stands.mono hx (hpos rfl)).tight.mono (precedence_range _).2
  | neg =>
    rw [Printer.unary, hmark]
    · have hlead : Leads 14 0 "-" := leads_bare (by decide)
      exact (hlead.before hoperand).mono (precedence_range _).2
    · simp
  | not =>
    rw [Printer.unary, hmark]
    · exact leads_not.before (hoperand.mono (by decide))
    · simp
  | invert =>
    rw [Printer.unary, hmark]
    · have hlead : Leads 14 0 "~" := leads_bare (by decide)
      exact (hlead.before hoperand).mono (precedence_range _).2
    · simp

theorem stands_binarySymbol {d : Dialect} (hd : d.isSql = true) (op : BinOp) :
    Stands 14 0 (Printer.binarySymbol d op) := by
  rcases isSql_iff.mp hd with rfl | rfl <;> cases op <;> exact stands_bare (by decide)

/-- Two pairs of brackets inside of another one. -/
theorem stands_plain (hd : p.dialect.isSql = true) (op : BinOp) (hx : Legible x) (hy : Legible y) :
    Stands 14 0 (p.plain x op y) := by
  by_cases hxor : op = .bitXor ∧ p.dialect = .sqlite
  · obtain ⟨rfl, hsqlite⟩ := hxor
    have ha := (hx.within p.dialect (Nat.le_refl 14)).inner (by decide)
    have hb := (hy.within p.dialect (Nat.le_refl 14)).inner (by decide)
    have hlead : Leads 14 2 "((" := leads_bare (by decide)
    have hor := hlead.pair (t := " | ") ha (by decide) hb
    have hminus := hor.link (t := ") - (") (k := 2) (by decide)
    have hand := hminus.pair (t := " & ") ha (by decide) hb
    have hall := hand.close (t := "))") (k := 0) (by decide)
    simpa [Printer.plain, hsqlite] using hall
  · have hprint : p.plain x op y = x.within p.dialect op.precedence ++ " " ++
        Printer.binarySymbol p.dialect op ++ " " ++ y.within p.dialect (op.precedence + 1) := by
      rcases isSql_iff.mp hd with h | h <;> cases op <;> simp_all [Printer.plain]
    have hrange : 6 ≤ op.precedence ∧ op.precedence ≤ 13 := by cases op <;> decide
    rw [hprint]
    exact stands_joined (hx.tight _ (by omega) (by omega)) (stands_binarySymbol hd op)
      (hy.tight _ (by omega) (by omega))

theorem stands_remainder {a b : String} (ha : Stands 14 0 a) (hb : Stands 14 0 b) :
    Stands 14 0 (Printer.remainder a b) := by
  have hin := hb.inner (by decide)
  have hlead : Leads 14 1 "(" := leads_bare (by decide)
  have hmod := hlead.pair (t := " % ") (ha.inner (by decide)) (by decide) hin
  have hadd := (hmod.link (t := " + ") (k := 1) (by decide)).inside hin
  exact (hadd.link (t := ") % ") (k := 0) (by decide)).before hb

theorem stands_floored (hd : p.dialect.isSql = true) (op : BinOp) (hx : Legible x)
    (hy : Legible y) : Stands 14 0 (p.floored x op y) := by
  have ha : Stands 14 0 (x.within p.dialect 11) := hx.tight _ (by decide) (by decide)
  have hb : Stands 14 0 (y.within p.dialect 12) := hy.tight _ (by decide) (by decide)
  have hremainder := (stands_remainder ha hb).inner (by decide)
  by_cases hop : op = .floorDiv
  · have hlead : Leads 14 2 "((" := leads_bare (by decide)
    have hsub := hlead.pair (t := " - ") (ha.inner (by decide)) (by decide) hremainder
    have hdiv := (hsub.link (t := ") / ") (k := 1) (by decide)).inside (hb.inner (by decide))
    have hall := hdiv.close (t := ")") (k := 0) (by decide)
    rcases isSql_iff.mp hd with h | h <;> simpa [Printer.floored, h, hop] using hall
  · have hall := stands_round hremainder
    rcases isSql_iff.mp hd with h | h <;> simpa [Printer.floored, h, hop, round] using hall

theorem stands_binary (hd : p.dialect.isSql = true) (op : BinOp) (hx : Legible x)
    (hy : Legible y) : Stands 14 0 (p.binary x op y) := by
  have hplain := stands_plain hd op hx hy
  have hfloored := stands_floored hd op hx hy
  have hpower : Stands 14 0 ("POWER(" ++ x.text ++ ", " ++ y.text ++ ")") := by
    have hlead : Leads 14 1 "POWER(" := leads_bare (by decide)
    exact (hlead.pair hx.alone (by decide) hy.alone).close (by decide)
  unfold Printer.binary
  split
  · rcases isSql_iff.mp hd with h | h <;> simpa [Printer.power, h] using hpower
  · split <;> assumption
  · split <;> assumption
  · exact hplain

theorem boolOp_eq (hd : p.dialect.isSql = true) (op : BoolOp) : p.boolOp op x y =
    x.within p.dialect (Printer.boolPrecedence op) ++ " " ++ Printer.boolSymbol p.dialect op ++
      " " ++ y.within p.dialect (Printer.boolPrecedence op + 1) := by
  rcases isSql_iff.mp hd with h | h <;> simp [Printer.boolOp, h, Dialect.isDotted]

theorem stands_boolSymbol {d : Dialect} (hd : d.isSql = true) (op : BoolOp) :
    Stands (Printer.boolPrecedence op) 0 (Printer.boolSymbol d op) := by
  rcases isSql_iff.mp hd with rfl | rfl <;> cases op <;> exact stands_bare (by decide)

theorem stands_boolOp (hd : p.dialect.isSql = true) (op : BoolOp) (hx : Legible x)
    (hy : Legible y) : Stands (Printer.boolPrecedence op) 0 (p.boolOp op x y) := by
  have hrange : Printer.boolPrecedence op ≤ 13 := by cases op <;> decide
  rw [boolOp_eq hd]
  exact stands_joined (hx.within _ (by omega)) (stands_boolSymbol hd op)
    ((hy.within _ (by omega)).mono (Nat.le_succ _))

/-- A comparison shows its negation, but behind an operand. -/
theorem stands_compareSymbol {d : Dialect} (hd : d.isSql = true) (op : CmpOp) :
    Stands 5 0 (Printer.compareSymbol d op) := by
  rcases isSql_iff.mp hd with rfl | rfl <;> cases op <;> exact stands_bare (by decide)

theorem print_display (hd : p.dialect.isSql = true) {r : Expr} (h : Printer.isDisplay r = true) :
    p.print r = round (Operand.join (p.parts r)) := by
  cases r with
  | tuple items =>
    rcases isSql_iff.mp hd with hp | hp <;> simp [Printer.print, Printer.parts, Printer.tuple, hp]
  | list items =>
    rcases isSql_iff.mp hd with hp | hp <;> simp [Printer.print, Printer.parts, Printer.list, hp]
  | _ => cases h

/-- A display is written anew as it would be written anyway. -/
theorem membership_eq (hd : p.dialect.isSql = true) (negated : Bool) (r : Expr) :
    p.membership x negated ⟨r, p.print r⟩ (p.parts r) = x.within p.dialect 6 ++ " " ++
      (if negated then "NOT IN" else "IN") ++ " " ++ p.print r := by
  have hcontainer : (if Printer.isDisplay r then round (Operand.join (p.parts r)) else p.print r) =
      p.print r := by
    split
    next h => exact (print_display hd h).symm
    · rfl
  have hnot : " " ++ "NOT IN" ++ " " = " NOT IN " := by decide
  have hin : " " ++ "IN" ++ " " = " IN " := by decide
  rcases isSql_iff.mp hd with h | h <;> cases negated <;>
    simp [Printer.membership, h, hcontainer, String.append_assoc, ← hnot, ← hin]

def relationSigns : CmpOp → List Sign
  | .eq => [word ['=']]
  | .notEq => [word ['<', '>']]
  | .lt => [word ['<']]
  | .gt => [word ['>']]
  | .ltEq => [word ['<', '=']]
  | .gtEq => [word ['>', '=']]
  | .isIn => [word ['I', 'N']]
  | .notIn => [word ['N', 'O', 'T'], word ['I', 'N']]
  | .same => [word ['I', 'S']]
  | .notSame => [word ['I', 'S'], word ['N', 'O', 'T']]

/-- A comparison is an operand, the signs of a relation, and a second operand. -/
theorem exists_compare_eq (hd : p.dialect.isSql = true) {op : CmpOp} {r : Expr}
    (hr : Legible ⟨r, p.print r⟩) (hin : op = .isIn ∨ op = .notIn → 6 ≤ level r) :
    ∃ w t, p.compare x op ⟨r, p.print r⟩ (p.parts r) =
        x.within p.dialect 6 ++ " " ++ w ++ " " ++ t ∧
      Stands 5 0 w ∧ signs w = relationSigns op ∧ Stands 6 0 t ∧
      bare (signs t) = bare (signs (p.print r)) := by
  have hsymbol (hnot : ¬(op = .isIn ∨ op = .notIn)) :
      p.compare x op ⟨r, p.print r⟩ (p.parts r) = x.within p.dialect 6 ++ " " ++
        Printer.compareSymbol p.dialect op ++ " " ++ Operand.within ⟨r, p.print r⟩ p.dialect 6 := by
    cases op <;> first | rfl | exact absurd (by decide) hnot
  cases op with
  | isIn =>
    exact ⟨"IN", _, membership_eq hd false r, stands_bare (by decide), by decide,
      Stands.mono hr (hin (.inl rfl)), rfl⟩
  | notIn =>
    exact ⟨"NOT IN", _, membership_eq hd true r, stands_bare (by decide), by decide,
      Stands.mono hr (hin (.inr rfl)), rfl⟩
  | _ =>
    refine ⟨_, _, hsymbol (by decide), stands_compareSymbol hd _, ?_, hr.within _ (by decide),
      hr.bare_within p.dialect 6⟩
    rcases isSql_iff.mp hd with h | h <;> rw [h] <;> decide

theorem stands_compare (hd : p.dialect.isSql = true) {op : CmpOp} {r : Expr} (hx : Legible x)
    (hr : Legible ⟨r, p.print r⟩) (hin : op = .isIn ∨ op = .notIn → 6 ≤ level r) :
    Stands 5 0 (p.compare x op ⟨r, p.print r⟩ (p.parts r)) := by
  obtain ⟨w, t, heq, hw, -, ht, -⟩ := exists_compare_eq (x := x) hd hr hin
  rw [heq]
  exact stands_joined ((hx.within _ (by decide)).mono (by decide)) hw (ht.mono (by decide))

/-- Read from the signs of its text, a comparison has its operator and its operands. -/
theorem read?_relationSigns {l r : List Sign} (hl : Binds 6 l) (hr : Binds 6 r) (op : CmpOp) :
    Comparison.read? (l ++ relationSigns op ++ r) = some ⟨bare l, op, bare r⟩ := by
  have hcut : cut .relation 0 l = none := hl.hides _ (by decide)
  have hlast := role_getLast? hl.depth_eq (hl.hides .negation (by decide))
  have hfirst := role_head? (hr.hides .negation (by decide))
  have hrole : (word ['N', 'O', 'T']).role = .negation := by decide
  have hone {s : Sign} (hs : s.relation? = some op) (ho : relationSigns op = [s]) :
      Comparison.read? (l ++ relationSigns op ++ r) = some ⟨bare l, op, bare r⟩ := by
    rw [ho, List.append_assoc, List.singleton_append, Comparison.read?_append hl.depth_eq hcut hs,
      Comparison.around, hlast, hfirst]
    simp
  cases op with
  | notIn =>
    have hnot : cut .relation 0 (l ++ [word ['N', 'O', 'T']]) = none :=
      cut_append_eq_none.mpr ⟨hcut, by rw [hl.depth_eq]; decide⟩
    have hdepth : depth 0 (l ++ [word ['N', 'O', 'T']]) = 0 := by
      rw [depth_append, hl.depth_eq]
      decide
    have hsplit : l ++ relationSigns .notIn ++ r =
        l ++ [word ['N', 'O', 'T']] ++ word ['I', 'N'] :: r := by
      simp [relationSigns]
    have hin : (word ['I', 'N']).relation? = some .isIn := by decide
    rw [hsplit, Comparison.read?_append hdepth hnot hin, Comparison.around]
    simp [hrole]
  | notSame =>
    have hsplit : l ++ relationSigns .notSame ++ r =
        l ++ word ['I', 'S'] :: word ['N', 'O', 'T'] :: r := by
      simp [relationSigns]
    have his : (word ['I', 'S']).relation? = some .same := by decide
    rw [hsplit, Comparison.read?_append hl.depth_eq hcut his, Comparison.around]
    simp [hrole]
  | _ => exact hone (by decide) rfl

theorem stands_ternary (hd : p.dialect.isSql = true) (hx : Legible x) (hy : Legible y)
    (hz : Legible z) : Stands 14 0 (p.ternary x y z) := by
  have hlead : Leads 14 1 "CASE WHEN " := leads_bare (by decide)
  have hthen := hlead.pair (t := " THEN ") hx.alone (by decide) hy.alone
  have helse := (hthen.link (t := " ELSE ") (k := 1) (by decide)).inside hz.alone
  have hall := helse.close (t := " END") (k := 0) (by decide)
  rcases isSql_iff.mp hd with h | h <;> simpa [Printer.ternary, h] using hall

theorem stands_extremum (hd : p.dialect.isSql = true) (least : Bool) {rest : List Operand}
    (hargs : ∀ o ∈ x :: rest, Legible o) : Stands 14 0 (p.extremum least x rest) := by
  have hall := inner_join hargs
  rcases isSql_iff.mp hd with h | h <;> rw [Printer.extremum, h] <;> cases least <;>
    exact stands_applied (by decide) hall

theorem stands_builtin (hd : p.dialect.isSql = true) {f : Expr} {args : List Operand} {s : String}
    (hargs : ∀ o ∈ args, Legible o) (hs : p.builtin? f args = some s) : Stands 14 0 s := by
  have habs {e : Operand} (he : Legible e) : Stands 14 0 (p.absolute e) := by
    rcases isSql_iff.mp hd with h | h <;> rw [Printer.absolute, h] <;>
      exact stands_applied (by decide) he.alone
  have hlen {e : Operand} (he : Legible e) : Stands 14 0 (p.length e) := by
    rcases isSql_iff.mp hd with h | h <;> rw [Printer.length, h] <;>
      exact stands_applied (by decide) he.alone
  revert hs
  fun_cases Printer.builtin? p f args with
  | case1 n e hn => exact fun hs => Option.some.inj hs ▸ habs (hargs _ List.mem_cons_self)
  | case2 n e hn => exact fun hs => Option.some.inj hs ▸ hlen (hargs _ List.mem_cons_self)
  | case3 n first second rest hn => exact fun hs => Option.some.inj hs ▸ stands_extremum hd _ hargs
  | case4 n first second rest hn => exact fun hs => Option.some.inj hs ▸ stands_extremum hd _ hargs
  | case5 => exact fun hs => nomatch hs
  | case6 => exact fun hs => nomatch hs

theorem stands_call (hd : p.dialect.isSql = true) {args : List Operand} (hx : Legible x)
    (hargs : ∀ o ∈ args, Legible o) : Stands 14 0 (p.call x args) := by
  unfold Printer.call
  split
  next hs => exact stands_builtin hd hargs hs
  · have hdot : p.dialect.dot = "" := by rcases isSql_iff.mp hd with h | h <;> rw [h] <;> rfl
    rw [hdot, String.append_empty]
    have hopen := (hx.tight p.dialect (Nat.le_refl 14) (by decide)).link (t := "(") (k := 1)
      (by decide)
    exact (hopen.inside (inner_join hargs)).close (by decide)

theorem stands_subscript (hd : p.dialect.isSql = true) (hx : Legible x) (hy : Legible y) :
    Stands 14 0 (p.subscript x y) := by
  have hopen := (hx.tight p.dialect (Nat.le_refl 14) (by decide)).link (t := "[") (k := 1)
    (by decide)
  have hall := (hopen.inside hy.alone).close (t := "]") (k := 0) (by decide)
  rcases isSql_iff.mp hd with h | h <;> simpa [Printer.subscript, h] using hall

end Forms

/-! Trees -/

/-- A name that is no word of conditions. -/
def isPlainWord (s : String) : Bool :=
  (word s.toList).role = .plain

/-- The node keeps its parts together in writing. A plus sign is left out, and a container stands
without brackets, so both have to hold together by themselves. -/
def isWritten : Expr → Bool
  | .name n => isPlainWord n
  | .member _ field => isPlainWord field
  | .unary .pos e => 6 ≤ level e
  | .compare _ .isIn r => 6 ≤ level r
  | .compare _ .notIn r => 6 ≤ level r
  | _ => true

def isLegible (e : Expr) : Bool :=
  !e.anyNode fun d => !isWritten d

theorem isLegible_iff {e : Expr} :
    isLegible e = true ↔ isWritten e = true ∧ ∀ d ∈ e.operands, isLegible d = true := by
  unfold isLegible
  rw [Bool.not_eq_true', Expr.anyNode_eq_false]
  simp

theorem scan_word {seen cs : List Char} (hseen : ∀ c ∈ seen, Text.isIdentRest c = true)
    (h : ∀ c ∈ cs, Text.isIdentRest c = true) :
    scan false seen cs = ofRun (cs.reverse ++ seen) := by
  induction cs generalizing seen with
  | nil => rfl
  | cons c cs ih =>
    obtain ⟨hc, hcs⟩ := List.forall_mem_cons.mp h
    rw [scan, if_pos (continues_of_isIdentRest hseen hc),
      ih (List.forall_mem_cons.mpr ⟨hc, hseen⟩) hcs, List.reverse_cons, List.append_assoc,
      List.singleton_append]

theorem stands_word {s : String} (hname : Token.isName s = true) (h : isPlainWord s = true) :
    Stands 14 0 s := by
  obtain ⟨hne, hident⟩ : s.toList ≠ [] ∧ ∀ c ∈ s.toList, Text.isIdentRest c = true := by
    unfold Token.isName at hname
    split at hname
    · cases hname
    next c cs hcs =>
      simp only [Bool.and_eq_true, List.all_eq_true] at hname
      rw [hcs]
      refine ⟨List.cons_ne_nil c cs, List.forall_mem_cons.mpr ⟨?_, hname.1.2⟩⟩
      exact Text.isIdentRest_of_isIdentStart hname.1.1
  have hquote : '\'' ∉ s.toList := fun hmem => absurd (hident _ hmem) (by decide)
  have hsigns : signs s = [word s.toList] := by
    rw [signs, scan_word (by simp) hident, ofRun, List.append_nil, List.reverse_reverse, if_neg]
    simpa using hne
  have hplain : ∀ t ∈ signs s, t.role = .plain := by simpa [hsigns, isPlainWord] using h
  exact Stands.of_plain (by simp [hsigns]) hplain fun _ => scan_append [] hquote

theorem mem_operands {p : Printer} {es : List Expr} {o : Operand} (h : o ∈ p.operands es) :
    ∃ e ∈ es, o = ⟨e, p.print e⟩ := by
  induction es with
  | nil => cases h
  | cons e es ih =>
    rw [Printer.operands, List.mem_cons] at h
    rcases h with rfl | h
    · exact ⟨e, List.mem_cons_self, rfl⟩
    · obtain ⟨f, hf, rfl⟩ := ih h
      exact ⟨f, List.mem_cons_of_mem e hf, rfl⟩

/-- The text of an expression is read on its own and binds as tightly as the expression. -/
theorem legible_print {p : Printer} (hd : p.dialect.isSql = true) (e : Expr)
    (hwords : ∀ n ∈ e.words, Token.isName n = true) (h : isLegible e = true) :
    Legible ⟨e, p.print e⟩ := by
  induction e using Expr.induction_on_operands with
  | h e ih =>
    obtain ⟨hnode, hsub⟩ := isLegible_iff.mp h
    have hoperand (d : Expr) (hmem : d ∈ e.operands) : Legible ⟨d, p.print d⟩ :=
      ih d hmem (fun n hn => hwords n (Expr.words_of_operand hmem hn)) (hsub d hmem)
    have hmany {es : List Expr} (hes : ∀ d ∈ es, d ∈ e.operands) :
        ∀ o ∈ p.operands es, Legible o := by
      intro o ho
      obtain ⟨d, hd, rfl⟩ := mem_operands ho
      exact hoperand d (hes d hd)
    show Stands (level e) 0 (p.print e)
    cases e with
    | const l => exact (stands_literal hd l).mono (precedence_range (.const l)).2
    | name n => exact stands_word (hwords n (by simp [Expr.words])) hnode
    | unary op x =>
      refine stands_unary hd (hoperand x (by simp [Expr.operands])) fun hpos => ?_
      subst hpos
      simpa [isWritten] using hnode
    | binary l op r =>
      refine (stands_binary hd op (hoperand l ?_) (hoperand r ?_)).mono
        (precedence_range (.binary l op r)).2 <;> simp [Expr.operands]
    | boolOp op l r =>
      have hlevel : level (.boolOp op l r) = Printer.boolPrecedence op := by cases op <;> rfl
      rw [hlevel]
      refine stands_boolOp hd op (hoperand l ?_) (hoperand r ?_) <;> simp [Expr.operands]
    | compare l op r =>
      refine stands_compare hd (hoperand l (by simp [Expr.operands]))
        (hoperand r (by simp [Expr.operands])) fun hin => ?_
      rcases hin with rfl | rfl <;> simpa [isWritten] using hnode
    | ternary c y n =>
      refine stands_ternary hd (hoperand c ?_) (hoperand y ?_) (hoperand n ?_) <;>
        simp [Expr.operands]
    | call f args =>
      exact stands_call hd (hoperand f (by simp [Expr.operands]))
        (hmany fun d hmem => by simp [Expr.operands, hmem])
    | member x field =>
      have hx := (hoperand x (by simp [Expr.operands])).tight p.dialect (Nat.le_refl 14) (by decide)
      have hfield := stands_word (hwords field (by simp [Expr.words])) hnode
      exact (hx.link (by decide)).before hfield
    | subscript x i =>
      refine stands_subscript hd (hoperand x ?_) (hoperand i ?_) <;> simp [Expr.operands]
    | tuple items =>
      rw [print_display hd rfl, Printer.parts]
      exact stands_round (inner_join (hmany fun _ hmem => hmem))
    | list items =>
      rw [print_display hd rfl, Printer.parts]
      exact stands_round (inner_join (hmany fun _ hmem => hmem))

-- Not every tree is legible: a disjunction under a plus sign loses its brackets, and so does one
-- that is a container.

example : Printer.print { dialect := .sqlite }
    (.compare (.unary .pos (.boolOp .or (.name "a") (.name "b"))) .eq (.name "x")) =
      "a OR b = x" := by
  decide

example : Printer.print { dialect := .sqlite }
    (.compare (.name "x") .isIn (.boolOp .or (.name "a") (.name "b"))) = "x IN a OR b" := by
  decide

end Comprehend.Target.Sql
