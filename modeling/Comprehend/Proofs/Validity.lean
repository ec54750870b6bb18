import Comprehend.Proofs.Storage
import Comprehend.Proofs.Unparsing

/-! Flaws of comprehensions that are read from a source. The reader keeps all rules for
comprehensions but one: letters and numerals of all of Unicode may stand in a name, and a loop
variable has to be an identifier of ASCII. -/
namespace Comprehend

/-! Names and identifiers -/

namespace Text

theorem ascii_of_isAlphanum {c : Char} (h : (c.isAlphanum || c == '_') = true) :
    c.toNat < 128 := by
  simp only [Char.isAlphanum, Bool.or_eq_true, isAlpha_iff, isDigit_iff, beq_iff_eq] at h
  rcases h with h | rfl
  · omega
  · decide

theorem isAlphanum_of_isAlpha {c : Char} (h : (c.isAlpha || c == '_') = true) :
    (c.isAlphanum || c == '_') = true := by
  rw [Bool.or_eq_true] at h ⊢
  exact h.imp_left fun halpha => by simp [Char.isAlphanum, halpha]

theorem isIdentStart_ascii {c : Char} (h : c.toNat < 128) :
    isIdentStart c = (c.isAlpha || c == '_') := by
  simp [isIdentStart, isLetter, h]

theorem isIdentRest_ascii {c : Char} (h : c.toNat < 128) :
    isIdentRest c = (c.isAlphanum || c == '_') := by
  simp [isIdentRest, isLetter, isNumeral, Char.isAlphanum, h]

end Text

open Text Token

/-- The variable has a letter or a numeral beyond ASCII. -/
def Generator.isForeign (g : Generator) : Bool :=
  g.var.toList.any fun c => 128 ≤ c.toNat

theorem Generator.isForeign_eq_false {g : Generator} :
    g.isForeign = false ↔ ∀ c ∈ g.var.toList, c.toNat < 128 := by
  simp [isForeign]

theorem isIdentifier_iff {s : String} {c : Char} {cs : List Char} (hs : s.toList = c :: cs) :
    isIdentifier s = true ↔
      (c.isAlpha || c == '_') = true ∧ ∀ d ∈ cs, (d.isAlphanum || d == '_') = true := by
  simp [isIdentifier, hs]

theorem isAlphanum_of_isIdentifier {s : String} (h : isIdentifier s = true) :
    ∀ c ∈ s.toList, (c.isAlphanum || c == '_') = true := by
  cases hs : s.toList with
  | nil => simp
  | cons c cs =>
    obtain ⟨hc, hcs⟩ := (isIdentifier_iff hs).mp h
    exact List.forall_mem_cons.mpr ⟨isAlphanum_of_isAlpha hc, hcs⟩

/-- An identifier that is no keyword is a name. -/
theorem isName_of_isIdentifier {s : String} (h : isIdentifier s = true)
    (hword : TokenKind.ofWord s = .ident s) : isName s = true := by
  cases hs : s.toList with
  | nil => simp [isIdentifier, hs] at h
  | cons d ds =>
    obtain ⟨hd, hds⟩ := (isIdentifier_iff hs).mp h
    have hstart : isIdentStart d = true := by
      rwa [isIdentStart_ascii (ascii_of_isAlphanum (isAlphanum_of_isAlpha hd))]
    have hrest : ∀ e ∈ ds, isIdentRest e = true := by
      intro e he
      rw [isIdentRest_ascii (ascii_of_isAlphanum (hds e he))]
      exact hds e he
    simpa [isName, hs, hstart, hword] using hrest

/-- A name is an identifier if and only if it is one of ASCII. -/
theorem isIdentifier_iff_of_isName {s : String} (h : isName s = true) :
    isIdentifier s = true ↔ ∀ c ∈ s.toList, c.toNat < 128 := by
  unfold isName at h
  unfold isIdentifier
  split at h
  next => simp at h
  next d ds hs =>
    simp only [Bool.and_eq_true, List.all_eq_true] at h
    obtain ⟨⟨hstart, hrest⟩, -⟩ := h
    simp only [hs, Bool.and_eq_true, List.all_eq_true, List.forall_mem_cons]
    refine and_congr ⟨fun hd => ?_, fun hd => ?_⟩
      (forall₂_congr fun c hc => ⟨ascii_of_isAlphanum, fun hascii => ?_⟩)
    · exact ascii_of_isAlphanum (isAlphanum_of_isAlpha hd)
    · rwa [← isIdentStart_ascii hd]
    · rw [← isIdentRest_ascii hascii]
      exact hrest c hc

namespace Comprehension

/-! Loops -/

/-- Loops over different variables with ranges that move have no flaw but in the form of a
variable. -/
theorem loopsFlaw?_eq {gs : List Generator} {bound : List String}
    (hfresh : ∀ g ∈ gs, g.var ∉ bound) (hnodup : (gs.map (·.var)).Nodup)
    (hstep : ∀ g ∈ gs, g.range?.any (·.step == 0) = false)
    (hforeign : ∀ g ∈ gs, isIdentifier g.var = !g.isForeign) :
    loopsFlaw? bound gs = (gs.find? Generator.isForeign).map (.notIdentifier ·.var) := by
  induction gs generalizing bound with
  | nil => rfl
  | cons g gs ih =>
    simp only [List.forall_mem_cons] at hfresh hstep hforeign
    rw [List.map_cons, List.nodup_cons] at hnodup
    rw [loopsFlaw?, hforeign.1, List.find?_cons]
    cases hg : g.isForeign with
    | true => rfl
    | false =>
      rw [Bool.not_false, Bool.not_true, if_neg (by decide), if_neg hfresh.1, hstep.1,
        if_neg (by decide)]
      refine ih (fun x hx => ?_) hnodup.2 hstep.2 hforeign.2
      rw [List.mem_cons, not_or]
      refine ⟨fun heq => hnodup.1 ?_, hfresh.2 x hx⟩
      exact heq ▸ List.mem_map_of_mem hx

theorem Loop.range_moves (l : Loop) : l.generator.range?.any (·.step == 0) = false := by
  obtain ⟨var, hvar, items, filters⟩ := l
  cases items with
  | text f h => rfl
  | range r start stop step h => simpa [Loop.generator, Generator.range?, Iterable.values] using h

theorem Loop.isIdentifier_var (l : Loop) :
    isIdentifier l.generator.var = !l.generator.isForeign := by
  rw [Bool.eq_iff_iff, Bool.not_eq_true', Generator.isForeign_eq_false]
  exact isIdentifier_iff_of_isName l.isName_var

theorem Loops.flaw?_eq (L : Loops) :
    loopsFlaw? [] L.generators =
      (L.generators.find? Generator.isForeign).map (.notIdentifier ·.var) := by
  have hloop {P : Generator → Prop} (h : ∀ l : Loop, P l.generator) : ∀ g ∈ L.generators, P g := by
    intro g hg
    obtain ⟨l, -, rfl⟩ := List.mem_map.mp hg
    exact h l
  refine loopsFlaw?_eq (by simp) ?_ (hloop Loop.range_moves) (hloop Loop.isIdentifier_var)
  rw [Loops.generators, List.map_map]
  exact L.nodup

/-! Statements -/

variable {s : Statement}

theorem Canonical.partsFlaw?_eq (h : Canonical s) : s.comprehension.partsFlaw? = none := by
  cases h with
  | @bracketed shape hshape f L => rcases hshape with rfl | rfl <;> rfl
  | set => rfl
  | dict => rfl
  | @call r shape hshape f L => rcases hshape with rfl | rfl <;> rfl

theorem Canonical.exists_loops (h : Canonical s) :
    ∃ L : Loops, s.comprehension.generators = L.generators := by
  cases h <;> exact ⟨_, rfl⟩

theorem Canonical.flaw?_eq (h : Canonical s) :
    s.comprehension.flaw? =
      (s.comprehension.generators.find? Generator.isForeign).map (.notIdentifier ·.var) := by
  obtain ⟨L, hL⟩ := h.exists_loops
  have hne : L.generators.isEmpty = false := by
    simpa [Loops.generators] using L.ne_nil
  rw [flaw?, h.partsFlaw?_eq, hL, hne, L.flaw?_eq]
  rfl

theorem flaw?_assigned (target : Option String) (c : Comprehension) :
    (assigned target c).flaw? = c.flaw? ∧ (assigned target c).generators = c.generators := by
  cases target <;> exact ⟨rfl, rfl⟩

/-- The only flaw of a comprehension that is read is a loop variable beyond ASCII. The first such
variable is reported, and a comprehension without one is loaded from its own text. -/
theorem flaw_of_parse {source : String} {c : Comprehension} (h : parse source = .ok c) :
    c.flaw? = (c.generators.find? Generator.isForeign).map (.notIdentifier ·.var) ∧
      ofJsonText c.jsonText =
        match c.generators.find? Generator.isForeign with
        | none => .ok c
        | some g => .error (.flawed (.notIdentifier g.var)) := by
  have hflaw : c.flaw? = (c.generators.find? Generator.isForeign).map (.notIdentifier ·.var) := by
    obtain ⟨ts, -, c', target, hreading, -, rfl⟩ := reading_of_parse h
    obtain ⟨s, hs, rfl⟩ := hreading.exists_canonical
    obtain ⟨hassigned, hgenerators⟩ := flaw?_assigned target s.comprehension
    rw [hassigned, hgenerators, hs.flaw?_eq]
  refine ⟨hflaw, ?_⟩
  rw [c.ofJsonText_eq, hflaw]
  cases c.generators.find? Generator.isForeign <;> rfl

/-- Letters beyond ASCII do no harm outside of loop variables. -/
theorem flaw_of_parse_sum :
    parse "é = sum(k * ü for k in range(9, 0, -3))" =
        .ok (assigned (some "é") { ofReducer .sum "k * ü" [⟨"k", .range ⟨9, 0, -3⟩, []⟩] with
          provenance := origin "call_sum" }) ∧
      ofJsonText (jsonText
          (assigned (some "é") { ofReducer .sum "k * ü" [⟨"k", .range ⟨9, 0, -3⟩, []⟩] with
            provenance := origin "call_sum" })) =
        .ok (assigned (some "é") { ofReducer .sum "k * ü" [⟨"k", .range ⟨9, 0, -3⟩, []⟩] with
          provenance := origin "call_sum" }) := by
  have hsource : parse "é = sum(k * ü for k in range(9, 0, -3))" =
      .ok (assigned (some "é") { ofReducer .sum "k * ü" [⟨"k", .range ⟨9, 0, -3⟩, []⟩] with
        provenance := origin "call_sum" }) := by
    set_option maxRecDepth 4000 in cbv
  exact ⟨hsource, (flaw_of_parse hsource).2⟩

/-- A comprehension that is read and not loaded from its own text. -/
theorem parse_foreign_flawed :
    parse "[é for é in range(3)]" =
        .ok { ofElement .list "é" [⟨"é", .range ⟨0, 3, 1⟩, []⟩] with
          provenance := origin "list_comp" } ∧
      flaw? { ofElement .list "é" [⟨"é", .range ⟨0, 3, 1⟩, []⟩] with
          provenance := origin "list_comp" } = some (.notIdentifier "é") ∧
      ofJsonText (jsonText { ofElement .list "é" [⟨"é", .range ⟨0, 3, 1⟩, []⟩] with
          provenance := origin "list_comp" }) = .error (.flawed (.notIdentifier "é")) := by
  have hflaw : flaw? { ofElement .list "é" [⟨"é", .range ⟨0, 3, 1⟩, []⟩] with
      provenance := origin "list_comp" } = some (.notIdentifier "é") := rfl
  refine ⟨by set_option maxRecDepth 4000 in cbv, hflaw, ?_⟩
  rw [ofJsonText_eq, hflaw]

end Comprehension

end Comprehend
