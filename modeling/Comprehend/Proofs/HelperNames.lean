import Mathlib
import Comprehend.Comprehension.Parser
import Comprehend.Proofs.Gates
import Comprehend.Proofs.Occurrences
import Comprehend.Target.Julia

/-! Names that are made up for a Julia function. They are numbered and do not look at the names of
the comprehension, so that the two may meet. -/
namespace Comprehend

/-- A loop binds the name, or an expression of the comprehension mentions it. -/
def Comprehension.uses (c : Comprehension) (n : String) : Bool :=
  let sources := c.generators.filterMap fun g =>
    match g.source with
    | .text s => some s
    | .range _ => none
  c.generators.any (·.var == n) ||
    (c.expressions ++ sources).any fun s => (Expr.parse? s).any (·.mentions n)

namespace NameSource

@[simp] theorem given_fresh (names : NameSource) (stem : String) :
    (names.fresh stem).2.given = (names.fresh stem).1 :: names.given :=
  rfl

end NameSource

namespace Target.Julia

open Strategy Text

variable {c : Comprehension} {s : Settings} {n : String}

/-! Masks -/

/-- The masks take the next numbers, one for each filter. -/
theorem given_masks (p : Printers) (var : String) (fs : List String) (names : NameSource) :
    (masks p var fs names).2.given.reverse = names.given.reverse ++
      (List.range fs.length).map fun i => "mask" ++ toString (names.given.length + i + 1) := by
  induction fs generalizing names with
  | nil => simp [masks]
  | cons f fs ih =>
    have hstep : (masks p var (f :: fs) names).2 = (masks p var fs (names.fresh "mask").2).2 := rfl
    rw [hstep, ih, NameSource.given_fresh, List.reverse_cons, List.length_cons, List.length_cons,
      List.range_succ_eq_map, List.map_cons, List.append_assoc, List.map_map]
    simp only [List.singleton_append, Nat.add_zero, Function.comp_def, Nat.succ_eq_add_one]
    congr 2
    refine List.map_congr_left fun i _ => ?_
    rw [Nat.add_right_comm _ 1 i, Nat.add_assoc _ i 1]

/-- A mask is given its value where its name is made up. -/
theorem mem_masks (p : Printers) (var : String) {fs : List String} {names : NameSource}
    (h : n ∈ (masks p var fs names).2.given) :
    n ∈ names.given ∨ ∃ row ∈ (masks p var fs names).1, Occurs (n ++ " = ") row := by
  induction fs generalizing names with
  | nil => exact .inl h
  | cons f fs ih =>
    rcases ih h with hgiven | ⟨row, hrow, hoccurs⟩
    · rcases List.mem_cons.mp hgiven with rfl | hgiven
      · exact .inr ⟨_, List.mem_cons_self, (Occurs.refl _).before _⟩
      · exact .inl hgiven
    · exact .inr ⟨row, List.mem_cons_of_mem _ (List.mem_cons_of_mem _ hrow), hoccurs⟩

/-! All helper names -/

def helperNames (c : Comprehension) (s : Settings) : List String :=
  (body c s (decision c s)).2.given.reverse

/-- Operations on whole arrays are taken for one generator at most. -/
theorem generators_of_broadcast (h : (decision c s).mode = .broadcast) :
    c.generators = [] ∨ ∃ g, c.generators = [g] := by
  unfold decision at h
  dsimp only at h
  split at h
  · cases h
  next hnested =>
    rw [h] at hnested
    have hlength : c.generators.length ≤ 1 := by simpa [Comprehension.isNested] using hnested
    exact (Nat.le_one_iff_eq_zero_or_eq_one.mp hlength).imp List.length_eq_zero_iff.mp
      List.length_eq_one_iff.mp

theorem given_broadcast (p : Printers) (h : c.generators = [] ∨ ∃ g, c.generators = [g]) :
    (broadcast p c s {}).2.given.reverse =
      (List.range (c.generators.flatMap (·.filters)).length).map fun i =>
        "mask" ++ toString (i + 1) := by
  rcases h with hnone | ⟨g, hone⟩
  · simp [broadcast, hnone]
  · have hgiven := given_masks p g.var g.filters {}
    simp only [List.reverse_nil, List.nil_append, List.length_nil, Nat.zero_add] at hgiven
    rw [broadcast, hone, List.flatMap_singleton]
    exact hgiven

/-- One of the names that come with a decision has the property: those of the masks, as many as
there are filters, or that of the parts or the shards. -/
def SomeName (c : Comprehension) (d : Decision) (P : String → Prop) : Prop :=
  match d.mode, d.flavor with
  | .broadcast, _ =>
    ∃ k, 0 < k ∧ k ≤ (c.generators.flatMap (·.filters)).length ∧ P ("mask" ++ toString k)
  | .loops, .sequential => False
  | .loops, .partials _ => P "parts1"
  | .loops, .sharded => P "shards1"

theorem exists_mem_range_map {P : String → Prop} {m : Nat} :
    (∃ n ∈ (List.range m).map fun i => "mask" ++ toString (i + 1), P n) ↔
      ∃ k, 0 < k ∧ k ≤ m ∧ P ("mask" ++ toString k) := by
  constructor
  · rintro ⟨n, hn, hP⟩
    obtain ⟨i, hi, rfl⟩ := List.mem_map.mp hn
    exact ⟨i + 1, Nat.succ_pos i, List.mem_range.mp hi, hP⟩
  · rintro ⟨k, hpos, hk, hP⟩
    obtain ⟨i, rfl⟩ := Nat.exists_eq_succ_of_ne_zero (Nat.ne_of_gt hpos)
    exact ⟨_, List.mem_map_of_mem (List.mem_range.mpr hk), hP⟩

/-- The names come from the decision and the number of filters, whatever the comprehension uses. -/
theorem exists_mem_helperNames {P : String → Prop} :
    (∃ n ∈ helperNames c s, P n) ↔ SomeName c (decision c s) P := by
  have hgenerators := generators_of_broadcast (c := c) (s := s)
  unfold helperNames
  generalize decision c s = d at hgenerators ⊢
  obtain ⟨mode, flavor, notes⟩ := d
  cases mode with
  | broadcast =>
    have hgiven := given_broadcast (s := s) (Printers.ofComprehension c) (hgenerators rfl)
    exact hgiven ▸ exists_mem_range_map
  | loops =>
    cases flavor with
    | sequential => simp [body, bodyBy, SomeName]
    | partials g =>
      have hgiven : (body c s ⟨.loops, .partials g, notes⟩).2.given.reverse = ["parts1"] := rfl
      simp [hgiven, SomeName]
    | sharded =>
      have hgiven : (body c s ⟨.loops, .sharded, notes⟩).2.given.reverse = ["shards1"] := rfl
      simp [hgiven, SomeName]

theorem mem_helperNames : n ∈ helperNames c s ↔ SomeName c (decision c s) (n = ·) := by
  rw [← exists_mem_helperNames]
  simp

/-! Their place in the text -/

theorem isUnbroken_numbered (k : Nat) : IsUnbroken ("mask" ++ toString k ++ " = ") := by
  have hdigits : ∀ d ∈ (toString k).toList, d.isDigit = true := by
    intro d hd
    rw [Nat.toString_eq_repr, Nat.toList_repr] at hd
    exact Nat.isDigit_of_mem_toDigits (by decide) (by decide) hd
  have hother {d : Char} (hd : d.isDigit = false) (hother : d ∉ "mask".toList)
      (hother' : d ∉ " = ".toList) : d ∉ ("mask" ++ toString k ++ " = ").toList := by
    rw [String.toList_append, String.toList_append, List.mem_append, List.mem_append]
    rintro ((h | h) | h)
    · exact hother h
    · simp [hdigits d h] at hd
    · exact hother' h
  exact ⟨by simp, hother rfl (by decide) (by decide), hother rfl (by decide) (by decide)⟩

theorem isUnbroken_helperName (hn : n ∈ helperNames c s) : IsUnbroken (n ++ " = ") := by
  rw [mem_helperNames] at hn
  unfold SomeName at hn
  split at hn
  next =>
    obtain ⟨k, -, -, rfl⟩ := hn
    exact isUnbroken_numbered k
  next => exact hn.elim
  next => exact hn ▸ by decide
  next => exact hn ▸ by decide

theorem occurs_assignment (n value : String) {sign : String} (h : sign = " = " ++ value) :
    Occurs (n ++ " = ") (n ++ sign) := by
  rw [h, ← String.append_assoc]
  exact (Occurs.refl _).before value

theorem anyShows_partials (scalar : Printer) (g : Grant) (names : NameSource) :
    Layout.AnyShows ((names.fresh "parts").1 ++ " = ") (partials scalar c g names).1 :=
  .inl (((occurs_assignment _ "fill(" (by decide)).before _).before _)

theorem anyShows_sharded (scalar : Printer) (names : NameSource) :
    Layout.AnyShows ((names.fresh "shards").1 ++ " = ") (sharded scalar c s names).1 :=
  .inl (((occurs_assignment _ "[" (by decide)).before _).before _)

theorem anyShows_broadcast (p : Printers) (hn : n ∈ (broadcast p c s {}).2.given) :
    Layout.AnyShows (n ++ " = ") (broadcast p c s {}).1 := by
  unfold broadcast at hn ⊢
  split at hn
  next => cases hn
  next g gs _ =>
    rcases mem_masks p g.var hn with hnone | hrow
    · cases hnone
    · exact .inr (.inl hrow)

/-- Each of the names is given its value in the body. -/
theorem anyShows_body (hn : n ∈ helperNames c s) :
    Layout.AnyShows (n ++ " = ") (body c s (decision c s)).1 := by
  have hgiven : n ∈ (body c s (decision c s)).2.given := List.mem_reverse.mp hn
  unfold body bodyBy at hgiven ⊢
  split at hgiven
  next => exact anyShows_broadcast _ hgiven
  next => cases hgiven
  next => exact List.mem_singleton.mp hgiven ▸ anyShows_partials _ _ {}
  next => exact List.mem_singleton.mp hgiven ▸ anyShows_sharded _ {}

theorem occurs_helperName (hn : n ∈ helperNames c s) :
    Occurs (n ++ " = ") (Layout.render Layout.fourBlanks (layout c s)) := by
  have hfunction : Layout.AnyShows (n ++ " = ")
      [.block ("function " ++ s.funcName ++ "()::" ++ returnType c s) "end"
        (body c s (decision c s)).1] :=
    .inl (.inr (anyShows_body hn))
  have hlines := hfunction.relined (isUnbroken_helperName hn) Layout.fourBlanks
  refine Layout.AnyShows.occurs ?_ Layout.fourBlanks
  rw [layout, Layout.anyShows_append]
  exact .inr (.inr (.inl hlines))

/-- Each name that is made up for a function is given its value in the text. One of them is in use
if and only if the comprehension uses the name of the parts, of the shards or of a mask, depending
on the decision. -/
theorem helperName_used_iff {o : Options} {text : String} (h : render c o = .ok text) :
    ∃ s, Settings.ofOptions c o = .ok s ∧
      (∀ n ∈ helperNames c s, Occurs (n ++ " = ") text) ∧
      ((∃ n ∈ helperNames c s, c.uses n = true) ↔
        SomeName c (decision c s) fun n => c.uses n = true) := by
  unfold render at h
  cases hsettings : Settings.ofOptions c o with
  | error e => simp [hsettings, bind, Except.bind] at h
  | ok s =>
    obtain rfl : Layout.render Layout.fourBlanks (layout c s) = text := by
      simpa [hsettings, bind, Except.bind, pure, Except.pure] using h
    exact ⟨s, rfl, fun n => occurs_helperName, exists_mem_helperNames⟩

/-- The even numbers from four on, below ten. -/
def evenBelowTen : Comprehension :=
  .ofElement .list "x" [⟨"x", .range ⟨0, 10, 1⟩, ["x % 2 == 0", "x > 3"]⟩]

def wholeArrays : Settings :=
  ⟨.int, .int, .int, .broadcast, false, "program", true, false⟩

theorem helperName_used_iff_masks :
    Settings.ofOptions evenBelowTen (Table.empty.insert "mode" (.str "broadcast")) =
        .ok wholeArrays ∧
      ∃ text, render evenBelowTen (Table.empty.insert "mode" (.str "broadcast")) = .ok text ∧
        "mask2" ∈ helperNames evenBelowTen wholeArrays ∧ Occurs "mask2 = " text ∧
        ¬∃ n ∈ helperNames evenBelowTen wholeArrays, evenBelowTen.uses n = true := by
  have hsettings : Settings.ofOptions evenBelowTen (Table.empty.insert "mode" (.str "broadcast")) =
      .ok wholeArrays := by cbv
  have hrender : render evenBelowTen (Table.empty.insert "mode" (.str "broadcast")) =
      .ok (Layout.render Layout.fourBlanks (layout evenBelowTen wholeArrays)) := by
    rw [render, hsettings]
    rfl
  obtain ⟨s, hs, hoccurs, hused⟩ := helperName_used_iff hrender
  obtain rfl := Except.ok.inj (hsettings.symm.trans hs)
  have hmode : (decision evenBelowTen wholeArrays).mode = .broadcast := by cbv
  have hmask : "mask2" ∈ helperNames evenBelowTen wholeArrays := by
    rw [mem_helperNames, SomeName, hmode]
    exact ⟨2, by decide, by decide, by decide⟩
  refine ⟨hsettings, _, hrender, hmask, hoccurs "mask2" hmask, ?_⟩
  rw [hused, SomeName, hmode]
  rintro ⟨k, hpos, hk, huses⟩
  obtain rfl | rfl : k = 1 ∨ k = 2 := by
    have hfilters : k ≤ 2 := hk
    omega
  · have hunused : evenBelowTen.uses ("mask" ++ toString 1) = false := by cbv
    cases hunused.symm.trans huses
  · have hunused : evenBelowTen.uses ("mask" ++ toString 2) = false := by cbv
    cases hunused.symm.trans huses

/-! Names in use -/

/-- The sum of the numbers below ten, under the name that is made up for the parts. -/
def sumOfParts : Comprehension :=
  .ofReducer .sum "parts1" [⟨"parts1", .range ⟨0, 10, 1⟩, []⟩]

def inParallel : Settings :=
  ⟨.int, .int, .int, .auto, false, "program", true, true⟩

theorem decision_sumOfParts :
    (decision sumOfParts inParallel).mode = .loops ∧
      (decision sumOfParts inParallel).flavor = .partials ⟨.sum, .int⟩ := by
  have hfree : hasDependencies sumOfParts = false := by cbv
  have hflavor : (Strategy.decide sumOfParts (request sumOfParts inParallel)).flavor =
      .partials ⟨.sum, .int⟩ :=
    (decide_flavor_eq_iff (by simp)).mpr ⟨rfl, by rw [hfree]; rfl⟩
  have hmode : (Strategy.decide sumOfParts (request sumOfParts inParallel)).mode = .loops := by
    rw [decide_mode, hflavor, if_neg (by simp)]
  unfold decision
  dsimp only
  rw [hmode, if_neg (by simp)]
  exact ⟨hmode, hflavor⟩

/-- A loop over the variable that holds the parts. -/
theorem helperName_used_parts :
    Comprehension.parse "sum(parts1 for parts1 in range(10))" =
        .ok { sumOfParts with provenance := Comprehension.origin "call_sum" } ∧
      sumOfParts.flaw? = none ∧
      Settings.ofOptions sumOfParts (Table.empty.insert "parallel" (.bool true)) =
        .ok inParallel ∧
      "parts1" ∈ helperNames sumOfParts inParallel ∧ sumOfParts.uses "parts1" = true := by
  refine ⟨by cbv, rfl, by cbv, ?_, by cbv⟩
  rw [mem_helperNames, SomeName, decision_sumOfParts.1, decision_sumOfParts.2]

end Target.Julia

end Comprehend
