import Mathlib.Tactic.ByContra
import Comprehend.Proofs.PackageUse
import Comprehend.Proofs.Validity
import Comprehend.Target.Go

/-! Imports of a Go program. Every text that brings in a package is written into the function, so
that no import is without use. -/
namespace Comprehend

open Text Token

/-- A name brings in no package, be it a keyword or not. -/
theorem Packages.ofText_of_isIdentifier {s : String} (h : isIdentifier s = true) (d : Dialect) :
    ofText d s = {} := by
  by_cases hword : TokenKind.ofWord s = .ident s
  · have hprints : Expr.Prints 14 s.toList (.name s) :=
      ⟨_, (word_name (isName_of_isIdentifier h hword)).spells, .name s⟩
    have hparse : Expr.parse? s = some (.name s) := by
      rw [Expr.parse?, hprints.parse_eq (by decide)]
      rfl
    rw [ofText, hparse]
    rfl
  · unfold TokenKind.ofWord at hword
    split at hword
    case h_13 => exact absurd rfl hword
    all_goals cbv

namespace Target.Go

variable {c : Comprehension} {s : Settings} {p : Printer} {word : String}

/-! What the function shows -/

theorem occurs_header {g : Generator} {t : String} (hsource : g.source = .text t)
    (h : Occurs word (p.printText t)) : Occurs word (header p c g) := by
  rw [header, hsource]
  exact (h.behind _).before _

theorem anyShows_skips {g : Generator} {f : String} (hf : f ∈ g.filters)
    (h : Occurs word (p.printText f)) : Layout.AnyShows word (skips p g) := by
  refine Layout.anyShows_iff.mpr ⟨_, List.mem_map_of_mem hf, .inl ?_⟩
  exact (h.behind _).before _

theorem occurs_combine {value : String} (h : Occurs word value) (k : Reducer) :
    Occurs word (combine value k) := by
  cases k with
  | max => exact (h.behind _).before _
  | min => exact (h.behind _).before _
  | _ => exact h.behind _

/-- Apart from dictionaries the element is part of the leaf. -/
theorem shows_leaf_element (hshape : c.shape ≠ .dict) (h : Occurs word (p.printText c.elementText))
    (leave : String → List String) : (leaf p c leave).Shows word := by
  unfold leaf
  split
  next => exact .inl ((h.behind _).before _)
  next => exact .inl ((h.behind _).before _)
  next => exact occurs_combine h _
  next =>
    split
    next hdict => exact absurd hdict hshape
    next => exact (h.behind _).before _
    next => exact (h.behind _).before _
    next => exact (h.behind _).before _

theorem shows_leaf_pair (hreducer : c.reducer? = none) (hshape : c.shape = .dict)
    (h : Occurs word (p.printText c.keyText) ∨ Occurs word (p.printText c.valueText))
    (leave : String → List String) : (leaf p c leave).Shows word := by
  unfold leaf
  rw [hreducer, hshape]
  simp only [Layout.Shows]
  grind

/-- What stands in the loops, in the leaf or at the start stands in the function. -/
theorem anyShows_sequential
    (h : (∃ g ∈ c.generators, Occurs word (header p c g) ∨ Layout.AnyShows word (skips p g)) ∨
      (∀ leave, (leaf p c leave).Shows word) ∨ ∃ row ∈ start c s, Occurs word row) :
    Layout.AnyShows word (sequential p c s) := by
  rw [sequential, Layout.anyShows_append, Layout.AnyShows, Layout.Shows, Layout.anyShows_nest]
  rcases h with ⟨g, hg, h⟩ | h | h
  · exact .inl (.inr (.inl ⟨loop p c g, List.mem_map_of_mem hg, h⟩))
  · exact .inl (.inr (.inr (.inl (h _))))
  · exact .inl (.inl h)

theorem anyShows_parallel
    (h : Occurs word (count p c) ∨
      (∃ l ∈ chunkLoops p c, Occurs word l.header ∨ Layout.AnyShows word l.opening) ∨
      (∀ leave, (leaf p c leave).Shows word) ∨ ∃ row ∈ start c s, Occurs word row) :
    Layout.AnyShows word (parallel p c s) := by
  unfold parallel
  rw [Layout.anyShows_append]
  left
  rcases h with h | h
  · exact .inl (h.behind _)
  · refine .inr (.inr (.inr (.inr (.inr (.inl (.inr (.inr (.inl (.inr ?_)))))))))
    rw [Layout.anyShows_append, Layout.AnyShows, Layout.AnyShows, Layout.Shows,
      Layout.anyShows_nest]
    rcases h with h | h | h
    · exact .inl (.inr (.inr (.inl h)))
    · exact .inl (.inr (.inr (.inr (.inl (h _)))))
    · exact .inl (.inr (.inl h))

/-- The loops of a worker skip what the filters refuse; the first one counts positions. -/
theorem exists_chunkLoop {g : Generator} (hg : g ∈ c.generators) :
    (∃ gs, c.generators = g :: gs ∧ chunkLoop p c g ∈ chunkLoops p c) ∨
      loop p c g ∈ chunkLoops p c := by
  unfold chunkLoops
  split
  next hnone => rw [hnone] at hg; cases hg
  next first gs hgenerators =>
    rw [hgenerators] at hg
    rcases List.mem_cons.mp hg with rfl | hg
    · exact .inl ⟨gs, hgenerators, List.mem_cons_self⟩
    · exact .inr (List.mem_cons_of_mem _ (List.mem_map_of_mem hg))

theorem shows_function (h : Layout.AnyShows word (if s.parallel then parallel (printerFor .go c) c s
    else sequential (printerFor .go c) c s)) : (function c s).Shows word :=
  .inr h

theorem shows_source {g : Generator} {t : String} (hg : g ∈ c.generators)
    (hsource : g.source = .text t) (h : Occurs word ((printerFor .go c).printText t)) :
    (function c s).Shows word := by
  refine shows_function ?_
  split
  · rcases exists_chunkLoop hg with ⟨gs, hgenerators, -⟩ | hloop
    · have hcount : Occurs word (count (printerFor .go c) c) := by
        rw [count, hgenerators]
        dsimp only
        rw [hsource]
        exact (h.behind _).before _
      exact anyShows_parallel (.inl hcount)
    · exact anyShows_parallel (.inr (.inl ⟨_, hloop, .inl (occurs_header hsource h)⟩))
  · exact anyShows_sequential (.inl ⟨g, hg, .inl (occurs_header hsource h)⟩)

theorem shows_filter {g : Generator} {f : String} (hg : g ∈ c.generators) (hf : f ∈ g.filters)
    (h : Occurs word ((printerFor .go c).printText f)) : (function c s).Shows word := by
  have hskips := anyShows_skips hf h
  refine shows_function ?_
  split
  · rcases exists_chunkLoop hg with ⟨-, -, hloop⟩ | hloop
    · refine anyShows_parallel (.inr (.inl ⟨_, hloop, .inr ?_⟩))
      exact (Layout.anyShows_append _ _).mpr (.inr hskips)
    · exact anyShows_parallel (.inr (.inl ⟨_, hloop, .inr hskips⟩))
  · exact anyShows_sequential (.inl ⟨g, hg, .inr hskips⟩)

theorem shows_leaf (h : ∀ leave, (leaf (printerFor .go c) c leave).Shows word) :
    (function c s).Shows word := by
  refine shows_function ?_
  split
  · exact anyShows_parallel (.inr (.inr (.inl h)))
  · exact anyShows_sequential (.inr (.inl h))

theorem shows_start {row : String} (hrow : row ∈ start c s) (h : Occurs word row) :
    (function c s).Shows word := by
  refine shows_function ?_
  split
  · exact anyShows_parallel (.inr (.inr (.inr ⟨row, hrow, h⟩)))
  · exact anyShows_sequential (.inr (.inr ⟨row, hrow, h⟩))

/-! What is imported -/

/-- The first variable of a flawless comprehension is a name, and a dictionary has neither an
element nor a reduction. -/
theorem parts_of_flaw? (h : c.flaw? = none) :
    (∃ g gs, c.generators = g :: gs ∧ isIdentifier g.var = true) ∧
      (c.shape = .dict → c.element = none ∧ c.reduction = none) := by
  unfold Comprehension.flaw? at h
  split at h
  next => cases h
  next hgenerators =>
    obtain ⟨hparts, hloops⟩ := Option.or_eq_none_iff.mp h
    constructor
    · cases hgs : c.generators with
      | nil => simp [hgs] at hgenerators
      | cons g gs =>
        refine ⟨g, gs, rfl, ?_⟩
        rw [hgs, Comprehension.loopsFlaw?] at hloops
        by_contra hvar
        rw [if_pos (by simpa using hvar)] at hloops
        cases hloops
    · intro hdict
      unfold Comprehension.partsFlaw? at hparts
      rw [if_pos hdict] at hparts
      split at hparts
      · cases hparts
      split at hparts
      · cases hparts
      split at hparts
      · cases hparts
      next helement hreduction => exact ⟨by simpa using helement, by simpa using hreduction⟩

theorem mem_texts {t : String} :
    t ∈ texts c ↔ (∃ g ∈ c.generators, g.source = .text t ∨ t ∈ g.filters) ∨ t = c.elementText ∨
      (c.shape = .dict ∧ c.reduction = none) ∧ (t = c.keyText ∨ t = c.valueText) := by
  unfold texts
  rw [List.mem_append, List.mem_flatMap, List.mem_cons]
  refine or_congr (exists_congr fun g => and_congr_right fun _ => ?_) (or_congr_right ?_)
  · rw [List.mem_append]
    cases g.source <;> simp [eq_comm]
  · by_cases hdict : c.shape = .dict ∧ c.reduction = none
    · simp [hdict]
    · have hpair : ¬(c.shape = .dict && c.reduction.isNone) = true := by
        rwa [Bool.and_eq_true, decide_eq_true_eq, Option.isNone_iff_eq_none]
      simp only [if_neg hpair, hdict, List.not_mem_nil, false_and]

/-- The packages of the texts that the function is made of are shown. -/
theorem shows_package {pkg t : String} (hc : c.flaw? = none) (ht : t ∈ texts c)
    (h : pkg ∈ (Packages.ofText .go t).names) : (function c s).Shows (pkg ++ ".") := by
  have hoccurs : Occurs (pkg ++ ".") ((printerFor .go c).printText t) :=
    Printer.occurs_packageOfText rfl h
  obtain ⟨⟨first, gs, hfirst, hvar⟩, hdict⟩ := parts_of_flaw? hc
  rcases mem_texts.mp ht with ⟨g, hg, hsource | hfilter⟩ | rfl | ⟨⟨hshape, hreduction⟩, hpair⟩
  · exact shows_source hg hsource hoccurs
  · exact shows_filter hg hfilter hoccurs
  · by_cases hshape : c.shape = .dict
    · -- the leaf of a dictionary does without the element, which is a name
      have hname : c.elementText = first.var := by
        simp [Comprehension.elementText, (hdict hshape).1, hfirst]
      rw [hname, Packages.ofText_of_isIdentifier hvar] at h
      cases h
    · exact shows_leaf fun leave => shows_leaf_element hshape hoccurs leave
  · have hreducer : c.reducer? = none := by simp [Comprehension.reducer?, hreduction]
    refine shows_leaf fun leave => shows_leaf_pair hreducer hshape ?_ leave
    rcases hpair with rfl | rfl
    exacts [.inl hoccurs, .inr hoccurs]

/-- The bound from which a greatest or a least value is sought comes from a package. -/
theorem shows_bound (h : c.reducer? = some .max ∨ c.reducer? = some .min) :
    (function c s).Shows "math." := by
  obtain ⟨k, hreducer, hk⟩ : ∃ k, c.reducer? = some k ∧ (k = .max ∨ k = .min) :=
    h.elim (fun hmax => ⟨.max, hmax, .inl rfl⟩) fun hmin => ⟨.min, hmin, .inr rfl⟩
  have hrow : start c s = ["acc := " ++ neutral s.element k] := by
    rcases hk with rfl | rfl <;> rw [start, hreducer]
  have hbound : Occurs "math." (neutral s.element k) := by
    rcases hk with rfl | rfl <;> rw [neutral] <;> split <;> decide
  exact shows_start (hrow ▸ List.mem_singleton_self _) (hbound.behind _)

theorem mem_imports {pkg : String} (h : pkg ∈ imports c s) :
    (∃ t ∈ texts c, pkg ∈ (Packages.ofText .go t).names) ∨
      pkg = "math" ∧ (c.reducer? = some .max ∨ c.reducer? = some .min) ∨
      (pkg = "runtime" ∨ pkg = "sync") ∧ s.parallel = true := by
  have hused {f : Packages → Bool} (hf : Packages.Sums f) :
      f (((texts c).map (Packages.ofText .go)).foldl Packages.union {}) = true ↔
        ∃ t ∈ texts c, f (Packages.ofText .go t) = true := by
    simp [hf.foldl, hf.none]
  simp only [imports, List.mem_append, List.mem_ite_nil_right, List.mem_singleton, Bool.or_eq_true,
    decide_eq_true_eq, hused Packages.sums_math, hused Packages.sums_slices] at h
  rcases h with ((⟨⟨t, ht, hmath⟩ | hbound, rfl⟩ | ⟨hparallel, rfl⟩) | ⟨⟨t, ht, hslices⟩, rfl⟩) |
    ⟨hparallel, rfl⟩
  · exact .inl ⟨t, ht, Packages.mem_names.mpr (.inl ⟨hmath, rfl⟩)⟩
  · exact .inr (.inl ⟨rfl, hbound⟩)
  · exact .inr (.inr ⟨.inl rfl, hparallel⟩)
  · exact .inl ⟨t, ht, Packages.mem_names.mpr (.inr ⟨hslices, rfl⟩)⟩
  · exact .inr (.inr ⟨.inr rfl, hparallel⟩)

theorem shows_import {pkg : String} (hc : c.flaw? = none) (h : pkg ∈ imports c s) :
    (function c s).Shows (pkg ++ ".") := by
  rcases mem_imports h with ⟨t, ht, hpkg⟩ | ⟨rfl, hbound⟩ | ⟨hpkg, hparallel⟩
  · exact shows_package hc ht hpkg
  · exact shows_bound hbound
  · refine shows_function ?_
    have hruntime : Occurs "runtime." "workers := runtime.NumCPU()" := by decide
    have hsync : Occurs "sync." "var wg sync.WaitGroup" := by decide
    rw [if_pos hparallel, parallel, Layout.anyShows_append]
    rcases hpkg with rfl | rfl
    · exact .inl (.inr (.inl hruntime))
    · exact .inl (.inr (.inr (.inr (.inr (.inl hsync)))))

/-! The text -/

/-- The lines that import packages: none, one, or a block of them. -/
def importRows : List String → List String
  | [] => []
  | [name] => ["import \"" ++ name ++ "\"", ""]
  | names => "import (" :: names.map (fun name => "\t\"" ++ name ++ "\"") ++ [")", ""]

def functionText (c : Comprehension) (s : Settings) : String :=
  unlines (lines (Layout.render Layout.tab [function c s]))

theorem write_importBlock {ss : List String} (hss : ∀ t ∈ ss, t ≠ "") (written : List String) :
    Sheet.write Layout.tab (.block "import (" ")" [.lines ss]) ⟨0, written⟩ =
      ⟨0, ")" :: ((ss.map ("\t" ++ ·)).reverse ++ "import (" :: written)⟩ := by
  have hopen : (Sheet.writeLine Layout.tab "import (" ⟨0, written⟩).deeper =
      ⟨1, "import (" :: written⟩ := rfl
  have hclose (rows : List String) :
      Sheet.writeFooter Layout.tab ")" (Sheet.shallower ⟨1, rows⟩) = ⟨0, ")" :: rows⟩ := rfl
  have hrows : ss.map (Sheet.row Layout.tab 1) = ss.map ("\t" ++ ·) :=
    List.map_congr_left fun t ht => Sheet.row_of_ne (hss t ht) Layout.tab 1
  rw [Sheet.write, hopen, Sheet.writeAll, Sheet.write, Sheet.writeLines_eq, Sheet.writeAll, hclose,
    hrows]

theorem writeAll_importLines (names : List String) :
    Sheet.writeAll Layout.tab (importLines names) ⟨0, ["", "package main"]⟩ =
      ⟨0, (importRows names).reverse ++ ["", "package main"]⟩ := by
  rcases names with _ | ⟨name, _ | ⟨name', names⟩⟩
  · rfl
  · have hline : "import " ++ ("\"" ++ name ++ "\"") = "import \"" ++ name ++ "\"" := by
      rw [← String.append_assoc, ← String.append_assoc]
      rfl
    simp [importLines, importRows, Sheet.writeAll, Sheet.write, Sheet.writeLine, Sheet.writeBlank,
      Sheet.margin, hline]
  · have hquoted : ∀ t ∈ (name :: name' :: names).map fun name => "\"" ++ name ++ "\"", t ≠ "" := by
      simp
    have htab (t : String) : "\t" ++ ("\"" ++ t ++ "\"") = "\t\"" ++ t ++ "\"" := by
      rw [← String.append_assoc, ← String.append_assoc]
      rfl
    have hlines : importLines (name :: name' :: names) = [.block "import (" ")"
        [.lines ((name :: name' :: names).map fun name => "\"" ++ name ++ "\"")], .blank] := rfl
    have hrows : importRows (name :: name' :: names) = "import (" ::
        (name :: name' :: names).map (fun name => "\t\"" ++ name ++ "\"") ++ [")", ""] := rfl
    rw [hlines, hrows, Sheet.writeAll, write_importBlock hquoted]
    simp [Sheet.writeAll, Sheet.write, Sheet.writeBlank, Function.comp_def, htab]

theorem render_layout (c : Comprehension) (s : Settings) :
    Layout.render Layout.tab (layout c s) =
      "package main\n\n" ++ unlines (importRows (imports c s)) ++ functionText c s := by
  have hhead : Sheet.writeAll Layout.tab [.line "package main", .blank] {} =
      ⟨0, ["", "package main"]⟩ := rfl
  have hsheet : Sheet.writeAll Layout.tab (layout c s) {} =
      ⟨0, (lines (Layout.render Layout.tab [function c s])).reverse ++
        ((importRows (imports c s)).reverse ++ ["", "package main"])⟩ := by
    rw [layout, Sheet.writeAll_append, Sheet.writeAll_append, hhead, writeAll_importLines,
      Sheet.writeAll, Sheet.write, Sheet.writeLines_eq]
    simp [Sheet.writeAll]
  have hpackage : unlines ["package main", ""] = "package main\n\n" := by decide
  rw [Layout.render, Sheet.finish_eq (by simp [hsheet]), hsheet, List.reverse_append,
    List.reverse_append, List.reverse_reverse, List.reverse_reverse, unlines_append, unlines_append]
  simp [functionText, ← hpackage]

theorem isUnbroken_import {pkg : String} (h : pkg ∈ imports c s) : IsUnbroken (pkg ++ ".") := by
  rcases mem_imports h with ⟨t, -, hpkg⟩ | ⟨rfl, -⟩ | ⟨rfl | rfl, -⟩
  · rcases Packages.mem_names.mp hpkg with ⟨-, rfl⟩ | ⟨-, rfl⟩ <;> decide
  · decide
  · decide
  · decide

theorem occurs_import {pkg : String} (hc : c.flaw? = none) (h : pkg ∈ imports c s) :
    Occurs (pkg ++ ".") (functionText c s) := by
  have hshows : Layout.AnyShows (pkg ++ ".") [function c s] := .inl (shows_import hc h)
  obtain ⟨line, hline, hoccurs⟩ := hshows.relined (isUnbroken_import h) Layout.tab
  exact hoccurs.trans (occurs_unlines hline)

/-- An expression brings in a package for powers and absolute values and one for tests of
membership, and no other; and each of them stands in its text with a dot behind it. So does every
package that a program imports in the text of its function. -/
theorem imports_used :
    (∀ (p : Printer) (e : Expr), p.dialect = .go →
      (Packages.ofExpr p.dialect e).names =
          (if e.anyNode Expr.isMath then ["math"] else []) ++
            (if e.anyNode Expr.isMembership then ["slices"] else []) ∧
        ∀ pkg ∈ (Packages.ofExpr p.dialect e).names, Occurs (pkg ++ ".") (p.print e)) ∧
    ∀ (c : Comprehension) (o : Options) (text : String), c.flaw? = none → go.render c o = .ok text →
      ∃ s, Settings.ofOptions o = .ok s ∧
        text = "package main\n\n" ++ unlines (importRows (imports c s)) ++ functionText c s ∧
        ∀ pkg ∈ imports c s, Occurs (pkg ++ ".") (functionText c s) := by
  constructor
  · intro p e hp
    rw [hp]
    refine ⟨?_, fun pkg hpkg => Printer.occurs_package hp e hpkg⟩
    rw [Packages.ofExpr_go]
    rfl
  · intro c o text hc h
    cases hsettings : Settings.ofOptions o with
    | error e => simp [go, render, hsettings, bind, Except.bind, Except.mapError] at h
    | ok s =>
      obtain rfl : Layout.render Layout.tab (layout c s) = text := by
        simpa [go, render, hsettings, bind, Except.bind, pure, Except.pure, Except.mapError] using h
      exact ⟨s, rfl, render_layout c s, fun pkg => occurs_import hc⟩

/-- A test of `y` against a list with one item, the absolute value of `x`. -/
def listedMagnitude : Expr :=
  .compare (.name "y") .isIn (.list [.call (.name "abs") [.name "x"]])

def greatestSquare : Comprehension :=
  .ofReducer .max "x ** 2" [⟨"x", .text "xs", ["x in ys"]⟩]

def inParallel : Settings :=
  ⟨.int, .int, .int, "program", true⟩

theorem imports_used_greatestSquare :
    ((Packages.ofExpr .go listedMagnitude).names = ["math", "slices"] ∧
      Occurs "math." (Printer.print { dialect := .go } listedMagnitude)) ∧
    greatestSquare.flaw? = none ∧
    imports greatestSquare inParallel = ["math", "runtime", "slices", "sync"] ∧
    ∃ text, go.render greatestSquare (Table.empty.insert "parallel" (.bool true)) = .ok text ∧
      text = "package main\n\n" ++ unlines (importRows (imports greatestSquare inParallel)) ++
        functionText greatestSquare inParallel ∧
      Occurs "slices." (functionText greatestSquare inParallel) := by
  have hflaw : greatestSquare.flaw? = none := rfl
  have hsettings : Settings.ofOptions (Table.empty.insert "parallel" (.bool true)) =
      .ok inParallel := by cbv
  have himports : imports greatestSquare inParallel = ["math", "runtime", "slices", "sync"] := by
    cbv
  have hrender : go.render greatestSquare (Table.empty.insert "parallel" (.bool true)) =
      .ok (Layout.render Layout.tab (layout greatestSquare inParallel)) := by
    simp only [go, render, hsettings]
    rfl
  obtain ⟨hnames, hprinted⟩ := imports_used.1 { dialect := .go } listedMagnitude rfl
  obtain ⟨s, hs, htext, hused⟩ := imports_used.2 greatestSquare _ _ hflaw hrender
  obtain rfl := Except.ok.inj (hsettings.symm.trans hs)
  refine ⟨⟨hnames.trans rfl, hprinted "math" ?_⟩, hflaw, himports, _, hrender, htext,
    hused "slices" ?_⟩
  · rw [hnames]
    decide
  · rw [himports]
    decide

end Target.Go

end Comprehend
