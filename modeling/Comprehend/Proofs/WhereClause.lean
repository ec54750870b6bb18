import Mathlib
import Comprehend.Comprehension.Parser
import Comprehend.Proofs.ConditionText
import Comprehend.Target.Sql

/-! The condition of a query, read from its lines. Each filter is a condition of its own, and so is
the test of a query for existence. Together they are meant to be a conjunction, and they are one
unless a single filter is a disjunction. -/
namespace Comprehend

/-! Lines -/

namespace Layout

mutual

/-- The lines of a layout without their margins. -/
def texts : Layout → List String
  | .line s => [s]
  | .lines ss => ss
  | .blank => []
  | .block header footer body =>
    header :: allTexts body ++ if footer.isEmpty then [] else [footer]
  | .indented body => allTexts body

def allTexts : List Layout → List String
  | [] => []
  | l :: ls => texts l ++ allTexts ls

end

theorem allTexts_append (ls ms : List Layout) :
    allTexts (ls ++ ms) = allTexts ls ++ allTexts ms := by
  induction ls with
  | nil => rfl
  | cons l ls ih => rw [List.cons_append, allTexts, ih, allTexts, List.append_assoc]

end Layout

namespace Target.Sql

open Sign

/-- The lines of a statement without the semicolon that ends it. -/
def unterminated : List String → List String
  | [] => []
  | [s] => [if s.toList.getLast? = some ';' then String.ofList s.toList.dropLast else s]
  | s :: t :: rest => s :: unterminated (t :: rest)

def isCondition (s : String) : Bool :=
  "WHERE ".toList.isPrefixOf s.toList || "  AND ".toList.isPrefixOf s.toList

def conditionSigns (ls : List Layout) : List Sign :=
  ((unterminated (Layout.allTexts ls)).filter isCondition).flatMap signs

/-- The truth of the condition for a row in which comparisons have the truth `v`. A query without a
condition takes every row. -/
def conditionTruth (v : Comparison → Truth) (ls : List Layout) : Truth :=
  match conditionSigns ls with
  | [] => some true
  | s :: ts => if s = word "WHERE".toList then truth (reading v) ts else none

/-! Tests -/

def isTest : Expr → Bool
  | .boolOp _ l r => isTest l && isTest r
  | .unary .not e => isTest e
  | .compare .. => true
  | _ => false

/-- The truth of a combination, from that of its comparisons: each is known by its operator and the
signs of its operands. -/
def testTruth (p : Printer) (v : Comparison → Truth) : Expr → Truth
  | .boolOp .and l r => Truth.and (testTruth p v l) (testTruth p v r)
  | .boolOp .or l r => Truth.or (testTruth p v l) (testTruth p v r)
  | .unary .not e => Truth.not (testTruth p v e)
  | .compare l op r => v ⟨bare (signs (p.print l)), op, bare (signs (p.print r))⟩
  | _ => none

/-- The names in the expression are names, and every node keeps its parts together. -/
structure Clear (e : Expr) : Prop where
  words : ∀ n ∈ e.words, Token.isName n = true
  legible : isLegible e = true

section Tests

variable {p : Printer} {v : List Sign → Truth}

theorem Clear.operand {d e : Expr} (h : Clear e) (hd : d ∈ e.operands) : Clear d :=
  ⟨fun n hn => h.words n (Expr.words_of_operand hd hn), (isLegible_iff.mp h.legible).2 d hd⟩

theorem Clear.print {e : Expr} (h : Clear e) (hd : p.dialect.isSql = true) :
    Legible ⟨e, p.print e⟩ :=
  legible_print hd e h.words h.legible

theorem truth_signs_round {s : String} (h : Inner s) :
    truth v (signs (round s)) = truth v (signs s) := by
  rw [signs_round h, truth_round h.binds]

theorem truth_signs_not {s : String} (h : Stands 4 0 s) :
    truth v (signs ("NOT " ++ s)) = Truth.not (truth v (signs s)) := by
  rw [leads_not.signs_cons (a := word "NOT".toList) (by decide), truth_not (by decide) h.binds]

/-- Brackets around an operand leave its truth as it is. -/
theorem Legible.truth_within {o : Operand} (h : Legible o) (d : Dialect) (n : Nat) :
    truth v (signs (o.within d n)) = truth v (signs o.text) := by
  unfold Operand.within
  split
  · exact truth_signs_round h.alone
  · rfl

theorem signs_boolOp (hd : p.dialect.isSql = true) {x y : Operand} (op : BoolOp) (hx : Legible x) :
    signs (p.boolOp op x y) = signs (x.within p.dialect (Printer.boolPrecedence op)) ++
      word (match op with | .and => "AND" | .or => "OR").toList ::
        signs (y.within p.dialect (Printer.boolPrecedence op + 1)) := by
  have hword : signs (Printer.boolSymbol p.dialect op) =
      [word (match op with | .and => "AND" | .or => "OR").toList] := by
    cases op <;> rw [Printer.boolSymbol, if_pos hd] <;> decide
  have hrange : Printer.boolPrecedence op ≤ 14 := by cases op <;> decide
  rw [boolOp_eq hd, signs_joined (hx.within _ hrange) (stands_boolSymbol hd op), hword,
    List.append_assoc, List.singleton_append]

theorem signs_disjunction (hd : p.dialect.isSql = true) {x y : Operand} (hx : Legible x) :
    signs (p.boolOp .or x y) = signs (x.within p.dialect 2) ++
      word "OR".toList :: signs (y.within p.dialect 3) :=
  signs_boolOp hd .or hx

theorem truth_disjunction (hd : p.dialect.isSql = true) {x y : Operand} (hx : Legible x)
    (hy : Legible y) : truth v (signs (p.boolOp .or x y)) =
      Truth.or (truth v (signs x.text)) (truth v (signs y.text)) := by
  have hleft : Binds 1 (signs (x.within p.dialect 2)) :=
    (hx.within p.dialect (by decide)).binds.mono (by decide)
  rw [signs_disjunction hd hx, truth_or (by decide) hleft, hx.truth_within, hy.truth_within]

theorem truth_conjunction (hd : p.dialect.isSql = true) {x y : Operand} (hx : Legible x)
    (hy : Legible y) : truth v (signs (p.boolOp .and x y)) =
      Truth.and (truth v (signs x.text)) (truth v (signs y.text)) := by
  have hleft : Binds 3 (signs (x.within p.dialect 3)) := (hx.within p.dialect (by decide)).binds
  have hright : Binds 3 (signs (y.within p.dialect 4)) :=
    (hy.within p.dialect (by decide)).binds.mono (by decide)
  have hsigns : signs (p.boolOp .and x y) = signs (x.within p.dialect 3) ++
      word "AND".toList :: signs (y.within p.dialect 4) := signs_boolOp hd .and hx
  rw [hsigns, truth_and (by decide) hleft hright, hx.truth_within, hy.truth_within]

theorem truth_negation (hd : p.dialect.isSql = true) {x : Operand} (hx : Legible x) :
    truth v (signs (p.unary .not x)) = Truth.not (truth v (signs x.text)) := by
  have hoperand : Stands 4 0 (x.within p.dialect 14) :=
    (hx.within p.dialect (Nat.le_refl 14)).mono (by decide)
  have hprint : p.unary .not x = "NOT " ++ x.within p.dialect 14 := by
    simp [Printer.unary, Printer.signMark, hd]
  rw [hprint, truth_signs_not hoperand, hx.truth_within]

theorem truth_compare (hd : p.dialect.isSql = true) {x : Operand} {op : CmpOp} {r : Expr}
    (row : Comparison → Truth) (hx : Legible x) (hr : Legible ⟨r, p.print r⟩)
    (hin : op = .isIn ∨ op = .notIn → 6 ≤ level r) :
    truth (reading row) (signs (p.compare x op ⟨r, p.print r⟩ (p.parts r))) =
      row ⟨bare (signs x.text), op, bare (signs (p.print r))⟩ := by
  have hall := (stands_compare hd hx hr hin).binds
  obtain ⟨w, t, heq, hw, hsigns, ht, hbare⟩ := exists_compare_eq (x := x) hd hr hin
  have hleft : Stands 6 0 (x.within p.dialect 6) := hx.within p.dialect (by decide)
  have hread := read?_relationSigns hleft.binds ht.binds op
  rw [hx.bare_within, hbare, ← hsigns] at hread
  rw [heq, signs_joined (hleft.mono (by decide)) hw, List.append_assoc] at hall ⊢
  rw [truth_comparison hall hleft.binds hleft.full (List.append_ne_nil_of_left_ne_nil hw.full _),
    ← List.append_assoc, reading, hread]

/-- A combination of comparisons has the truth that a reader of its text finds. -/
theorem truth_print (hd : p.dialect.isSql = true) {row : Comparison → Truth} :
    ∀ {e : Expr}, isTest e = true → Clear e →
      truth (reading row) (signs (p.print e)) = testTruth p row e
  | .boolOp .or l r, ht, hclear => by
    rw [isTest, Bool.and_eq_true] at ht
    have hl := hclear.operand (d := l) (by simp [Expr.operands])
    have hr := hclear.operand (d := r) (by simp [Expr.operands])
    rw [Printer.print, truth_disjunction hd (hl.print hd) (hr.print hd), truth_print hd ht.1 hl,
      truth_print hd ht.2 hr, testTruth]
  | .boolOp .and l r, ht, hclear => by
    rw [isTest, Bool.and_eq_true] at ht
    have hl := hclear.operand (d := l) (by simp [Expr.operands])
    have hr := hclear.operand (d := r) (by simp [Expr.operands])
    rw [Printer.print, truth_conjunction hd (hl.print hd) (hr.print hd), truth_print hd ht.1 hl,
      truth_print hd ht.2 hr, testTruth]
  | .unary .not e, ht, hclear => by
    rw [isTest] at ht
    have he := hclear.operand (d := e) (by simp [Expr.operands])
    rw [Printer.print, truth_negation hd (he.print hd), truth_print hd ht he, testTruth]
  | .compare l op r, _, hclear => by
    have hl := hclear.operand (d := l) (by simp [Expr.operands])
    have hr := hclear.operand (d := r) (by simp [Expr.operands])
    have hnode := (isLegible_iff.mp hclear.legible).1
    rw [testTruth, Printer.print]
    refine truth_compare hd row (hl.print hd) (hr.print hd) fun hin => ?_
    rcases hin with rfl | rfl <;> simpa [isWritten] using hnode

end Tests

/-! Lines of a query -/

section Lines

variable {ss xs ys : List String}

theorem unterminated_append (xs : List String) (h : ys ≠ []) :
    unterminated (xs ++ ys) = xs ++ unterminated ys := by
  induction xs with
  | nil => rfl
  | cons x xs ih =>
    obtain ⟨y, rest, hrest⟩ := List.exists_cons_of_ne_nil (List.append_ne_nil_of_right_ne_nil xs h)
    rw [List.cons_append, hrest, unterminated, ← hrest, ih, List.cons_append]

theorem terminate_ne_nil (h : ss ≠ []) : terminate ss ≠ [] := by
  fun_cases terminate ss <;> simp_all

theorem unterminated_terminate (ss : List String) : unterminated (terminate ss) = ss := by
  fun_induction terminate ss with
  | case1 => rfl
  | case2 s => simp [unterminated]
  | case3 s rest hrest ih =>
    have hne : rest ≠ [] := by simpa using hrest
    obtain ⟨t, ts, hts⟩ := List.exists_cons_of_ne_nil (terminate_ne_nil hne)
    rw [hts, unterminated, ← hts, ih]

def Unconditional (ss : List String) : Prop :=
  ∀ s ∈ ss, isCondition s = false

theorem Unconditional.shorten (h : Unconditional ss) : Unconditional (unterminated ss) := by
  have hprefix {part cs : List Char} (hpart : part.isPrefixOf cs.dropLast = true) :
      part.isPrefixOf cs = true := by
    rw [List.isPrefixOf_iff_prefix] at hpart ⊢
    exact hpart.trans (List.dropLast_prefix cs)
  fun_induction unterminated ss with
  | case1 => exact h
  | case2 s =>
    refine List.forall_mem_singleton.mpr ?_
    have hs : isCondition s = false := h s List.mem_cons_self
    split
    · rw [← Bool.not_eq_true]
      intro hshort
      have hcs : (String.ofList s.toList.dropLast).toList = s.toList.dropLast :=
        String.toList_ofList
      unfold isCondition at hshort hs
      rw [Bool.or_eq_true, hcs] at hshort
      exact absurd (Bool.or_eq_true_iff.mpr (hshort.imp hprefix hprefix)) (Bool.eq_false_iff.mp hs)
    · exact hs
  | case3 s t rest ih =>
    obtain ⟨hs, hrest⟩ := List.forall_mem_cons.mp h
    exact List.forall_mem_cons.mpr ⟨hs, ih hrest⟩

theorem Unconditional.filter (h : Unconditional ss) : ss.filter isCondition = [] :=
  List.filter_eq_nil_iff.mpr fun s hs => by simp [h s hs]

theorem filter_unterminated_append (hx : Unconditional xs) (ys : List String) :
    (unterminated (xs ++ ys)).filter isCondition = (unterminated ys).filter isCondition := by
  by_cases hy : ys = []
  · rw [hy, List.append_nil, hx.shorten.filter]
    rfl
  · rw [unterminated_append xs hy, List.filter_append, hx.filter, List.nil_append]

theorem Unconditional.append (hx : Unconditional xs) (hy : Unconditional ys) :
    Unconditional (xs ++ ys) :=
  List.forall_mem_append.mpr ⟨hx, hy⟩

theorem isCondition_whereLines (ss : List String) :
    (whereLines ss).filter isCondition = whereLines ss := by
  refine List.filter_eq_self.mpr ?_
  cases ss with
  | nil => exact fun _ hs => nomatch hs
  | cons s rest =>
    refine List.forall_mem_cons.mpr ⟨by simp [isCondition], ?_⟩
    intro t ht
    obtain ⟨u, -, rfl⟩ := List.mem_map.mp ht
    simp [isCondition]

/-- The text already differs from the start of every line of a condition. -/
def isOther (s : String) : Bool :=
  ["WHERE ", "  AND "].all fun part =>
    !part.toList.isPrefixOf s.toList && !s.toList.isPrefixOf part.toList

theorem isOther_append {s : String} (h : isOther s = true) (t : String) :
    isOther (s ++ t) = true := by
  have hpart {part cs ds : List Char} (hno : ¬ part <+: cs ∧ ¬ cs <+: part) :
      ¬ part <+: cs ++ ds ∧ ¬ cs ++ ds <+: part :=
    ⟨fun hp => (List.prefix_or_prefix_of_prefix hp (List.prefix_append cs ds)).elim hno.1 hno.2,
      fun hp => hno.2 ((List.prefix_append cs ds).trans hp)⟩
  simp only [isOther, List.all_cons, List.all_nil, Bool.and_true, Bool.and_eq_true,
    Bool.not_eq_true', ← Bool.not_eq_true, List.isPrefixOf_iff_prefix, String.toList_append] at h ⊢
  exact ⟨hpart h.1, hpart h.2⟩

theorem isCondition_of_isOther {s : String} (h : isOther s = true) : isCondition s = false := by
  simp only [isOther, List.all_cons, List.all_nil, Bool.and_true, Bool.and_eq_true,
    Bool.not_eq_true'] at h
  rw [isCondition, h.1.1, h.2.1]
  rfl

theorem unconditional_single {s : String} (h : isOther s = true) : Unconditional [s] :=
  List.forall_mem_singleton.mpr (isCondition_of_isOther h)

theorem unconditional_cons {s : String} (h : isOther s = true) (hs : Unconditional ss) :
    Unconditional (s :: ss) :=
  List.forall_mem_cons.mpr ⟨isCondition_of_isOther h, hs⟩

theorem unconditional_remarks (c : Comprehension) : Unconditional (remarks c) := by
  refine Unconditional.append ?_ fun s hs => ?_
  · split
    · exact unconditional_single (isOther_append (by decide) _)
    · exact fun _ hs => nomatch hs
  · obtain ⟨g, -, hg⟩ := List.mem_filterMap.mp hs
    split at hg
    · cases hg
      exact isCondition_of_isOther (isOther_append (isOther_append (by decide) _) _)
    · cases hg

theorem unconditional_recursion (var : String) (r : Range) : Unconditional (recursion var r) := by
  unfold recursion
  refine unconditional_cons (isOther_append (isOther_append (by decide) _) _) ?_
  refine unconditional_cons (by decide) (unconditional_single ?_)
  iterate 7 refine isOther_append ?_ _
  decide

theorem unconditional_definitions (lead : String) (hlead : isOther (lead ++ "range_") = true)
    (rs : List (String × Range)) : Unconditional (Layout.allTexts (definitions lead rs)) := by
  induction rs generalizing lead with
  | nil => exact fun _ hs => nomatch hs
  | cons r rest ih =>
    obtain ⟨var, r⟩ := r
    rw [definitions, Layout.allTexts, Layout.texts, Layout.allTexts, Layout.allTexts, Layout.texts,
      List.append_nil]
    refine Unconditional.append (Unconditional.append (unconditional_cons ?_ ?_) ?_)
      (ih "" (by decide))
    · iterate 4 refine isOther_append ?_ _
      exact hlead
    · exact unconditional_recursion var r
    · cases rest with
      | nil => exact unconditional_single (show isOther ")" = true by decide)
      | cons r rest => exact unconditional_single (show isOther ")," = true by decide)

theorem unconditional_fromLines (server : Server) (gs : List Generator) :
    Unconditional (fromLines server gs) := by
  cases gs with
  | nil => exact fun _ hs => nomatch hs
  | cons g rest =>
    refine unconditional_cons (isOther_append (by decide) _) fun t ht => ?_
    obtain ⟨u, -, rfl⟩ := List.mem_map.mp ht
    exact isCondition_of_isOther (isOther_append (by decide) _)

theorem unconditional_orderLines (c : Comprehension) : Unconditional (orderLines c) := by
  unfold orderLines
  split
  · split
    · exact fun _ hs => nomatch hs
    · exact unconditional_single (isOther_append (by decide) _)
  · exact fun _ hs => nomatch hs

theorem isOther_selectLine (p : Printer) (c : Comprehension) : isOther (selectLine p c) = true := by
  unfold selectLine
  dsimp only
  split
  · exact isOther_append (isOther_append (by decide) _) _
  · exact isOther_append (isOther_append (by decide) _) _
  · exact isOther_append (isOther_append (by decide) _) _
  · exact isOther_append (isOther_append (by decide) _) _
  · split
    · iterate 4 refine isOther_append ?_ _
      decide
    · exact isOther_append (by decide) _
    · exact isOther_append (by decide) _

theorem filter_existence (p : Printer) (c : Comprehension) (server : Server) (lead test : String) :
    (unterminated (Layout.allTexts [existence p c server lead test])).filter isCondition =
      whereLines (conditions p c ++ [test]) := by
  have htexts : Layout.allTexts [existence p c server lead test] =
      (("SELECT " ++ lead ++ " (") :: "SELECT 1" :: fromLines server c.generators) ++
        (whereLines (conditions p c ++ [test]) ++ [") AS result;"]) := by
    simp [existence, Layout.allTexts, Layout.texts]
  have hfront : Unconditional
      (("SELECT " ++ lead ++ " (") :: "SELECT 1" :: fromLines server c.generators) :=
    unconditional_cons (isOther_append (isOther_append (by decide) _) _)
      (unconditional_cons (by decide) (unconditional_fromLines server c.generators))
  have hend : Unconditional (unterminated [") AS result;"]) :=
    Unconditional.shorten (unconditional_single (by decide))
  rw [htexts, filter_unterminated_append hfront, unterminated_append _ (by simp),
    List.filter_append, isCondition_whereLines, hend.filter, List.append_nil]

theorem filter_selection (p : Printer) (c : Comprehension) (server : Server) (ss : List String) :
    (unterminated (Layout.allTexts [.line (selectLine p c),
      .lines (terminate (fromLines server c.generators ++ whereLines ss ++ orderLines c))])).filter
        isCondition = whereLines ss := by
  have htexts : Layout.allTexts [.line (selectLine p c),
      .lines (terminate (fromLines server c.generators ++ whereLines ss ++ orderLines c))] =
      [selectLine p c] ++
        terminate (fromLines server c.generators ++ whereLines ss ++ orderLines c) := by
    simp [Layout.allTexts, Layout.texts]
  rw [htexts, filter_unterminated_append (unconditional_single (isOther_selectLine p c)),
    unterminated_terminate, List.filter_append, List.filter_append,
    (unconditional_fromLines server c.generators).filter, (unconditional_orderLines c).filter,
    isCondition_whereLines, List.nil_append, List.append_nil]

/-- What a query for existence asks of the element. -/
def elementTests (p : Printer) (c : Comprehension) : List String :=
  match c.reducer? with
  | some .any => [round (p.printText c.elementText)]
  | some .all => ["NOT " ++ round (p.printText c.elementText)]
  | _ => []

/-- The condition of a query has one line for each filter and one for the test of the element. -/
theorem filter_layout (c : Comprehension) (server : Server) :
    (unterminated (Layout.allTexts (layout c server))).filter isCondition =
      whereLines (conditions (printerFor server.dialect c) c ++
        elementTests (printerFor server.dialect c) c) := by
  have hfront : Unconditional (Layout.allTexts (.lines (remarks c) ::
      if server = .sqlite then definitions "WITH RECURSIVE " (ranges c) else [])) := by
    rw [Layout.allTexts, Layout.texts]
    refine (unconditional_remarks c).append ?_
    split
    · exact unconditional_definitions _ (by decide) _
    · exact fun _ hs => nomatch hs
  rw [layout, Layout.allTexts_append, filter_unterminated_append hfront]
  cases hreducer : c.reducer? with
  | none =>
    simp only [query, elementTests, hreducer, List.append_nil]
    exact filter_selection ..
  | some r =>
    cases r with
    | any | all =>
      simp only [query, elementTests, hreducer]
      exact filter_existence ..
    | _ =>
      simp only [query, elementTests, hreducer, List.append_nil]
      exact filter_selection ..

end Lines

/-! Conditions one below the other -/

/-- The signs of conditions with their lines' first words, but for the first of all. -/
def joinedSigns : List String → List Sign
  | [] => []
  | s :: rest => signs s ++ rest.flatMap fun t => word "AND".toList :: signs t

section Joined

variable {v : List Sign → Truth}

theorem conditionTruth_layout (c : Comprehension) (server : Server) (row : Comparison → Truth)
    {ss : List String} (hss : conditions (printerFor server.dialect c) c ++
      elementTests (printerFor server.dialect c) c = ss) :
    conditionTruth row (layout c server) =
      if ss = [] then some true else truth (reading row) (joinedSigns ss) := by
  have hwhere (s : String) : signs ("WHERE " ++ s) = word "WHERE".toList :: signs s :=
    (leads_bare (n := 14) (k := 0) (by decide)).signs_cons (by decide) s
  have hand (s : String) : signs ("  AND " ++ s) = word "AND".toList :: signs s :=
    (leads_bare (n := 3) (k := 0) (by decide)).signs_cons (by decide) s
  unfold conditionTruth conditionSigns
  rw [filter_layout, hss]
  cases ss with
  | nil => rfl
  | cons s rest =>
    rw [whereLines, List.flatMap_cons, hwhere, List.cons_append, List.flatMap_map,
      if_neg (List.cons_ne_nil s rest), joinedSigns]
    simp only [hand, if_true]

/-- Conditions without a disjunction outside of brackets are a conjunction. -/
theorem truth_joined {s : String} {rest : List String}
    (h : rest ≠ [] → ∀ t ∈ s :: rest, Stands 3 0 t) :
    truth v (joinedSigns (s :: rest)) = some true ↔
      ∀ t ∈ s :: rest, truth v (signs t) = some true := by
  -- the lines read so far bind as a conjunction does, and so does the next one
  have hall (hrest : ∀ t ∈ rest, Stands 3 0 t) (ts : List Sign) (hts : Binds 3 ts) :
      truth v (ts ++ rest.flatMap fun t => word "AND".toList :: signs t) = some true ↔
        truth v ts = some true ∧ ∀ t ∈ rest, truth v (signs t) = some true := by
    clear h
    induction rest generalizing ts with
    | nil => simp
    | cons t rest ih =>
      obtain ⟨ht, hrest⟩ := List.forall_mem_cons.mp hrest
      have hand : Binds 3 [word "AND".toList] := Binds.connective (.inr (by decide)) (by decide)
      have hmore : Binds 3 (ts ++ word "AND".toList :: signs t) :=
        hts.append (hand.append ht.binds)
      rw [List.flatMap_cons, ← List.append_assoc, ih hrest _ hmore,
        truth_and (by decide) hts ht.binds, Truth.and_eq_true, List.forall_mem_cons, and_assoc]
  rw [joinedSigns, List.forall_mem_cons]
  by_cases hone : rest = []
  · simp [hone]
  · obtain ⟨hs, hrest⟩ := List.forall_mem_cons.mp (h hone)
    exact hall hrest (signs s) hs.binds

end Joined

/-! Filters and the element -/

def filters (c : Comprehension) : List String :=
  c.generators.flatMap Generator.filters

/-- The text is a combination of comparisons whose parts stay together in writing. That leaves out
names and fields spelled like one of the words AND, OR, NOT, IN, IS, CASE and END, in capital
letters or small ones, since names are not quoted; a plus sign before a comparison or a combination,
since it is dropped with the brackets behind it; and a membership whose container is a comparison or
a combination, since it stands without brackets. -/
def IsTest (s : String) : Prop :=
  ∃ e, Expr.parse? s = some e ∧ isTest e = true ∧ isLegible e = true

def textTruth (p : Printer) (v : Comparison → Truth) (s : String) : Truth :=
  match Expr.parse? s with
  | some e => testTruth p v e
  | none => none

def AsksExistence (c : Comprehension) : Prop :=
  c.reducer? = some .any ∨ c.reducer? = some .all

/-- The element of the row decides the question: it holds for some row, or fails for some. -/
def Decides (p : Printer) (v : Comparison → Truth) (c : Comprehension) : Prop :=
  (c.reducer? = some .any → textTruth p v c.elementText = some true) ∧
    (c.reducer? = some .all → textTruth p v c.elementText = some false)

section Filters

variable {p : Printer} {v : Comparison → Truth} {s : String} {e : Expr}

theorem clear_of_parse (h : Expr.parse? s = some e) (hlegible : isLegible e = true) : Clear e := by
  refine ⟨?_, hlegible⟩
  unfold Expr.parse? at h
  cases hparse : Expr.parse s with
  | error fault => rw [hparse] at h; cases h
  | ok d =>
    rw [hparse] at h
    cases h
    exact isName_of_parse hparse

theorem printText_eq (h : Expr.parse? s = some e) : p.printText s = p.print e := by
  rw [Printer.printText, h]

theorem truth_printText (hd : p.dialect.isSql = true) (h : IsTest s) :
    truth (reading v) (signs (p.printText s)) = textTruth p v s := by
  obtain ⟨e, hparse, htest, hlegible⟩ := h
  rw [printText_eq hparse, truth_print hd htest (clear_of_parse hparse hlegible), textTruth, hparse]

theorem inner_printText (hd : p.dialect.isSql = true) (h : IsTest s) : Inner (p.printText s) := by
  obtain ⟨e, hparse, -, hlegible⟩ := h
  rw [printText_eq hparse]
  exact ((clear_of_parse hparse hlegible).print hd).alone

/-- Only a disjunction shows one outside of brackets. -/
theorem stands_printText (hd : p.dialect.isSql = true) (h : IsTest s)
    (hor : ∀ l r, Expr.parse? s ≠ some (.boolOp .or l r)) : Stands 3 0 (p.printText s) := by
  obtain ⟨e, hparse, htest, hlegible⟩ := h
  have hlevel : 3 ≤ level e := by
    cases e with
    | boolOp op l r =>
      cases op with
      | or => exact absurd hparse (hor l r)
      | and => exact Nat.le_refl 3
    | unary op d =>
      cases op with
      | not => exact Nat.le_succ 3
      | _ => cases htest
    | compare l op r => exact Nat.le_add_right 3 2
    | _ => cases htest
  rw [printText_eq hparse]
  exact Stands.mono ((clear_of_parse hparse hlegible).print hd) hlevel

theorem occurs_append (part : List Char) (cs ds : List Char) (hne : part ≠ []) :
    Text.occurs part (cs ++ (part ++ ds)) = true := by
  induction cs with
  | nil =>
    obtain ⟨c, rest, rfl⟩ := List.exists_cons_of_ne_nil hne
    rw [List.nil_append, List.cons_append, Text.occurs, Bool.or_eq_true]
    exact .inl (List.isPrefixOf_iff_prefix.mpr ⟨ds, rfl⟩)
  | cons c cs ih => rw [List.cons_append, Text.occurs, ih, Bool.or_true]

theorem occurs_disjunction (hd : p.dialect.isSql = true) (x y : Operand) :
    Text.occurs " OR ".toList (p.boolOp .or x y).toList = true := by
  have hsymbol : Printer.boolSymbol p.dialect .or = "OR" := if_pos hd
  have htext : (p.boolOp .or x y).toList = (x.within p.dialect 2).toList ++
      (" OR ".toList ++ (y.within p.dialect 3).toList) := by
    rw [boolOp_eq hd, hsymbol]
    simp [Printer.boolPrecedence]
  rw [htext]
  exact occurs_append _ _ _ (by decide)

theorem conditions_eq (p : Printer) (c : Comprehension) : conditions p c =
    (filters c).map fun f =>
      if 1 < (filters c).length && Text.occurs " OR ".toList (p.printText f).toList then
        round (p.printText f)
      else p.printText f :=
  rfl

/-- Each condition has the truth of its filter, in brackets or not. -/
theorem truth_conditions (hd : p.dialect.isSql = true) {c : Comprehension}
    (hfilters : ∀ f ∈ filters c, IsTest f) :
    (∀ t ∈ conditions p c, truth (reading v) (signs t) = some true) ↔
      ∀ f ∈ filters c, textTruth p v f = some true := by
  rw [conditions_eq, List.forall_mem_map]
  refine forall₂_congr fun f hf => ?_
  have htruth := truth_printText (v := v) hd (hfilters f hf)
  split
  · rw [truth_signs_round (inner_printText hd (hfilters f hf)), htruth]
  · rw [htruth]

/-- A disjunction stands in brackets wherever there are several filters. -/
theorem stands_conditions (hd : p.dialect.isSql = true) {c : Comprehension}
    (hfilters : ∀ f ∈ filters c, IsTest f)
    (h : 1 < (filters c).length ∨ ∀ f ∈ filters c, ∀ l r, Expr.parse? f ≠ some (.boolOp .or l r)) :
    ∀ t ∈ conditions p c, Stands 3 0 t := by
  rw [conditions_eq]
  refine List.forall_mem_map.mpr fun f hf => ?_
  split
  · exact (stands_round (inner_printText hd (hfilters f hf))).mono (by decide)
  next hbare =>
    refine stands_printText hd (hfilters f hf) fun l r hparse => ?_
    rcases h with hseveral | hnone
    · refine hbare (Bool.and_eq_true_iff.mpr ⟨decide_eq_true hseveral, ?_⟩)
      rw [printText_eq hparse, Printer.print]
      exact occurs_disjunction hd _ _
    · exact hnone f hf l r hparse

/-- The test of a query for existence. -/
theorem exists_elementTest (hd : p.dialect.isSql = true) {c : Comprehension}
    (hasks : AsksExistence c) (helement : IsTest c.elementText) :
    ∃ t, elementTests p c = [t] ∧ Stands 3 0 t ∧
      (truth (reading v) (signs t) = some true ↔ Decides p v c) := by
  have hinner := inner_printText hd helement
  have hround := stands_round hinner
  have htruth : truth (reading v) (signs (round (p.printText c.elementText))) =
      textTruth p v c.elementText := by
    rw [truth_signs_round hinner, truth_printText hd helement]
  rcases hasks with hreducer | hreducer
  · refine ⟨_, by rw [elementTests, hreducer], hround.mono (by decide), ?_⟩
    simp [htruth, Decides, hreducer]
  · have hnot : Stands 4 0 (round (p.printText c.elementText)) := hround.mono (by decide)
    refine ⟨_, by rw [elementTests, hreducer], (leads_not.before hnot).mono (by decide), ?_⟩
    rw [truth_signs_not hnot, htruth, Truth.not_eq_true]
    simp [Decides, hreducer]

theorem elementTests_eq_nil {c : Comprehension} (h : ¬ AsksExistence c) :
    elementTests p c = [] ∧ Decides p v c := by
  rw [AsksExistence, not_or] at h
  refine ⟨?_, fun hany => absurd hany h.1, fun hall => absurd hall h.2⟩
  unfold elementTests
  split
  next hany => exact absurd hany h.1
  next hall => exact absurd hall h.2
  · rfl

theorem truth_elementTests (hd : p.dialect.isSql = true) {c : Comprehension}
    (helement : AsksExistence c → IsTest c.elementText) :
    (∀ t ∈ elementTests p c, Stands 3 0 t) ∧
      ((∀ t ∈ elementTests p c, truth (reading v) (signs t) = some true) ↔ Decides p v c) := by
  by_cases hasks : AsksExistence c
  · obtain ⟨t, ht, hstands, htruth⟩ := exists_elementTest (v := v) hd hasks (helement hasks)
    rw [ht, List.forall_mem_singleton, List.forall_mem_singleton]
    exact ⟨hstands, htruth⟩
  · obtain ⟨hnil, hdecides⟩ := elementTests_eq_nil (p := p) (v := v) hasks
    rw [hnil]
    exact ⟨by simp, by simpa using hdecides⟩

end Filters

/-- A single filter is a disjunction, and the test of the element follows it. -/
def Splits (c : Comprehension) (l r : Expr) : Prop :=
  AsksExistence c ∧ ∃ f, filters c = [f] ∧ Expr.parse? f = some (.boolOp .or l r)

section Clause

variable {c : Comprehension} {server : Server} {v : Comparison → Truth}

theorem isSql_printerFor (server : Server) (c : Comprehension) :
    (printerFor server.dialect c).dialect.isSql = true := by
  cases server <;> rfl

/-- Several conditions show no disjunction, unless a single filter is split. -/
theorem stands_of_several (hfilters : ∀ f ∈ filters c, IsTest f)
    (helement : AsksExistence c → IsTest c.elementText) (hwhole : ∀ l r, ¬ Splits c l r)
    {p : Printer} (hd : p.dialect.isSql = true)
    (hseveral : 1 < (conditions p c ++ elementTests p c).length) :
    ∀ t ∈ conditions p c ++ elementTests p c, Stands 3 0 t := by
  refine List.forall_mem_append.mpr ⟨?_, (truth_elementTests (v := fun _ => none) hd helement).1⟩
  refine stands_conditions hd hfilters ?_
  by_cases hmany : 1 < (filters c).length
  · exact .inl hmany
  · refine .inr fun f hf l r hparse => ?_
    -- one filter alone, so the other condition is the test of the element
    have hone : filters c = [f] := by
      match hfs : filters c, hf, hmany with
      | [g], hf, _ => rw [List.mem_singleton.mp hf]
      | _ :: _ :: _, _, hmany => simp at hmany
    have hasks : AsksExistence c := by
      refine Classical.byContradiction fun hno => ?_
      rw [(elementTests_eq_nil (v := fun _ => none) hno).1, List.append_nil, conditions_eq,
        List.length_map] at hseveral
      exact hmany hseveral
    exact hwhole l r ⟨hasks, f, hone, hparse⟩

/-- All conditions together, unless a single filter is split. -/
theorem conditionTruth_conjunction (hfilters : ∀ f ∈ filters c, IsTest f)
    (helement : AsksExistence c → IsTest c.elementText) (hwhole : ∀ l r, ¬ Splits c l r) :
    conditionTruth v (layout c server) = some true ↔
      (∀ f ∈ filters c, textTruth (printerFor server.dialect c) v f = some true) ∧
        Decides (printerFor server.dialect c) v c := by
  have hd := isSql_printerFor server c
  rw [← truth_conditions hd hfilters, ← (truth_elementTests hd helement).2,
    ← List.forall_mem_append]
  have hstands := stands_of_several hfilters helement hwhole hd
  cases hss : conditions (printerFor server.dialect c) c ++
      elementTests (printerFor server.dialect c) c with
  | nil => simp [conditionTruth_layout c server v hss]
  | cons s rest =>
    rw [conditionTruth_layout c server v hss, if_neg (List.cons_ne_nil s rest)]
    rw [hss] at hstands
    refine truth_joined fun hrest => hstands ?_
    have hpos := List.length_pos_iff.mpr hrest
    rw [List.length_cons]
    omega

/-- The left side of a split filter is an alternative to all the rest. -/
theorem conditionTruth_split (hfilters : ∀ f ∈ filters c, IsTest f)
    (helement : AsksExistence c → IsTest c.elementText) {l r : Expr} (hsplits : Splits c l r) :
    conditionTruth v (layout c server) = some true ↔
      testTruth (printerFor server.dialect c) v l = some true ∨
        (testTruth (printerFor server.dialect c) v r = some true ∧
          Decides (printerFor server.dialect c) v c) := by
  have hd := isSql_printerFor server c
  obtain ⟨hasks, f, hone, hparse⟩ := hsplits
  obtain ⟨e, hparse', htest, hlegible⟩ := hfilters f (by simp [hone])
  obtain rfl : Expr.boolOp .or l r = e := Option.some.inj (hparse.symm.trans hparse')
  obtain ⟨t, ht, hstands, htruth⟩ := exists_elementTest (v := v) hd hasks (helement hasks)
  have hclear := clear_of_parse hparse hlegible
  have hl := hclear.operand (d := l) (by simp [Expr.operands])
  have hr := hclear.operand (d := r) (by simp [Expr.operands])
  rw [isTest, Bool.and_eq_true] at htest
  generalize hp : printerFor server.dialect c = p at hd ht htruth ⊢
  have hss : conditions p c ++ elementTests p c = [p.print (.boolOp .or l r), t] := by
    rw [conditions_eq, hone, ht]
    simp [printText_eq hparse]
  have hjoined : joinedSigns [p.print (.boolOp .or l r), t] =
      signs (Operand.within ⟨l, p.print l⟩ p.dialect 2) ++ word "OR".toList ::
        (signs (Operand.within ⟨r, p.print r⟩ p.dialect 3) ++ word "AND".toList :: signs t) := by
    rw [joinedSigns, Printer.print, signs_disjunction hd (hl.print hd)]
    simp
  have hleft : Binds 1 (signs (Operand.within ⟨l, p.print l⟩ p.dialect 2)) :=
    ((hl.print hd).within p.dialect (by decide)).binds.mono (by decide)
  have hright : Binds 3 (signs (Operand.within ⟨r, p.print r⟩ p.dialect 3)) :=
    ((hr.print hd).within p.dialect (by decide)).binds
  rw [conditionTruth_layout c server v (by rw [hp, hss]), if_neg (by simp), hjoined,
    truth_or (by decide) hleft, truth_and (by decide) hright hstands.binds,
    (hl.print hd).truth_within, (hr.print hd).truth_within, truth_print hd htest.1 hl,
    truth_print hd htest.2 hr, Truth.or_eq_true, Truth.and_eq_true, htruth]

end Clause

/-- The rows that the condition of a query takes. Where filters and element are combinations of
comparisons, the condition is true for a row if and only if every filter is true for it and, in a
query for existence, the element has the value that is asked for. The one exception is a query for
existence whose only filter is a disjunction: it has no brackets, so its left side alone lets a row
pass, and the test of the element goes with its right side only. A row is given by the truth of each
comparison, told apart by operator and operands. -/
theorem condition_selects (c : Comprehension) (server : Server) (v : Comparison → Truth)
    (hfilters : ∀ f ∈ filters c, IsTest f)
    (helement : AsksExistence c → IsTest c.elementText) :
    ((∀ l r, ¬ Splits c l r) →
      (conditionTruth v (layout c server) = some true ↔
        (∀ f ∈ filters c, textTruth (printerFor server.dialect c) v f = some true) ∧
          Decides (printerFor server.dialect c) v c)) ∧
    ∀ l r, Splits c l r →
      (conditionTruth v (layout c server) = some true ↔
        testTruth (printerFor server.dialect c) v l = some true ∨
          (testTruth (printerFor server.dialect c) v r = some true ∧
            Decides (printerFor server.dialect c) v c)) :=
  ⟨conditionTruth_conjunction hfilters helement,
    fun _ _ => conditionTruth_split hfilters helement⟩

section Rows

open Comprehension

theorem parse?_outside : Expr.parse? "x < 2 or x > 5" =
    some (.boolOp .or (.compare (.name "x") .lt (.const (.int 2)))
      (.compare (.name "x") .gt (.const (.int 5)))) := by
  cbv

theorem parse?_different : Expr.parse? "not x == 3" =
    some (.unary .not (.compare (.name "x") .eq (.const (.int 3)))) := by
  cbv

theorem parse?_above : Expr.parse? "x > 7" =
    some (.compare (.name "x") .gt (.const (.int 7))) := by
  cbv

/-- The value of a name or a number where `x` has the given one. -/
def valueAt (x : Int) : List Sign → Option Int
  | [.word ['x']] => some x
  | [.word cs] => some (cs.foldl (fun n c => 10 * n + (c.toNat - 48)) 0 : Nat)
  | _ => none

def rowAt (x : Int) (c : Comparison) : Truth :=
  match valueAt x c.left, valueAt x c.right with
  | some a, some b =>
    match c.op with
    | .eq => some (a = b)
    | .lt => some (a < b)
    | .gt => some (b < a)
    | _ => none
  | _, _ => none

/-- Are all numbers above seven that lie outside of an interval and are not three? -/
def allAbove : Comprehension :=
  ofReducer .all "x > 7" [⟨"x", .range ⟨0, 10, 1⟩, ["x < 2 or x > 5", "not x == 3"]⟩]

/-- The number six answers the question, and its row passes. -/
theorem condition_selects_six :
    (∀ f ∈ filters allAbove, IsTest f) ∧ IsTest allAbove.elementText ∧
      conditionTruth (rowAt 6) (layout allAbove .postgres) =
        some true := by
  have hfilters : ∀ f ∈ filters allAbove, IsTest f := by
    refine List.forall_mem_cons.mpr ⟨⟨_, parse?_outside, by decide, by decide⟩, ?_⟩
    exact List.forall_mem_singleton.mpr ⟨_, parse?_different, by decide, by decide⟩
  have helement : IsTest allAbove.elementText := ⟨_, parse?_above, by decide, by decide⟩
  have hwhole : ∀ l r, ¬ Splits allAbove l r := by
    rintro l r ⟨-, f, hone, -⟩
    cases hone
  have hselects := (condition_selects allAbove .postgres (rowAt 6)
    hfilters fun _ => helement).1 hwhole
  refine ⟨hfilters, helement, hselects.mpr ⟨?_, fun hany => absurd hany (by decide), fun _ => ?_⟩⟩
  · refine List.forall_mem_cons.mpr ⟨?_, List.forall_mem_singleton.mpr ?_⟩
    · rw [textTruth, parse?_outside]
      decide
    · rw [textTruth, parse?_different]
      decide
  · rw [textTruth, show Expr.parse? allAbove.elementText = _ from parse?_above]
    decide

/-- Is a number above seven that lies outside of an interval? -/
def anyAbove : Comprehension :=
  { ofReducer .any "x > 7" [⟨"x", .range ⟨0, 10, 1⟩, ["x < 2 or x > 5"]⟩] with
    provenance := origin "call_any" }

/-- The row of zero passes, although zero is not above seven. -/
theorem condition_splits_disjunction :
    parse "any(x > 7 for x in range(10) if x < 2 or x > 5)" = .ok anyAbove ∧
      ∀ server : Server,
        conditionTruth (rowAt 0) (layout anyAbove server) = some true ∧
        textTruth (printerFor server.dialect anyAbove) (rowAt 0)
          anyAbove.elementText = some false := by
  have hfilters : ∀ f ∈ filters anyAbove, IsTest f :=
    List.forall_mem_singleton.mpr ⟨_, parse?_outside, by decide, by decide⟩
  have helement : IsTest anyAbove.elementText := ⟨_, parse?_above, by decide, by decide⟩
  have hsplits : Splits anyAbove (.compare (.name "x") .lt (.const (.int 2)))
      (.compare (.name "x") .gt (.const (.int 5))) := ⟨.inl rfl, _, rfl, parse?_outside⟩
  refine ⟨by cbv, fun server => ⟨?_, ?_⟩⟩
  · rw [conditionTruth_split hfilters (fun _ => helement) hsplits]
    exact .inl (by cases server <;> decide)
  · rw [textTruth, show Expr.parse? anyAbove.elementText = _ from parse?_above]
    cases server <;> decide

end Rows

end Target.Sql

end Comprehend
