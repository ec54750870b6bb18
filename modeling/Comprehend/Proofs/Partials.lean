import Mathlib.Data.List.FinRange
import Mathlib.Data.List.Perm.Basic
import Comprehend.Strategy.Associativity

/-! Folds in parts. Every operator of the list is associative and commutative over all 64-bit
integers and has a neutral element there, sums and products wrapping around. So the values may be
dealt out to workers in any way, each worker folds its own, and the parts combine to the fold of
all values in sequence. -/
namespace Comprehend

namespace AssocOp

/-! Laws of the operators -/

theorem combine_comm (op : AssocOp) (a b : Int64) : op.combine a b = op.combine b a := by
  cases op with
  | add | sum => exact Int64.add_comm a b
  | mul | prod => exact Int64.mul_comm a b
  | max | min => grind [combine, Int64.lt_iff_toInt_lt, Int64.toInt_inj]
  | bitOr => exact Int64.or_comm a b
  | bitAnd => exact Int64.and_comm a b
  | bitXor => exact Int64.xor_comm a b

theorem combine_assoc (op : AssocOp) (a b c : Int64) :
    op.combine (op.combine a b) c = op.combine a (op.combine b c) := by
  cases op with
  | add | sum => exact Int64.add_assoc a b c
  | mul | prod => exact Int64.mul_assoc a b c
  | max | min => grind [combine, Int64.lt_iff_toInt_lt]
  | bitOr => exact Int64.or_assoc a b c
  | bitAnd => exact Int64.and_assoc a b c
  | bitXor => exact Int64.xor_assoc a b c

theorem neutral_combine (op : AssocOp) (a : Int64) : op.combine op.neutral.toInt64 a = a := by
  cases op with
  | add | sum => exact Int64.zero_add a
  | mul | prod => exact Int64.one_mul a
  | max =>
    by_cases h : Int64.minValue < a
    · exact if_pos h
    · exact (if_neg h).trans (Int64.le_antisymm (Int64.minValue_le a) (Int64.not_lt.mp h))
  | min =>
    by_cases h : a < Int64.maxValue
    · exact if_pos h
    · exact (if_neg h).trans (Int64.le_antisymm (Int64.not_lt.mp h) (Int64.le_maxValue a))
  | bitOr => exact Int64.zero_or
  | bitAnd => exact Int64.neg_one_and
  | bitXor => exact Int64.zero_xor

theorem combine_neutral (op : AssocOp) (a : Int64) : op.combine a op.neutral.toInt64 = a := by
  rw [combine_comm, neutral_combine]

/-! Folds -/

def fold (op : AssocOp) (values : List Int64) : Int64 :=
  values.foldl op.combine op.neutral.toInt64

variable (op : AssocOp)

/-- A fold from any start is the fold from the neutral element, combined with the start. -/
theorem foldl_combine (start : Int64) (values : List Int64) :
    values.foldl op.combine start = op.combine start (op.fold values) := by
  induction values generalizing start with
  | nil => exact (op.combine_neutral start).symm
  | cons v vs ih =>
    have hfold : op.fold (v :: vs) = op.combine v (op.fold vs) := by
      rw [fold, List.foldl_cons, neutral_combine, ih]
    rw [List.foldl_cons, ih, hfold, combine_assoc]

theorem fold_append (us vs : List Int64) :
    op.fold (us ++ vs) = op.combine (op.fold us) (op.fold vs) := by
  rw [fold, List.foldl_append, foldl_combine]
  rfl

/-- Parts that are folded one by one combine to the fold of all of them. -/
theorem fold_flatten (parts : List (List Int64)) :
    op.fold parts.flatten = op.fold (parts.map op.fold) := by
  induction parts with
  | nil => rfl
  | cons us parts ih =>
    have hcons : op.fold (op.fold us :: parts.map op.fold) =
        op.combine (op.fold us) (op.fold (parts.map op.fold)) := by
      rw [fold, List.foldl_cons, neutral_combine, foldl_combine]
    rw [List.flatten_cons, fold_append, ih, List.map_cons, hcons]

theorem fold_perm {us vs : List Int64} (h : us.Perm vs) : op.fold us = op.fold vs := by
  refine h.foldl_eq' (fun a _ b _ start => ?_) _
  rw [combine_assoc, op.combine_comm a b, ← combine_assoc]

end AssocOp

/-! Workers -/

section Workers

variable {n : Nat} (values : List Int64) (worker : Fin values.length → Fin n)

/-- The values at the positions that fall to a worker, in their order. -/
def share (w : Fin n) : List Int64 :=
  ((List.finRange values.length).filter (worker · = w)).map values.get

/-- The fold of each worker's values, in the order of the workers. -/
def Grant.partials (g : Grant) : List Int64 :=
  (List.finRange n).map fun w => (share values worker w).foldl g.op.combine g.neutral.toInt64

/-- Every position falls to one worker. -/
theorem positions_perm :
    ((List.finRange n).flatMap fun w =>
      (List.finRange values.length).filter (worker · = w)).Perm (List.finRange values.length) := by
  refine (List.perm_ext_iff_of_nodup ?_ (List.nodup_finRange _)).mpr fun i => by simp
  refine List.nodup_flatMap.mpr ⟨fun w _ => (List.nodup_finRange _).filter _, ?_⟩
  refine (List.nodup_finRange n).imp fun hne i hi hj => hne ?_
  simp only [List.mem_filter, decide_eq_true_eq] at hi hj
  exact hi.2.symm.trans hj.2

theorem shares_perm : ((List.finRange n).map (share values worker)).flatten.Perm values := by
  have h := (positions_perm values worker).map values.get
  rw [List.map_flatMap, List.map_get_finRange] at h
  exact h

end Workers

/-! Operators by name -/

theorem AssocOp.name_of_ofName? {op : String} {assoc : AssocOp}
    (h : AssocOp.ofName? op = some assoc) : assoc.name = op := by
  unfold AssocOp.ofName? at h
  split at h <;> cases h <;> rfl

/-- An operator is granted over a type that its entry in the list names. -/
theorem Grant.check_eq_ok {op type : String} {g : Grant} :
    Grant.check op type = .ok g ↔
      AssocOp.ofName? op = some g.op ∧ NumericType.ofName? type = some g.type ∧
        g.type ∈ g.op.types := by
  unfold Grant.check
  cases AssocOp.ofName? op with
  | none => simp
  | some assoc =>
    cases NumericType.ofName? type with
    | none => simp
    | some t =>
      obtain ⟨gop, gtype⟩ := g
      by_cases ht : t ∈ assoc.types
      · simp only [ht, ↓reduceIte, Except.ok.injEq, Grant.mk.injEq, Option.some.injEq]
        constructor
        · rintro ⟨rfl, rfl⟩
          exact ⟨rfl, rfl, ht⟩
        · rintro ⟨rfl, rfl, -⟩
          exact ⟨rfl, rfl⟩
      · simp only [ht, ↓reduceIte, reduceCtorEq, Option.some.injEq, false_iff]
        rintro ⟨rfl, rfl, hmem⟩
        exact ht hmem

/-- Whatever positions fall to which worker, the parts combine to the fold in sequence, whether they
are combined from the neutral element on or from the first part on. -/
theorem Grant.partials_combine {op : String} {g : Grant} (hg : Grant.check op "Int" = .ok g)
    {n : Nat} (hn : 0 < n) (values : List Int64) (worker : Fin values.length → Fin n) :
    g.op.name = op ∧
      (g.partials values worker).foldl g.op.combine g.neutral.toInt64 =
        values.foldl g.op.combine g.neutral.toInt64 ∧
      ∃ first rest, g.partials values worker = first :: rest ∧
        rest.foldl g.op.combine first = values.foldl g.op.combine g.neutral.toInt64 := by
  have hparts : g.op.fold (g.partials values worker) = g.op.fold values := by
    have hfolds : g.partials values worker =
        ((List.finRange n).map (share values worker)).map g.op.fold := by
      rw [List.map_map]
      rfl
    rw [hfolds, ← AssocOp.fold_flatten]
    exact g.op.fold_perm (shares_perm values worker)
  refine ⟨AssocOp.name_of_ofName? (Grant.check_eq_ok.mp hg).1, hparts, ?_⟩
  obtain ⟨first, rest, hcons⟩ : ∃ first rest, g.partials values worker = first :: rest :=
    List.exists_cons_of_ne_nil (by simp [Grant.partials, List.finRange_eq_nil_iff]; omega)
  refine ⟨first, rest, hcons, ?_⟩
  calc rest.foldl g.op.combine first
      = g.op.fold (first :: rest) := by rw [AssocOp.fold, List.foldl_cons, AssocOp.neutral_combine]
    _ = g.op.fold values := by rw [← hcons, hparts]

/-- Three workers, of which the second gets nothing and the third gets no neighbours. -/
theorem Grant.partials_combine_prod :
    Grant.check "prod" "Int" = .ok ⟨.prod, .int⟩ ∧
      Grant.partials [Int64.minValue, 5, 3] (fun i => if i.val = 1 then 0 else 2 : _ → Fin 3)
        ⟨.prod, .int⟩ = [5, 1, Int64.minValue] ∧
      [5, 1, Int64.minValue].foldl AssocOp.prod.combine 1 =
        [Int64.minValue, 5, 3].foldl AssocOp.prod.combine 1 := by
  have hg : Grant.check "prod" "Int" = .ok ⟨.prod, .int⟩ := rfl
  have hparts : Grant.partials [Int64.minValue, 5, 3]
      (fun i => if i.val = 1 then 0 else 2 : _ → Fin 3) ⟨.prod, .int⟩ =
        [5, 1, Int64.minValue] := by decide
  refine ⟨hg, hparts, ?_⟩
  rw [← hparts]
  exact (Grant.partials_combine hg (by decide) _ _).2.1

end Comprehend
