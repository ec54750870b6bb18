import Comprehend.Proofs.FoldingSteps
import Comprehend.Proofs.RangeCalls

/-! The bounds of ranges. A loop over a range runs over a call in the source, and each bound is the
exact value of an argument of that call. -/
namespace Comprehend.Comprehension

open Token Parse

/-- The tokens, as they stand in the source, spell an integer expression of this exact value. -/
def Spells (source : List Char) : List Token → Int64 → Prop
  | [], _ => False
  | first :: run, n =>
    ∃ e, Expr.parse? ((runSpan first run).text source) = some e ∧ e.integer = some n.toInt

theorem Denotes.spells {source : List Char} {us : List Token} {n : Int64}
    (h : Denotes source us n) : Spells source us n := by
  cases us with
  | nil => exact h
  | cons first run =>
    obtain ⟨e, hparse, hvalue⟩ := h
    exact ⟨e, hparse, Expr.integer_of_evalInt hvalue⟩

/-- Folding is exact. What it gives for a constant is the value over the unbounded integers, and no
operation on the way overflows or divides by zero. So the bounds of a range are the exact values of
the arguments of the call that its loop runs over. -/
theorem folding_exact :
    (∀ (e : Expr) (v : Int64), e.evalInt = some v →
      e.integer = some v.toInt ∧ e.evaluation.value = some v ∧
        ∀ op ∈ e.evaluation.performed, op.Safe) ∧
    ∀ (source : String) (c : Comprehension), parse source = .ok c →
      ∃ ts, scan source.toList = .ok ts ∧
        ∀ g ∈ c.generators, ∀ r, g.source = .range r →
          ∃ (call : RangeCall) (bounds : List Int64), RunsOver ts g.var call.tokens ∧
            List.Forall₂ (Spells source.toList) call.arguments bounds ∧ r.HasBounds bounds := by
  constructor
  · intro e v hv
    have hvalue : e.evaluation.value = some v := (Expr.value_evaluation e).trans hv
    exact ⟨Expr.integer_of_evalInt hv, hvalue, Expr.safe_evaluation e v hvalue⟩
  · intro source c hparse
    obtain ⟨ts, hscan, hloops⟩ := loopsRead_of_parse hparse
    refine ⟨ts, hscan, fun g hg r hr => ?_⟩
    obtain ⟨call, bounds, hruns, hbounds, hrange, -⟩ := (hloops.each g hg).exists_rangeCall hr
    exact ⟨call, bounds, hruns, hbounds.imp fun _ _ => Denotes.spells, hrange⟩

def roundedQuotient : Expr :=
  .binary (.const (.int (-7))) .floorDiv (.const (.int 2))

theorem folding_exact_rounded :
    roundedQuotient.evalInt = some (-4) ∧ roundedQuotient.integer = some (-4) ∧
      (∀ op ∈ roundedQuotient.evaluation.performed, op.Safe) ∧
      parse "[x for x in range(-7 // 2, 17 % -5 + 20, ~-3)]" =
        .ok { ofElement .list "x" [⟨"x", .range ⟨-4, 17, 2⟩, []⟩] with
          provenance := origin "list_comp" } ∧
      ∃ ts, scan "[x for x in range(-7 // 2, 17 % -5 + 20, ~-3)]".toList = .ok ts ∧
        ∃ (call : RangeCall) (bounds : List Int64), RunsOver ts "x" call.tokens ∧
          List.Forall₂ (Spells "[x for x in range(-7 // 2, 17 % -5 + 20, ~-3)]".toList)
            call.arguments bounds ∧
          Range.HasBounds ⟨-4, 17, 2⟩ bounds := by
  have hvalue : roundedQuotient.evalInt = some (-4) := rfl
  obtain ⟨hinteger, -, hsafe⟩ := folding_exact.1 roundedQuotient (-4) hvalue
  have hparse : parse "[x for x in range(-7 // 2, 17 % -5 + 20, ~-3)]" =
      .ok { ofElement .list "x" [⟨"x", .range ⟨-4, 17, 2⟩, []⟩] with
        provenance := origin "list_comp" } := by cbv
  obtain ⟨ts, hscan, hranges⟩ := folding_exact.2 _ _ hparse
  exact ⟨hvalue, hinteger, hsafe, hparse, ts, hscan, hranges _ List.mem_cons_self _ rfl⟩

end Comprehend.Comprehension
