import Comprehend.Proofs.PlusPrinting
import Comprehend.Target.JuliaLiteral

/-! Displays of literals in Julia. They are written by rules of their own, which have no word for
none and spell floats in another way than the printer of expressions does; apart from these two, the
texts are the same. -/
namespace Comprehend

namespace Target.Julia

variable {e : Expr} {l : Literal} {p : Printer} {s : String} {xs : List Expr} {ss : List String}

/-- What has to be a constant for a display to be written: the expression itself, or its items. -/
def displayed : Expr → Option (List Expr)
  | .const l => some [.const l]
  | .tuple xs => some xs
  | .list xs => some xs
  | _ => none

def IsValue (e : Expr) : Prop :=
  ∃ l, e = .const l ∧ l ≠ .none

/-! Literals -/

theorem escape_eq (c : Char) : escape c = Dialect.julia.escape c := by
  unfold escape Dialect.escape
  by_cases hquote : c = '"'
  · simp [hquote]
  by_cases hslash : c = '\\'
  · simp [hslash]
  -- the dollar sign comes before the line feed here, and last of all there
  by_cases hdollar : c = '$'
  · simp [hdollar, Dialect.isJulia]
  simp [hquote, hslash, hdollar]

theorem quote_eq (s : String) : quote s = Dialect.julia.quote s := by
  have hescape : escape = Dialect.julia.escape := funext escape_eq
  rw [quote, hescape]
  rfl

theorem exists_literal_iff : (∃ s, literal l = .ok s) ↔ l ≠ .none := by
  cases l <;> simp [literal]

theorem literal_eq (h : literal l = .ok s) (hfloat : ∀ x, l ≠ .float x) :
    Dialect.julia.literal l = s := by
  cases l with
  | int n => exact Except.ok.inj h
  | float x => exact absurd rfl (hfloat x)
  | bool b => exact (by cases b <;> rfl : _ = _).trans (Except.ok.inj h)
  | str t => exact (quote_eq t).symm.trans (Except.ok.inj h)
  | none => cases h

/-! Items -/

theorem exists_item_iff : (∃ s, item e = .ok s) ↔ IsValue e := by
  cases e with
  | const l => simp [item, IsValue, exists_literal_iff]
  | _ => simp [item, IsValue]

theorem item_eq_print (h : item e = .ok s) (hfloat : ∀ x, e ≠ .const (.float x))
    (hp : p.dialect = .julia) : p.print e = s := by
  cases e with
  | const l =>
    rw [Printer.print, hp]
    exact literal_eq h fun x hx => hfloat x (hx ▸ rfl)
  | _ => cases h

theorem mapM_item_cons {x : Expr} :
    (x :: xs).mapM item = .ok ss ↔
      ∃ t ts, item x = .ok t ∧ xs.mapM item = .ok ts ∧ ss = t :: ts := by
  rw [List.mapM_cons]
  cases item x <;> cases xs.mapM item <;>
    simp [bind, Except.bind, pure, Except.pure, eq_comm (a := ss)]

theorem exists_mapM_item_iff : (∃ ss, xs.mapM item = .ok ss) ↔ ∀ x ∈ xs, IsValue x := by
  induction xs with
  | nil => simp [pure, Except.pure]
  | cons x xs ih =>
    rw [List.forall_mem_cons, ← ih, ← exists_item_iff]
    constructor
    · rintro ⟨ss, hss⟩
      obtain ⟨t, ts, ht, hts, -⟩ := mapM_item_cons.mp hss
      exact ⟨⟨t, ht⟩, ts, hts⟩
    · rintro ⟨⟨t, ht⟩, ts, hts⟩
      exact ⟨t :: ts, mapM_item_cons.mpr ⟨t, ts, ht, hts, rfl⟩⟩

theorem join_operands_eq (h : xs.mapM item = .ok ss) (hfloat : ∀ x, .const (.float x) ∉ xs)
    (hp : p.dialect = .julia) : Operand.join (p.operands xs) = commas ss := by
  have htexts : (p.operands xs).map (·.text) = ss := by
    induction xs generalizing ss with
    | nil => exact Except.ok.inj h
    | cons x xs ih =>
      obtain ⟨t, ts, ht, hts, rfl⟩ := mapM_item_cons.mp h
      have hx : p.print x = t :=
        item_eq_print ht (fun y hy => hfloat y (hy ▸ List.mem_cons_self)) hp
      rw [Printer.operands, List.map_cons, hx,
        ih hts fun y hy => hfloat y (List.mem_cons_of_mem x hy)]
  rw [Operand.join, htexts]

/-! Displays -/

theorem display_tuple_eq_ok : display (.tuple xs) = .ok s ↔
    ∃ ss, xs.mapM item = .ok ss ∧
      s = if xs.length = 1 then "(" ++ commas ss ++ ",)" else round (commas ss) := by
  rcases xs with _ | ⟨x, _ | ⟨y, ys⟩⟩
  · simp [display, bind, Except.bind, pure, Except.pure, eq_comm]
  · rw [display]
    cases hx : item x <;> simp [hx, bind, Except.bind, pure, Except.pure, commas, eq_comm]
  · rw [display]
    · cases List.mapM item (x :: y :: ys) <;>
        simp [bind, Except.bind, pure, Except.pure, eq_comm]
    · simp

theorem display_list_eq_ok : display (.list xs) = .ok s ↔
    ∃ ss, xs.mapM item = .ok ss ∧ s = "[" ++ commas ss ++ "]" := by
  rw [display]
  cases xs.mapM item <;> simp [bind, Except.bind, pure, Except.pure, eq_comm]

/-- A display can be written if and only if it shows constants other than none. Where none of them
is a float, the text is that of the printer. -/
theorem display_agrees_print {parts : List Expr} (he : displayed e = some parts) :
    ((∃ s, display e = .ok s) ↔ ∀ x ∈ parts, IsValue x) ∧
      ∀ s, display e = .ok s → (∀ x, .const (.float x) ∉ parts) →
        ∀ p : Printer, p.dialect = .julia → p.print e = s := by
  cases e with
  | const l =>
    obtain rfl := Option.some.inj he
    refine ⟨?_, fun s hs hfloat p hp => item_eq_print hs (fun x hx => hfloat x ?_) hp⟩
    · rw [List.forall_mem_singleton]
      exact exists_item_iff (e := .const l)
    · rw [hx]
      exact List.mem_singleton_self _
  | tuple xs =>
    obtain rfl := Option.some.inj he
    refine ⟨?_, fun s hs hfloat p hp => ?_⟩
    · simp only [← exists_mapM_item_iff, display_tuple_eq_ok]
      constructor
      · rintro ⟨_, ss, hss, -⟩
        exact ⟨ss, hss⟩
      · rintro ⟨ss, hss⟩
        exact ⟨_, ss, hss, rfl⟩
    · obtain ⟨ss, hss, rfl⟩ := display_tuple_eq_ok.mp hs
      rw [Printer.print, Printer.tuple, hp, join_operands_eq hss hfloat hp,
        Printer.length_operands]
  | list xs =>
    obtain rfl := Option.some.inj he
    refine ⟨?_, fun s hs hfloat p hp => ?_⟩
    · simp only [← exists_mapM_item_iff, display_list_eq_ok]
      constructor
      · rintro ⟨_, ss, hss, -⟩
        exact ⟨ss, hss⟩
      · rintro ⟨ss, hss⟩
        exact ⟨_, ss, hss, rfl⟩
    · obtain ⟨ss, hss, rfl⟩ := display_list_eq_ok.mp hs
      rw [Printer.print, Printer.list, hp, join_operands_eq hss hfloat hp]
  | _ => cases he

/-- A tuple of one string with every character that is escaped. -/
theorem display_agrees_print_single :
    displayed (.tuple [.const (.str "\"$\\\n\t'")]) = some [.const (.str "\"$\\\n\t'")] ∧
      display (.tuple [.const (.str "\"$\\\n\t'")]) = .ok "(\"\\\"\\$\\\\\\n\\t'\",)" ∧
      Printer.print { dialect := .julia } (.tuple [.const (.str "\"$\\\n\t'")]) =
        "(\"\\\"\\$\\\\\\n\\t'\",)" := by
  have hdisplay : display (.tuple [.const (.str "\"$\\\n\t'")]) =
      .ok "(\"\\\"\\$\\\\\\n\\t'\",)" := by decide
  exact ⟨rfl, hdisplay,
    (display_agrees_print rfl).2 _ hdisplay (by simp) { dialect := .julia } rfl⟩

/-! Faults of displays -/

def isConst : Expr → Bool
  | .const _ => true
  | _ => false

def isFlat : Expr → Bool
  | .tuple xs => xs.all isConst
  | .list xs => xs.all isConst
  | _ => false

def failure? {α : Type} : Except LiteralFault α → Option LiteralFault
  | .ok _ => none
  | .error f => some f

theorem fault?_const (l : Literal) : fault? (.const l) = failure? (literal l) := by
  rw [fault?]
  cases literal l <;> rfl

theorem faultIn?_eq_failure? (h : xs.all isConst = true) :
    faultIn? xs = failure? (xs.mapM item) := by
  induction xs with
  | nil => rfl
  | cons x xs ih =>
    obtain ⟨hx, hxs⟩ := Bool.and_eq_true_iff.mp ((List.all_cons ..).symm.trans h)
    cases x with
    | const l =>
      rw [faultIn?, ih hxs, fault?_const, List.mapM_cons, item]
      cases literal l <;> cases xs.mapM item <;> rfl
    | _ => cases hx

/-- Checked item by item or written as a display, constants are refused for the same reason. -/
theorem fault?_eq_failure? (h : isFlat e = true) : fault? e = failure? (display e) := by
  cases e with
  | tuple xs =>
    rw [fault?, faultIn?_eq_failure? h]
    rcases xs with _ | ⟨x, _ | ⟨y, ys⟩⟩
    · rfl
    · rw [display, List.mapM_cons]
      cases item x <;> rfl
    · rw [display]
      · cases List.mapM item (x :: y :: ys) <;> rfl
      · simp
  | list xs =>
    rw [fault?, faultIn?_eq_failure? h, display]
    cases xs.mapM item <;> rfl
  | _ => cases h

end Target.Julia

end Comprehend
