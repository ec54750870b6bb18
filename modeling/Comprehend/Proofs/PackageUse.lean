import Mathlib.Tactic.Tauto
import Comprehend.Proofs.Occurrences
import Comprehend.Proofs.Operands

/-! Packages of expressions. In Go some operators are functions of a package; an expression brings
in the packages of its operators and no others, and each of them stands in its text. -/
namespace Comprehend

/-! Packages of an expression -/

def Expr.isMath : Expr → Bool
  | .binary _ .pow _ => true
  | .call (.name n) [_] => n == "abs"
  | _ => false

def Expr.isMembership : Expr → Bool
  | .compare _ .isIn _ => true
  | .compare _ .notIn _ => true
  | _ => false

namespace Packages

def ofNode (d : Dialect) : Expr → Packages
  | .binary _ op _ => ofBinary d op
  | .compare _ op _ => ofCompare d op
  | .call f args => ofCall d f args
  | _ => {}

/-- A question that two sets of packages answer together. -/
structure Sums (f : Packages → Bool) : Prop where
  none : f {} = false
  union (a b : Packages) : f (a.union b) = (f a || f b)

theorem sums_math : Sums math := ⟨rfl, fun _ _ => rfl⟩

theorem sums_slices : Sums slices := ⟨rfl, fun _ _ => rfl⟩

variable {f : Packages → Bool} {d : Dialect}

theorem Sums.ofExprs (hf : Sums f) (es : List Expr) :
    f (ofExprs d es) = es.any fun e => f (ofExpr d e) := by
  induction es with
  | nil => rw [Packages.ofExprs, hf.none]; rfl
  | cons e es ih => rw [Packages.ofExprs, hf.union, ih, List.any_cons]

/-- A node brings in its own packages and those of its operands. -/
theorem Sums.ofExpr (hf : Sums f) (e : Expr) :
    f (ofExpr d e) = (f (ofNode d e) || e.operands.any fun o => f (Packages.ofExpr d o)) := by
  cases e <;>
    simp [Packages.ofExpr, ofNode, Expr.operands, hf.union, hf.none, hf.ofExprs]

theorem Sums.anyNode (hf : Sums f) (e : Expr) :
    f (Packages.ofExpr d e) = e.anyNode fun n => f (ofNode d n) := by
  induction e using Expr.induction_on_operands with
  | h e ih =>
    rw [hf.ofExpr, Bool.eq_iff_iff, Expr.anyNode_eq_true, Bool.or_eq_true, List.any_eq_true]
    exact or_congr_right (exists_congr fun o => and_congr_right fun ho => by rw [ih o ho])

theorem ofName?_eq_abs {n : String} : Printer.Builtin.ofName? n = some .abs ↔ n = "abs" := by
  unfold Printer.Builtin.ofName?
  split <;> simp_all

theorem ofNode_go (e : Expr) : ofNode .go e = ⟨e.isMath, e.isMembership⟩ := by
  cases e with
  | binary l op r => cases op <;> rfl
  | compare l op r => cases op <;> rfl
  | call f args =>
    cases f with
    | name n =>
      rcases args with _ | ⟨a, _ | ⟨b, args⟩⟩
      · simp [ofNode, ofCall, Expr.isMath, Expr.isMembership]
      · simp [ofNode, ofCall, Expr.isMath, Expr.isMembership, ofName?_eq_abs, beq_eq_decide]
      · simp [ofNode, ofCall, Expr.isMath, Expr.isMembership]
    | _ => rfl
  | _ => rfl

/-- The packages of an expression, told from its nodes. -/
theorem ofExpr_go (e : Expr) :
    ofExpr .go e = ⟨e.anyNode Expr.isMath, e.anyNode Expr.isMembership⟩ := by
  have hmath := sums_math.anyNode (d := .go) e
  have hslices := sums_slices.anyNode (d := .go) e
  simp only [ofNode_go] at hmath hslices
  exact congrArg₂ Packages.mk hmath hslices

theorem Sums.foldl (hf : Sums f) (as : List Packages) (a : Packages) :
    f (as.foldl Packages.union a) = (f a || as.any f) := by
  induction as generalizing a with
  | nil => simp
  | cons b as ih => rw [List.foldl_cons, ih, hf.union, List.any_cons, Bool.or_assoc]

theorem mem_names {pkg : String} {a : Packages} :
    pkg ∈ a.names ↔ a.math = true ∧ pkg = "math" ∨ a.slices = true ∧ pkg = "slices" := by
  unfold names
  cases a.math <;> cases a.slices <;> simp

theorem sums_mem (pkg : String) : Sums fun a => pkg ∈ a.names where
  none := by simp [names]
  union a b := by
    simp only [← Bool.decide_or, decide_eq_decide, mem_names, union, Bool.or_eq_true]
    tauto

theorem mem_names_ofExpr {pkg : String} {e : Expr} :
    pkg ∈ (ofExpr d e).names ↔
      pkg ∈ (ofNode d e).names ∨ ∃ o ∈ e.operands, pkg ∈ (ofExpr d o).names := by
  simpa using congrArg (· = true) ((sums_mem pkg).ofExpr (d := d) e)

end Packages

/-! Texts of operands -/

namespace Occurs

@[grind .] theorem within (o : Operand) (d : Dialect) (n : Nat) : Occurs o.text (o.within d n) := by
  unfold Operand.within
  split
  · exact ((refl o.text).behind "(").before ")"
  · exact refl o.text

theorem join {o : Operand} {os : List Operand} (h : o ∈ os) : Occurs o.text (Operand.join os) :=
  intercalate (List.mem_map_of_mem h) ", "

end Occurs

namespace Printer

variable {p : Printer}

theorem mem_operands {e : Expr} {es : List Expr} (h : e ∈ es) :
    ⟨e, p.print e⟩ ∈ p.operands es := by
  induction es with
  | nil => cases h
  | cons d es ih =>
    rcases List.mem_cons.mp h with rfl | h
    · exact List.mem_cons_self
    · exact List.mem_cons_of_mem _ (ih h)

theorem occurs_unary (op : UnaryOp) (e : Operand) : Occurs e.text (p.unary op e) := by
  cases op with
  | pos => exact Occurs.refl e.text
  | _ => exact (Occurs.within e _ _).behind _

theorem plain_go (hp : p.dialect = .go) (l : Operand) (op : BinOp) (r : Operand) :
    p.plain l op r = l.within .go op.precedence ++ " " ++ binarySymbol .go op ++ " " ++
      r.within .go (op.precedence + 1) := by
  unfold plain
  rw [hp]
  cases op <;> rfl

@[grind .] theorem occurs_remainder_left (a b : String) : Occurs a (remainder a b) := by
  have hlead : Occurs a ("(" ++ a ++ " % " ++ b) := by grind
  unfold remainder
  grind

@[grind .] theorem occurs_remainder_right (a b : String) : Occurs b (remainder a b) :=
  (Occurs.refl b).behind _

theorem occurs_floored (hp : p.dialect = .go) (l : Operand) (op : BinOp) (r : Operand) :
    Occurs l.text (p.floored l op r) ∧ Occurs r.text (p.floored l op r) := by
  have hleft : Occurs l.text (remainder (l.within .go 11) (r.within .go 12)) :=
    (Occurs.within l .go 11).trans (occurs_remainder_left ..)
  have hright : Occurs r.text (remainder (l.within .go 11) (r.within .go 12)) :=
    (Occurs.within r .go 12).trans (occurs_remainder_right ..)
  unfold floored
  rw [hp]
  dsimp only
  split <;> grind

/-- Both operands of an operator are shown. -/
theorem occurs_binary (hp : p.dialect = .go) (l : Operand) (op : BinOp) (r : Operand) :
    Occurs l.text (p.binary l op r) ∧ Occurs r.text (p.binary l op r) := by
  have hplain : Occurs l.text (p.plain l op r) ∧ Occurs r.text (p.plain l op r) := by
    rw [plain_go hp]
    grind
  have hfloored := occurs_floored hp l op r
  unfold binary
  split
  next =>
    unfold power
    rw [hp]
    grind
  next => split; exacts [hplain, hfloored]
  next => split; exacts [hplain, hfloored]
  next => exact hplain

theorem occurs_boolOp (op : BoolOp) (l r : Operand) :
    Occurs l.text (p.boolOp op l r) ∧ Occurs r.text (p.boolOp op l r) := by
  unfold boolOp
  grind

theorem occurs_ternary (hp : p.dialect = .go) (cond yes no : Operand) :
    Occurs cond.text (p.ternary cond yes no) ∧ Occurs yes.text (p.ternary cond yes no) ∧
      Occurs no.text (p.ternary cond yes no) := by
  have hcond : Occurs cond.text
      ("func() " ++ p.intType ++ " \x7b if " ++ cond.text ++ " \x7b return ") := by grind
  unfold ternary
  rw [hp]
  grind

theorem occurs_subscript (hp : p.dialect = .go) (e index : Operand) :
    Occurs e.text (p.subscript e index) ∧ Occurs index.text (p.subscript e index) := by
  unfold subscript
  rw [hp]
  dsimp only
  grind

/-- A test of membership is a function of a package. Of a display only the items are shown, in
brackets of their own. -/
theorem membership_go (hp : p.dialect = .go) (item : Operand) (negated : Bool)
    (container : Operand) (items : List Operand) :
    ∃ hay, Occurs (if isDisplay container.expr then Operand.join items else container.text) hay ∧
      Occurs ("slices.Contains(" ++ hay ++ ", " ++ item.text ++ ")")
        (p.membership item negated container items) := by
  unfold membership
  rw [hp]
  refine ⟨if isDisplay container.expr then
    "[]" ++ p.intType ++ "\x7b" ++ Operand.join items ++ "\x7d" else container.text, ?_, ?_⟩
  · split <;> grind
  · dsimp only
    cases negated <;> grind

theorem occurs_membership (hp : p.dialect = .go) (item : Operand) (negated : Bool)
    (container : Operand) (items : List Operand) :
    Occurs item.text (p.membership item negated container items) ∧
      Occurs (if isDisplay container.expr then Operand.join items else container.text)
        (p.membership item negated container items) := by
  obtain ⟨hay, hhay, htest⟩ := membership_go hp item negated container items
  have hitem : Occurs item.text ("slices.Contains(" ++ hay ++ ", " ++ item.text ++ ")") := by grind
  have hcontainer : Occurs hay ("slices.Contains(" ++ hay ++ ", " ++ item.text ++ ")") := by grind
  exact ⟨hitem.trans htest, (hhay.trans hcontainer).trans htest⟩

theorem occurs_compare (hp : p.dialect = .go) (l : Operand) (op : CmpOp) (r : Operand)
    (items : List Operand) :
    Occurs l.text (p.compare l op r items) ∧
      (Occurs r.text (p.compare l op r items) ∨
        isDisplay r.expr = true ∧ Occurs (Operand.join items) (p.compare l op r items)) := by
  have hmember (negated : Bool) := occurs_membership hp l negated r items
  unfold compare
  split <;> grind

theorem occurs_list (hp : p.dialect = .go) (items : List Operand) :
    Occurs (Operand.join items) (p.list items) := by
  unfold list
  rw [hp]
  grind

theorem occurs_tuple (hp : p.dialect = .go) (items : List Operand) :
    Occurs (Operand.join items) (p.tuple items) := by
  unfold tuple
  rw [hp]
  grind

theorem occurs_extremum (hp : p.dialect = .go) (least : Bool) (first : Operand)
    (rest : List Operand) :
    Occurs (Operand.join (first :: rest)) (p.extremum least first rest) := by
  unfold extremum
  rw [hp]
  grind

theorem occurs_builtin (hp : p.dialect = .go) {f : Expr} {args : List Operand} {s : String}
    (h : p.builtin? f args = some s) : (∃ n, f = .name n) ∧ ∀ a ∈ args, Occurs a.text s := by
  unfold builtin? at h
  split at h
  next n =>
    refine ⟨⟨n, rfl⟩, fun a ha => ?_⟩
    split at h
    next e _ =>
      obtain rfl := Option.some.inj h
      rw [List.mem_singleton.mp ha, absolute, hp]
      grind
    next e _ =>
      obtain rfl := Option.some.inj h
      rw [List.mem_singleton.mp ha, length, hp]
      grind
    next =>
      obtain rfl := Option.some.inj h
      exact (Occurs.join ha).trans (occurs_extremum hp ..)
    next =>
      obtain rfl := Option.some.inj h
      exact (Occurs.join ha).trans (occurs_extremum hp ..)
    next => cases h
  next => cases h

/-- The function is shown unless it is a builtin, and all arguments are. -/
theorem occurs_call (hp : p.dialect = .go) (f : Operand) (args : List Operand) :
    (Occurs f.text (p.call f args) ∨ ∃ n, f.expr = .name n) ∧
      ∀ a ∈ args, Occurs a.text (p.call f args) := by
  unfold call
  split
  next s hs =>
    obtain ⟨hname, hargs⟩ := occurs_builtin hp hs
    exact ⟨.inr hname, hargs⟩
  next => exact ⟨.inl (by grind), fun a ha => by grind [Occurs.join ha]⟩

/-- An operand is shown in the text of the whole; or it has no package by itself, and its own
operands are shown. -/
theorem occurs_operand (hp : p.dialect = .go) {o e : Expr} (ho : o ∈ e.operands) :
    Occurs (p.print o) (p.print e) ∨
      Packages.ofNode .go o = {} ∧ ∀ i ∈ o.operands, Occurs (p.print i) (p.print e) := by
  cases e with
  | const l => cases ho
  | name n => cases ho
  | unary op e =>
    obtain rfl := List.mem_singleton.mp ho
    exact .inl (occurs_unary op ⟨o, p.print o⟩)
  | binary l op r =>
    obtain ⟨hl, hr⟩ := occurs_binary hp ⟨l, p.print l⟩ op ⟨r, p.print r⟩
    rcases List.mem_pair.mp ho with rfl | rfl
    exacts [.inl hl, .inl hr]
  | boolOp op l r =>
    obtain ⟨hl, hr⟩ := occurs_boolOp (p := p) op ⟨l, p.print l⟩ ⟨r, p.print r⟩
    rcases List.mem_pair.mp ho with rfl | rfl
    exacts [.inl hl, .inl hr]
  | compare l op r =>
    obtain ⟨hl, hr⟩ := occurs_compare hp ⟨l, p.print l⟩ op ⟨r, p.print r⟩ (p.parts r)
    rcases List.mem_pair.mp ho with rfl | rfl
    · exact .inl hl
    · refine hr.imp id fun ⟨hdisplay, hitems⟩ => ?_
      cases o with
      | tuple items => exact ⟨rfl, fun i hi => (Occurs.join (mem_operands hi)).trans hitems⟩
      | list items => exact ⟨rfl, fun i hi => (Occurs.join (mem_operands hi)).trans hitems⟩
      | _ => cases hdisplay
  | ternary cond yes no =>
    obtain ⟨hcond, hyes, hno⟩ :=
      occurs_ternary hp ⟨cond, p.print cond⟩ ⟨yes, p.print yes⟩ ⟨no, p.print no⟩
    simp only [Expr.operands, List.mem_cons, List.not_mem_nil, or_false] at ho
    rcases ho with rfl | rfl | rfl
    exacts [.inl hcond, .inl hyes, .inl hno]
  | call f args =>
    obtain ⟨hf, hargs⟩ := occurs_call hp ⟨f, p.print f⟩ (p.operands args)
    rcases List.mem_cons.mp ho with rfl | ho
    · refine hf.imp id ?_
      rintro ⟨n, rfl⟩
      exact ⟨rfl, by simp [Expr.operands]⟩
    · exact .inl (hargs ⟨o, p.print o⟩ (mem_operands ho))
  | member e field =>
    obtain rfl := List.mem_singleton.mp ho
    rw [print]
    exact .inl (((Occurs.within ⟨o, p.print o⟩ _ _).before ".").before field)
  | subscript e i =>
    obtain ⟨he, hi⟩ := occurs_subscript hp ⟨e, p.print e⟩ ⟨i, p.print i⟩
    rcases List.mem_pair.mp ho with rfl | rfl
    exacts [.inl he, .inl hi]
  | tuple items => exact .inl ((Occurs.join (mem_operands ho)).trans (occurs_tuple hp _))
  | list items => exact .inl ((Occurs.join (mem_operands ho)).trans (occurs_list hp _))

theorem cases_of_isMath {e : Expr} (h : e.isMath = true) :
    (∃ l r, e = .binary l .pow r) ∨ ∃ a, e = .call (.name "abs") [a] := by
  unfold Expr.isMath at h
  split at h
  next l r => exact .inl ⟨l, r, rfl⟩
  next n a => exact .inr ⟨a, by rw [beq_iff_eq.mp h]⟩
  next => cases h

theorem cases_of_isMembership {e : Expr} (h : e.isMembership = true) :
    ∃ l r, e = .compare l .isIn r ∨ e = .compare l .notIn r := by
  unfold Expr.isMembership at h
  split at h
  next l r => exact ⟨l, r, .inl rfl⟩
  next l r => exact ⟨l, r, .inr rfl⟩
  next => cases h

/-- A package that a node brings in by itself stands in its text, with a dot behind it. -/
theorem occurs_ofNode (hp : p.dialect = .go) {e : Expr} {pkg : String}
    (h : pkg ∈ (Packages.ofNode .go e).names) : Occurs (pkg ++ ".") (p.print e) := by
  rw [Packages.ofNode_go, Packages.mem_names] at h
  rcases h with ⟨hmath, rfl⟩ | ⟨hmember, rfl⟩
  · rcases cases_of_isMath hmath with ⟨l, r, rfl⟩ | ⟨a, rfl⟩
    · have hpow : Occurs "math." "(math.Pow(float64(" := by decide
      rw [print, binary, power, hp]
      grind
    · have habs : Occurs "math." "(math.Abs(float64(" := by decide
      have hcall : p.print (.call (.name "abs") [a]) = p.absolute ⟨a, p.print a⟩ := rfl
      rw [hcall, absolute, hp]
      grind
  · have hcontains (s : String) : Occurs "slices." ("slices.Contains(" ++ s) :=
      Occurs.before (by decide) s
    obtain ⟨l, r, he⟩ := cases_of_isMembership hmember
    have hmembership (negated : Bool) :
        Occurs "slices." (p.membership ⟨l, p.print l⟩ negated ⟨r, p.print r⟩ (p.parts r)) := by
      obtain ⟨hay, -, htest⟩ := membership_go hp ⟨l, p.print l⟩ negated ⟨r, p.print r⟩ (p.parts r)
      exact ((((hcontains hay).before _).before _).before _).trans htest
    rcases he with rfl | rfl
    · rw [print, compare]
      exact hmembership false
    · rw [print, compare]
      exact hmembership true

/-- A package of an expression stands in the text, with a dot behind it. -/
theorem occurs_package (hp : p.dialect = .go) {pkg : String} (e : Expr)
    (h : pkg ∈ (Packages.ofExpr .go e).names) : Occurs (pkg ++ ".") (p.print e) := by
  -- an operand may be hidden, so the claim is carried for an expression and its operands
  suffices hboth : ∀ e : Expr, (pkg ∈ (Packages.ofExpr .go e).names →
      Occurs (pkg ++ ".") (p.print e)) ∧ ∀ o ∈ e.operands, pkg ∈ (Packages.ofExpr .go o).names →
        Occurs (pkg ++ ".") (p.print o) from (hboth e).1 h
  intro e
  induction e using Expr.induction_on_operands with
  | h e ih =>
    refine ⟨fun h => ?_, fun o ho => (ih o ho).1⟩
    rcases Packages.mem_names_ofExpr.mp h with hnode | ⟨o, ho, h⟩
    · exact occurs_ofNode hp hnode
    · rcases occurs_operand hp ho with hshown | ⟨hnone, hshown⟩
      · exact ((ih o ho).1 h).trans hshown
      · rw [Packages.mem_names_ofExpr, hnone] at h
        rcases h with hnode | ⟨i, hi, h⟩
        · cases hnode
        · exact ((ih o ho).2 i hi h).trans (hshown i hi)

theorem occurs_packageOfText (hp : p.dialect = .go) {pkg t : String}
    (h : pkg ∈ (Packages.ofText .go t).names) : Occurs (pkg ++ ".") (p.printText t) := by
  unfold Packages.ofText at h
  split at h
  next e he =>
    rw [printText, he]
    exact occurs_package hp e h
  next => cases h

end Printer

end Comprehend
