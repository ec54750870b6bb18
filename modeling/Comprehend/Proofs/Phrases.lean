import Comprehend.Proofs.Grammar

/-! What phrases of the grammar look like from outside: with which tokens they begin, which tokens
never stand in them, and from which tokens the leaves of their trees come. -/
namespace Comprehend.Grammar

/-- The token may open a phrase of the given level, on the scale of `Expr.precedence`. -/
def opens (level : Nat) : TokenKind → Bool
  | .kwNot => level ≤ 4
  | .minus | .plus | .tilde => level ≤ 12
  | .int _ | .float _ | .str _ | .kwTrue | .kwFalse | .kwNone | .ident _ | .lparen | .lbracket => true
  | _ => false

def Opens (level : Nat) (ks : List TokenKind) : Prop :=
  ∃ k ls, ks = k :: ls ∧ opens level k = true

theorem Opens.append {level : Nat} {ks : List TokenKind} (h : Opens level ks)
    (ls : List TokenKind) : Opens level (ks ++ ls) := by
  obtain ⟨k, ms, rfl, hk⟩ := h
  exact ⟨k, ms ++ ls, rfl, hk⟩

theorem Opens.loosen {m n : Nat} {ks : List TokenKind} (h : Opens n ks) (hmn : m ≤ n) :
    Opens m ks := by
  obtain ⟨k, ls, rfl, hk⟩ := h
  refine ⟨k, ls, rfl, ?_⟩
  cases k <;> simp_all [opens] <;> omega

mutual

theorem Expression.opens {ks : List TokenKind} {e : Expr} : Expression ks e → Opens 4 ks
  | .plain h => h.opens
  | .conditional h _ _ => h.opens.append _

theorem Disjunction.opens {ks : List TokenKind} {e : Expr} : Disjunction ks e → Opens 4 ks
  | .one h => h.opens
  | .more h _ => h.opens.append _

theorem Conjunction.opens {ks : List TokenKind} {e : Expr} : Conjunction ks e → Opens 4 ks
  | .one h => h.opens
  | .more h _ => h.opens.append _

theorem Negation.opens {ks : List TokenKind} {e : Expr} : Negation ks e → Opens 4 ks
  | .plain h => h.opens.loosen (by decide)
  | .not _ => ⟨_, _, rfl, rfl⟩

theorem Comparison.opens {ks : List TokenKind} {e : Expr} : Comparison ks e → Opens 12 ks
  | .plain h => h.opens
  | .chain h => h.opens

theorem Chain.opens {ks : List TokenKind} {e l : Expr} : Chain ks e l → Opens 12 ks
  | .link h _ _ => h.opens.append _
  | .more h _ _ => h.opens.append _

theorem Ladder.opens {n : Nat} {ks : List TokenKind} {e : Expr} : Ladder n ks e → Opens 12 ks
  | .sign h => h.opens
  | .tighter h => h.opens
  | .binary h _ _ => h.opens.append _

theorem Sign.opens {ks : List TokenKind} {e : Expr} : Sign ks e → Opens 12 ks
  | .power h => h.opens.loosen (by decide)
  | .fold _ _ | .minus _ _ | .plus _ | .tilde _ => ⟨_, _, rfl, rfl⟩

theorem Power.opens {ks : List TokenKind} {e : Expr} : Power ks e → Opens 14 ks
  | .plain h => h.opens
  | .power h _ => h.opens.append _

theorem Trailer.opens {ks : List TokenKind} {e : Expr} : Trailer ks e → Opens 14 ks
  | .primary h => h.opens
  | .call h _ | .member h | .subscript h _ => h.opens.append _

theorem Primary.opens {ks : List TokenKind} {e : Expr} : Primary ks e → Opens 14 ks
  | .int _ | .float _ | .str _ | .yes | .no | .nothing | .name _ => ⟨_, _, rfl, rfl⟩
  | .group _ | .tuple _ _ | .list _ => ⟨_, _, rfl, rfl⟩

end

/-- Tokens that belong to statements and comprehensions and never stand in an expression. -/
def isForeign : TokenKind → Bool
  | .kwFor | .kwLambda | .lbrace | .rbrace | .colon | .semicolon | .assign | .newline | .eof => true
  | _ => false

def Native (ks : List TokenKind) : Prop :=
  ∀ k ∈ ks, isForeign k = false

@[simp] theorem native_nil : Native [] := by simp [Native]

@[simp] theorem native_cons {k : TokenKind} {ks : List TokenKind} :
    Native (k :: ks) ↔ isForeign k = false ∧ Native ks := by
  simp [Native]

@[simp] theorem native_append {ks ls : List TokenKind} :
    Native (ks ++ ls) ↔ Native ks ∧ Native ls := by
  simp [Native, or_imp, forall_and]

theorem native_rung {n : Nat} {k : TokenKind} {op : BinOp} (h : (k, op) ∈ rung n) :
    isForeign k = false := by
  unfold rung at h
  split at h <;> simp at h <;> grind [isForeign]

theorem native_comparisons {w : List TokenKind} {op : CmpOp} (h : (w, op) ∈ comparisons) :
    Native w := by
  simp only [comparisons, List.mem_cons, Prod.mk.injEq, List.not_mem_nil, or_false] at h
  rcases h with h | h | h | h | h | h | h | h | h | h <;> obtain ⟨rfl, -⟩ := h <;> simp [isForeign]

mutual

theorem Expression.native {ks : List TokenKind} {e : Expr} : Expression ks e → Native ks
  | .plain h => h.native
  | .conditional h g f => by simp [h.native, g.native, f.native, isForeign]

theorem Disjunction.native {ks : List TokenKind} {e : Expr} : Disjunction ks e → Native ks
  | .one h => h.native
  | .more h g => by simp [h.native, g.native, isForeign]

theorem Conjunction.native {ks : List TokenKind} {e : Expr} : Conjunction ks e → Native ks
  | .one h => h.native
  | .more h g => by simp [h.native, g.native, isForeign]

theorem Negation.native {ks : List TokenKind} {e : Expr} : Negation ks e → Native ks
  | .plain h => h.native
  | .not h => by simp [h.native, isForeign]

theorem Comparison.native {ks : List TokenKind} {e : Expr} : Comparison ks e → Native ks
  | .plain h => h.native
  | .chain h => h.native

theorem Chain.native {ks : List TokenKind} {e l : Expr} : Chain ks e l → Native ks
  | .link h hw g => by simp [h.native, native_comparisons hw, g.native]
  | .more h hw g => by simp [h.native, native_comparisons hw, g.native]

theorem Ladder.native {n : Nat} {ks : List TokenKind} {e : Expr} : Ladder n ks e → Native ks
  | .sign h => h.native
  | .tighter h => h.native
  | .binary h hk g => by simp [h.native, native_rung hk, g.native]

theorem Sign.native {ks : List TokenKind} {e : Expr} : Sign ks e → Native ks
  | .power h => h.native
  | .fold h _ | .minus h _ | .plus h | .tilde h => by simp [h.native, isForeign]

theorem Power.native {ks : List TokenKind} {e : Expr} : Power ks e → Native ks
  | .plain h => h.native
  | .power h g => by simp [h.native, g.native, isForeign]

theorem Trailer.native {ks : List TokenKind} {e : Expr} : Trailer ks e → Native ks
  | .primary h => h.native
  | .call h g => by simp [h.native, g.native, isForeign]
  | .member h => by simp [h.native, isForeign]
  | .subscript h g => by simp [h.native, g.native, isForeign]

theorem Primary.native {ks : List TokenKind} {e : Expr} : Primary ks e → Native ks
  | .int _ | .float _ | .str _ | .yes | .no | .nothing | .name _ => by simp [isForeign]
  | .group h => by simp [h.native, isForeign]
  | .tuple h _ => by simp [h.native, isForeign]
  | .list h => by simp [h.native, isForeign]

theorem Items.native {ks : List TokenKind} {es : List Expr} {comma : Bool} :
    Items ks es comma → Native ks
  | .empty => by simp
  | .series h => h.native

theorem Series.native {ks : List TokenKind} {es : List Expr} {comma : Bool} :
    Series ks es comma → Native ks
  | .last h => h.native
  | .comma h => by simp [h.native, isForeign]
  | .more h g => by simp [h.native, g.native, isForeign]

end

/-- Every integer and every name under signs and binary operators has the property. -/
def LeafWise (int : Int64 → Prop) (name : String → Prop) : Expr → Prop
  | .const (.int n) => int n
  | .name n => name n
  | .unary _ e => LeafWise int name e
  | .binary l _ r => LeafWise int name l ∧ LeafWise int name r
  | _ => True

theorem LeafWise.imp {int int' : Int64 → Prop} {name name' : String → Prop}
    (hint : ∀ n, int n → int' n) (hname : ∀ n, name n → name' n) :
    ∀ {e : Expr}, LeafWise int name e → LeafWise int' name' e
  | .const (.int n), h => hint n h
  | .const (.float _), _ | .const (.bool _), _ | .const (.str _), _ | .const .none, _ => trivial
  | .name n, h => hname n h
  | .unary _ e, h => LeafWise.imp (e := e) hint hname h
  | .binary l _ r, h =>
    ⟨LeafWise.imp (e := l) hint hname h.1, LeafWise.imp (e := r) hint hname h.2⟩
  | .boolOp _ _ _, _ | .compare _ _ _, _ | .ternary _ _ _, _ | .call _ _, _ => trivial
  | .member _ _, _ | .subscript _ _, _ | .tuple _, _ | .list _, _ => trivial

/-- The leaves of the tree come from the tokens; a sign may have gone into an integer. -/
def Grown (ks : List TokenKind) : Expr → Prop :=
  LeafWise (fun n => ∃ m, .int m ∈ ks ∧ n.toInt.natAbs = m.toInt.natAbs) (.ident · ∈ ks)

theorem Grown.mono {ks ls : List TokenKind} {e : Expr} (h : Grown ks e) (hsub : ks ⊆ ls) :
    Grown ls e :=
  LeafWise.imp (fun _ ⟨m, hm, hn⟩ => ⟨m, hsub hm, hn⟩) (fun _ hn => hsub hn) h

theorem Grown.left {ks ls : List TokenKind} {e : Expr} (h : Grown ks e) : Grown (ks ++ ls) e :=
  h.mono (List.subset_append_left ks ls)

theorem Grown.right {ks ls : List TokenKind} {e : Expr} (h : Grown ls e) : Grown (ks ++ ls) e :=
  h.mono (List.subset_append_right ks ls)

theorem Grown.behind {k : TokenKind} {ks : List TokenKind} {e : Expr} (h : Grown ks e) :
    Grown (k :: ks) e :=
  h.mono (List.subset_cons_self k ks)

mutual

theorem Expression.grown {ks : List TokenKind} {e : Expr} : Expression ks e → Grown ks e
  | .plain h => h.grown
  | .conditional _ _ _ => trivial

theorem Disjunction.grown {ks : List TokenKind} {e : Expr} : Disjunction ks e → Grown ks e
  | .one h => h.grown
  | .more _ _ => trivial

theorem Conjunction.grown {ks : List TokenKind} {e : Expr} : Conjunction ks e → Grown ks e
  | .one h => h.grown
  | .more _ _ => trivial

theorem Negation.grown {ks : List TokenKind} {e : Expr} : Negation ks e → Grown ks e
  | .plain h => h.grown
  | .not h => h.grown.behind

theorem Comparison.grown {ks : List TokenKind} {e : Expr} : Comparison ks e → Grown ks e
  | .plain h => h.grown
  | .chain (.link _ _ _) => trivial
  | .chain (.more _ _ _) => trivial

theorem Ladder.grown {n : Nat} {ks : List TokenKind} {e : Expr} : Ladder n ks e → Grown ks e
  | .sign h => h.grown
  | .tighter h => h.grown
  | .binary h _ g => ⟨h.grown.left, g.grown.behind.right⟩

theorem Sign.grown {ks : List TokenKind} {e : Expr} : Sign ks e → Grown ks e
  | .power h => h.grown
  | .fold h hm => by
    obtain ⟨m, hmem, hn⟩ := h.grown
    exact ⟨m, List.mem_cons_of_mem _ hmem, by omega⟩
  | .minus h _ | .plus h | .tilde h => h.grown.behind

theorem Power.grown {ks : List TokenKind} {e : Expr} : Power ks e → Grown ks e
  | .plain h => h.grown
  | .power h g => ⟨h.grown.left, g.grown.behind.right⟩

theorem Trailer.grown {ks : List TokenKind} {e : Expr} : Trailer ks e → Grown ks e
  | .primary h => h.grown
  | .call _ _ | .member _ | .subscript _ _ => trivial

theorem Primary.grown {ks : List TokenKind} {e : Expr} : Primary ks e → Grown ks e
  | .int n => ⟨n, List.mem_singleton_self _, rfl⟩
  | .name n => List.mem_singleton_self _
  | .float _ | .str _ | .yes | .no | .nothing => trivial
  | .group (.series (.last h)) => h.grown.left.behind
  | .tuple _ _ | .list _ => trivial

end

end Comprehend.Grammar
