import Mathlib
import Comprehend.Proofs.ConditionText
import Comprehend.Proofs.PlusArithmetic

/-! Plus signs in whole expressions. Once the operands of a node have the texts that they have
without plus signs, the node has the text that it has without them exactly if it does not notice
them. So the texts of a tree are those without plus signs, exactly if no node in it notices them. -/
namespace Comprehend.Printer

open Operand

variable {p : Printer} {x y z : Operand}

/-! Signs, connectives and conditionals -/

theorem unary_bare_iff {op : UnaryOp} (hop : op ≠ .pos) :
    p.unary op x.bare = p.unary op x ↔ Agree (p.tests (.unary op x.expr)) := by
  simp only [tests, hop, ↓reduceIte, agree_cons, agree_nil, and_true]
  cases op with
  | pos => exact absurd rfl hop
  | _ => exact (String.append_right_inj _).trans within_bare_iff

theorem boolOp_bare_iff (op : BoolOp) :
    p.boolOp op x.bare y.bare = p.boolOp op x y ↔
      Agree (p.tests (.boolOp op x.expr y.expr)) := by
  unfold tests
  cases hd : p.dialect.isDotted
  · simp only [boolOp, hd, Bool.false_eq_true, ↓reduceIte, agree_sides]
    refine written_iff (fun a b => length_around a _ b) (.inl ?_)
    cases op <;> decide
  · simp only [boolOp, hd, ↓reduceIte, agree_sides]
    exact written_iff (fun a b => length_around a _ b) (.inr (by decide))

theorem ternary_bare_iff :
    p.ternary x.bare y.bare z.bare = p.ternary x y z ↔
      Agree (p.tests (.ternary x.expr y.expr z.expr)) := by
  -- all three levels are below that of signs, so that brackets only come in
  have hmarks (d : Dialect) :
      x.bare.within d 2 ++ " ? " ++ y.bare.within d 2 ++ " : " ++ z.bare.within d 1 =
          x.within d 2 ++ " ? " ++ y.within d 2 ++ " : " ++ z.within d 1 ↔
        x.Steady d 2 ∧ y.Steady d 2 ∧ z.Steady d 1 := by
    constructor
    · intro h
      have hlength := congrArg String.length h
      simp only [String.length_append] at hlength
      have hx : (x.within d 2).length ≤ (x.bare.within d 2).length := length_within_le (by decide)
      have hy : (y.within d 2).length ≤ (y.bare.within d 2).length := length_within_le (by decide)
      have hz : (z.within d 1).length ≤ (z.bare.within d 1).length := length_within_le (by decide)
      exact ⟨steady_of_length (by omega), steady_of_length (by omega), steady_of_length (by omega)⟩
    · rintro ⟨hx, hy, hz⟩
      rw [hx.within, hy.within, hz.within]
  cases hd : p.dialect with
  | typescript => simpa [ternary, tests, hd, Steady] using hmarks .typescript
  | csharp => simpa [ternary, tests, hd, Steady] using hmarks .csharp
  | julia => simpa [ternary, tests, hd, Steady] using hmarks .julia
  | _ => simp [ternary, tests, hd, bare]

/-! Displays -/

theorem length_operands (es : List Expr) : (p.operands es).length = es.length := by
  induction es with
  | nil => rfl
  | cons e es ih => rw [operands, List.length_cons, List.length_cons, ih]

theorem operands_withoutPlus {es : List Expr} (h : ∀ e ∈ es, p.print e.withoutPlus = p.print e) :
    p.operands (es.map Expr.withoutPlus) = (p.operands es).map bare := by
  induction es with
  | nil => rfl
  | cons e es ih =>
    rw [List.map_cons, operands, operands, List.map_cons, h e List.mem_cons_self,
      ih fun d hd => h d (List.mem_cons_of_mem e hd)]
    rfl

theorem join_map_bare (os : List Operand) : join (os.map bare) = join os := by
  rw [join, List.map_map]
  rfl

variable {os us : List Operand}

theorem tuple_inj (h : os.length = us.length) : p.tuple os = p.tuple us ↔ join os = join us := by
  simp only [tuple, h]
  cases p.dialect <;> simp only [round, String.append_left_inj, String.append_right_inj] <;>
    split <;> simp only [String.append_left_inj, String.append_right_inj]

theorem list_inj : p.list os = p.list us ↔ join os = join us := by
  simp only [list]
  cases p.dialect <;> simp only [round, String.append_left_inj, String.append_right_inj]

/-- What stands in a display is seen in its text. -/
theorem join_parts {e : Expr} (hdisplay : isDisplay e = true)
    (h : p.print e.withoutPlus = p.print e) :
    join (p.parts e.withoutPlus) = join (p.parts e) := by
  cases e with
  | tuple items =>
    have hlength : (p.operands (Expr.allWithoutPlus items)).length = (p.operands items).length := by
      rw [length_operands, length_operands, Expr.allWithoutPlus_eq_map, List.length_map]
    exact (tuple_inj hlength).mp h
  | list items => exact (list_inj (p := p)).mp h
  | _ => cases hdisplay

theorem isLoose_display {d : Dialect} {e : Expr} (h : isDisplay e = true) :
    isLoose d 14 e = false := by
  cases e with
  | tuple => rfl
  | list => rfl
  | _ => cases h

/-! Membership -/

/-- The collection of whose items a method asks, written anew if it is a display. -/
def collection (d : Dialect) (opening closing : String) (y : Operand) (items : List Operand) :
    String :=
  if isDisplay y.expr then opening ++ join items ++ closing else y.within d 14

theorem collection_bare_iff {d : Dialect} {opening closing : String}
    (hopening : ∃ c cs, opening.toList = c :: cs ∧ c ≠ '(')
    (hy : p.print y.expr.withoutPlus = p.print y.expr) :
    collection d opening closing y.bare (p.parts y.expr.withoutPlus) =
        collection d opening closing y (p.parts y.expr) ↔ y.Steady d 14 := by
  unfold collection
  by_cases hplus : y.expr.IsPlus
  · obtain ⟨f, hf⟩ := hplus
    rw [show isDisplay y.expr = false by rw [hf]; rfl]
    cases hdisplay : isDisplay y.bare.expr with
    | true =>
      have hloose : isLoose d 14 y.expr = true := by
        rw [hf, isLoose_plus]
        rfl
      have htight : isLoose d 14 y.expr.withoutPlus = false := isLoose_display hdisplay
      refine iff_of_false (fun h => ?_) (by simp [Steady, htight, hloose])
      obtain ⟨c, cs, hcs, hc⟩ := hopening
      have hchars := congrArg String.toList h
      simp [within_eq, hloose, round, hcs] at hchars
      exact hc hchars.1
    | false => exact within_bare_iff
  · have hsteady : y.Steady d 14 := steady_of_not_isPlus hplus
    refine iff_of_true ?_ hsteady
    rw [show isDisplay y.bare.expr = isDisplay y.expr from (Expr.alike_withoutPlus hplus).isDisplay,
      hsteady.within]
    cases hdisplay : isDisplay y.expr with
    | true => simp [join_parts hdisplay hy]
    | false => rfl

def slice (p : Printer) (y : Operand) (items : List Operand) : String :=
  if isDisplay y.expr then "[]" ++ p.intType ++ "\x7b" ++ join items ++ "\x7d" else y.text

theorem slice_of_not_tuple (hd : p.dialect = .go) {e : Expr} (h : e.isTuple = false) :
    p.slice ⟨e, p.print e⟩ (p.parts e) = p.print e := by
  cases e with
  | tuple => cases h
  | list items => simp [slice, isDisplay, print, list, parts, hd]
  | _ => rfl

/-- The text of a tuple, unlike that of a list, shows how many items there are. -/
theorem slice_ne_print (hd : p.dialect = .go) {e : Expr} (h : e.isTuple = true) :
    p.slice ⟨e, p.print e⟩ (p.parts e) ≠ p.print e := by
  cases e with
  | tuple items =>
    intro heq
    simp only [slice, isDisplay, print, parts, tuple, hd, ↓reduceIte, String.append_left_inj] at heq
    have hchars := congrArg String.toList heq
    simp at hchars
  | _ => cases h

theorem slice_bare_iff (hd : p.dialect = .go) {e : Expr} (he : p.print e.withoutPlus = p.print e) :
    p.slice ⟨e.withoutPlus, p.print e⟩ (p.parts e.withoutPlus) =
        p.slice ⟨e, p.print e⟩ (p.parts e) ↔ e.withoutPlus.isTuple = e.isTuple := by
  cases htuple : e.isTuple with
  | true =>
    cases e with
    | tuple items =>
      have hjoin := join_parts (p := p) (e := .tuple items) rfl he
      refine iff_of_true ?_ rfl
      simp only [slice, hjoin]
      rfl
    | _ => cases htuple
  | false =>
    rw [slice_of_not_tuple hd htuple, ← he]
    cases htuple' : e.withoutPlus.isTuple with
    | true => simpa using slice_ne_print hd htuple'
    | false => simpa using slice_of_not_tuple hd htuple'

theorem membership_bare_iff (negated : Bool) (hy : p.print y.expr.withoutPlus = y.text)
    (hy' : p.print y.expr = y.text) :
    p.membership x.bare negated y.bare (p.parts y.expr.withoutPlus) =
        p.membership x negated y (p.parts y.expr) ↔ Agree (p.membershipTests x.expr y.expr) := by
  have hsame : p.print y.expr.withoutPlus = p.print y.expr := hy.trans hy'.symm
  cases hd : p.dialect with
  | rust =>
    have h : collection .rust "[" "]" y.bare _ = _ ↔ _ := collection_bare_iff (by simp) hsame
    cases negated <;> simpa [membership, membershipTests, hd, collection, Steady] using h
  | typescript =>
    have h : collection .typescript "[" "]" y.bare _ = _ ↔ _ :=
      collection_bare_iff (by simp) hsame
    cases negated <;> simpa [membership, membershipTests, hd, collection, Steady] using h
  | csharp =>
    have h : collection .csharp "new[] \x7b " " \x7d" y.bare _ = _ ↔ _ :=
      collection_bare_iff (by simp) hsame
    cases negated <;> simpa [membership, membershipTests, hd, collection, Steady] using h
  | go =>
    have h := slice_bare_iff hd hsame
    rw [hy', show (⟨y.expr.withoutPlus, y.text⟩ : Operand) = y.bare from rfl] at h
    cases negated <;> simpa [membership, membershipTests, hd, slice] using h
  | julia =>
    have htest : x.bare.within .julia 6 ++ " in " ++ y.bare.within .julia 6 =
        x.within .julia 6 ++ " in " ++ y.within .julia 6 ↔
          x.Steady .julia 6 ∧ y.Steady .julia 6 := by
      refine written_iff (f := fun a b => a ++ " in " ++ b) (i := 0) (j := 0) (k := 4)
        (fun a b => ?_) (.inl (by decide))
      simp only [String.length_append, show " in ".length = 4 from rfl]
      omega
    cases negated <;> simpa [membership, membershipTests, hd, sides, Steady] using htest
  | juliaBroadcast => cases negated <;> simp [membership, membershipTests, hd]
  | _ =>
    have hsql : p.dialect.isSql = true := by rw [hd]; rfl
    have hbare := Target.Sql.membership_eq (x := x.bare) hsql negated y.expr.withoutPlus
    have hfull := Target.Sql.membership_eq (x := x) hsql negated y.expr
    rw [hy] at hbare
    rw [hy'] at hfull
    rw [show y.bare = ⟨y.expr.withoutPlus, y.text⟩ from rfl, hbare, hfull]
    simp [membershipTests, hd, within_bare_iff, Steady]

theorem compare_bare_iff (op : CmpOp) (hy : p.print y.expr.withoutPlus = y.text)
    (hy' : p.print y.expr = y.text) :
    p.compare x.bare op y.bare (p.parts y.expr.withoutPlus) = p.compare x op y (p.parts y.expr) ↔
      Agree (p.compareTests x.expr op y.expr) := by
  cases op with
  | isIn => exact membership_bare_iff false hy hy'
  | notIn => exact membership_bare_iff true hy hy'
  | _ =>
    simp only [compare, compareTests, agree_sides]
    exact written_iff (fun a b => length_around a _ b) (.inl (by decide))

/-! Calls -/

theorem length_join (x : Operand) (os : List Operand) :
    (join (x :: os)).length =
      x.text.length + (os.map (·.text.length)).sum + 2 * os.length := by
  induction os generalizing x with
  | nil => simp [join, commas]
  | cons y os ih =>
    have hcons : join (x :: y :: os) = x.text ++ ", " ++ join (y :: os) :=
      String.intercalate_cons_cons
    rw [hcons, String.length_append, String.length_append, ih, show ", ".length = 2 from rfl,
      List.map_cons, List.sum_cons, List.length_cons]
    omega

/-- Texts that are put around another one after the other are seen in its length. -/
theorem length_foldl {f : String → Operand → String} {k : Nat}
    (hf : ∀ s o, (f s o).length = s.length + o.text.length + k) (s : String) (os : List Operand) :
    (os.foldl f s).length = s.length + (os.map (·.text.length)).sum + k * os.length := by
  induction os generalizing s with
  | nil => rfl
  | cons o os ih =>
    rw [List.foldl_cons, ih, hf, List.map_cons, List.sum_cons, List.length_cons, Nat.mul_add]
    omega

theorem length_extremum_rust (hd : p.dialect = .rust) (least : Bool) :
    (p.extremum least x os).length =
      (x.within p.dialect 14).length + (os.map (·.text.length)).sum + 6 * os.length := by
  simp only [extremum, hd]
  refine length_foldl (fun s o => ?_) _ os
  have hname : (if least then "min" else "max").length = 3 := by cases least <;> rfl
  simp only [String.length_append, hname, show ".".length = 1 from rfl,
    show "(".length = 1 from rfl, show ")".length = 1 from rfl]
  omega

theorem length_extremum_csharp (hd : p.dialect = .csharp) (least : Bool) :
    (p.extremum least x os).length =
      x.text.length + (os.map (·.text.length)).sum + 12 * os.length := by
  simp only [extremum, hd]
  refine length_foldl (fun s o => ?_) _ os
  have hname : (if least then "Math.Min" else "Math.Max").length = 8 := by cases least <;> rfl
  simp only [String.length_append, hname, show ", ".length = 2 from rfl,
    show "(".length = 1 from rfl, show ")".length = 1 from rfl]
  omega

theorem extremum_bare_iff (least : Bool) :
    p.extremum least x.bare (os.map bare) = p.extremum least x os ↔
      (p.dialect = .rust → x.Steady p.dialect 14) := by
  have hjoin : join (x.bare :: os.map bare) = join (x :: os) := join_map_bare (x :: os)
  cases hd : p.dialect with
  | rust =>
    rw [imp_iff_right rfl, ← hd]
    constructor
    · intro h
      have hlength := congrArg String.length h
      rw [length_extremum_rust hd, length_extremum_rust hd, List.map_map,
        List.length_map] at hlength
      change _ + (os.map (·.text.length)).sum + _ = _ at hlength
      exact steady_of_length (by omega)
    · intro h
      rw [hd] at h
      simp [extremum, hd, List.foldl_map, h.within]
  | csharp => simp [extremum, hd, List.foldl_map]
  | _ => simp [extremum, hd, hjoin]

/-- Only what a method is called on is put in brackets. -/
theorem call_name_bare_iff {n s : String} {args : List Expr} :
    p.call ⟨.name n, s⟩ ((p.operands args).map bare) = p.call ⟨.name n, s⟩ (p.operands args) ↔
      Agree (p.argumentTests (.name n) args) := by
  cases hb : Builtin.ofName? n with
  | none => simp [call, builtin?, argumentTests, hb, join_map_bare]
  | some b =>
    rcases args with _ | ⟨a, _ | ⟨c, rest⟩⟩
    · cases b <;> simp [call, builtin?, argumentTests, hb, operands]
    · cases b with
      | abs =>
        cases hd : p.dialect <;>
          simp [call, builtin?, argumentTests, hb, operands, absolute, hd, within_bare_iff, Steady]
      | len =>
        cases hd : p.dialect <;>
          simp [call, builtin?, argumentTests, hb, operands, length, hd, within_bare_iff, Steady]
      | _ => simp [call, builtin?, argumentTests, hb, operands, join]
    · have hjoin := join_map_bare (p.operands (a :: c :: rest))
      have hextremum (least : Bool) : p.extremum least (bare ⟨a, p.print a⟩)
          ((p.operands (c :: rest)).map bare) = p.extremum least ⟨a, p.print a⟩ _ ↔ _ :=
        extremum_bare_iff least
      simp only [operands, List.map_cons] at hjoin hextremum
      cases b with
      | abs => simp [call, builtin?, argumentTests, hb, operands, hjoin]
      | len => simp [call, builtin?, argumentTests, hb, operands, hjoin]
      | min =>
        cases hd : p.dialect <;>
          simp [call, builtin?, argumentTests, hb, operands, hextremum, hd, Steady]
      | max =>
        cases hd : p.dialect <;>
          simp [call, builtin?, argumentTests, hb, operands, hextremum, hd, Steady]

theorem absolute_ne {s : String} (hs : s.length = 3) :
    p.absolute x ≠ round s ++ p.dialect.dot ++ "(" ++ x.text ++ ")" := by
  intro h
  have hchars := congrArg String.toList h
  have hlength := congrArg List.length hchars
  cases hd : p.dialect with
  | rust =>
    simp [absolute, hd, length_within, round, hs, String.length_toList,
      Dialect.dot, Dialect.isDotted] at hlength
    omega
  | go =>
    simp [absolute, hd, round, hs, String.length_toList,
      Dialect.dot, Dialect.isDotted] at hlength
    omega
  | _ => simp [absolute, hd, round] at hchars

theorem length_ne {s : String} (hs : s.length = 3) :
    p.length x ≠ round s ++ p.dialect.dot ++ "(" ++ x.text ++ ")" := by
  intro h
  have hchars := congrArg String.toList h
  have hlength := congrArg List.length hchars
  cases hd : p.dialect with
  | rust =>
    simp [length, hd, length_within, round, hs, String.length_toList,
      Dialect.dot, Dialect.isDotted] at hlength
    omega
  | typescript =>
    simp only [length, hd, String.toList_append] at hchars
    have hlast := congrArg List.getLast? hchars
    simp only [List.getLast?_append] at hlast
    simp at hlast
  | csharp =>
    simp [length, hd, length_within, round, hs, String.length_toList,
      Dialect.dot, Dialect.isDotted] at hlength
    omega
  | _ => simp [length, hd, round] at hchars

theorem extremum_ne {s : String} (hs : s.length = 3) (least : Bool) (y : Operand)
    (os : List Operand) :
    p.extremum least x (y :: os) ≠
      round s ++ p.dialect.dot ++ "(" ++ join (x :: y :: os) ++ ")" := by
  intro h
  have hchars := congrArg String.toList h
  have hlength := congrArg List.length hchars
  cases hd : p.dialect with
  | rust =>
    simp [length_extremum_rust hd, hd, length_within, length_join, round, hs,
      String.length_toList, Dialect.dot, Dialect.isDotted] at hlength
    omega
  | csharp =>
    simp [length_extremum_csharp hd, hd, length_join, round, hs,
      String.length_toList, Dialect.dot, Dialect.isDotted] at hlength
    omega
  | _ => cases least <;> simp [extremum, hd, round] at hchars

theorem length_of_builtin {n : String} {b : Builtin} (h : Builtin.ofName? n = some b) :
    n.length = 3 := by
  unfold Builtin.ofName? at h
  split at h <;> first | rfl | cases h

/-- A builtin is not called in the way of other functions. -/
theorem builtin_ne {n t : String} (h : p.builtin? (.name n) os = some t) :
    t ≠ round n ++ p.dialect.dot ++ "(" ++ join os ++ ")" := by
  simp only [builtin?] at h
  split at h
  next x hb =>
    obtain rfl := Option.some.inj h
    exact absolute_ne (length_of_builtin hb)
  next x hb =>
    obtain rfl := Option.some.inj h
    exact length_ne (length_of_builtin hb)
  next x y os hb =>
    obtain rfl := Option.some.inj h
    exact extremum_ne (length_of_builtin hb) true y os
  next x y os hb =>
    obtain rfl := Option.some.inj h
    exact extremum_ne (length_of_builtin hb) false y os
  next => cases h

theorem builtin?_of_not_name {f : Expr} (h : ∀ n, f ≠ .name n) (os : List Operand) :
    p.builtin? f os = none := by
  cases f with
  | name n => exact absurd rfl (h n)
  | _ => rfl

theorem call_bare_iff {f : Expr} {args : List Expr} (hf : p.print f.withoutPlus = p.print f) :
    p.call ⟨f.withoutPlus, p.print f⟩ ((p.operands args).map bare) =
        p.call ⟨f, p.print f⟩ (p.operands args) ↔ Agree (p.tests (.call f args)) := by
  simp only [tests, agree_cons]
  by_cases hname : ∃ n, f = .name n
  · obtain ⟨n, rfl⟩ := hname
    exact call_name_bare_iff.trans (and_iff_right rfl).symm
  have htests : p.argumentTests f args = [] := by
    cases f with
    | name n => exact absurd ⟨n, rfl⟩ hname
    | _ => rfl
  have hcall : p.call ⟨f, p.print f⟩ (p.operands args) =
      Operand.within ⟨f, p.print f⟩ p.dialect 14 ++ p.dialect.dot ++ "(" ++
        join (p.operands args) ++ ")" := by
    rw [call, builtin?_of_not_name fun n hn => hname ⟨n, hn⟩]
  rw [htests, hcall]
  simp only [agree_nil, and_true]
  cases hb : p.builtin? f.withoutPlus ((p.operands args).map bare) with
  | none =>
    simp only [call, hb, join_map_bare, String.append_left_inj]
    exact within_bare_iff (x := ⟨f, p.print f⟩)
  | some t =>
    obtain ⟨n, hn⟩ : ∃ n, f.withoutPlus = .name n := by
      by_contra hnot
      rw [builtin?_of_not_name fun n hn => hnot ⟨n, hn⟩] at hb
      cases hb
    obtain ⟨g, rfl⟩ : f.IsPlus := by
      by_contra hplus
      exact hname ⟨n, (Expr.alike_withoutPlus hplus).name n hn⟩
    have htext : p.print (.unary .pos g) = n := by
      rw [← hf, hn]
      rfl
    rw [hn] at hb
    rw [hn, htext, within_eq, isLoose_plus]
    refine iff_of_false ?_ (by simp [isLoose, Expr.precedence, isDelicate])
    simpa [call, hb, join_map_bare] using builtin_ne hb

/-! Subscripts -/

def index (p : Printer) (y : Operand) : String :=
  if p.dialect.isJulia then
    match y.expr.natural? with
    | some n => "[" ++ toString (n + 1).toInt ++ "]"
    | none => "[" ++ y.within p.dialect 10 ++ " + 1]"
  else if p.dialect = .rust then
    match y.expr.natural? with
    | some n => "[" ++ toString n.toInt ++ "]"
    | none => "[" ++ y.within p.dialect 14 ++ " as usize]"
  else "[" ++ y.text ++ "]"

theorem subscript_eq : p.subscript x y = x.within p.dialect 14 ++ p.index y := by
  simp only [subscript, index]
  cases p.dialect <;> cases y.expr.natural? <;>
    simp [Dialect.isJulia, String.append_assoc]

/-- The sum of an index and one is computed only without a plus sign. -/
theorem successor_ne (n : Int) (s : String) : "[" ++ toString n ++ "]" ≠ "[" ++ s ++ " + 1]" := by
  intro h
  have hmem : '+' ∈ ("[" ++ toString n ++ "]").toList := by
    rw [h]
    simp
  have hnumber : '+' ∈ (toString n).toList := by simpa using hmem
  exact absurd (eq_minus_or_isDigit hnumber) (by decide)

/-- A constant index is written as such only without its plus sign. -/
theorem constant_ne (s : String) : "[" ++ s ++ "]" ≠ "[" ++ round s ++ " as usize]" := by
  intro h
  have hlength := congrArg (fun s => s.toList.length) h
  simp [round] at hlength

theorem index_bare_iff (hy : p.print y.expr.withoutPlus = y.text) :
    p.index y.bare = p.index y ↔ Agree (p.indexTests y.expr) := by
  by_cases hplus : y.expr.IsPlus
  · obtain ⟨f, hf⟩ := hplus
    have hnone : y.expr.natural? = none := by rw [hf]; rfl
    have hloose : isLoose p.dialect 14 y.expr = true := by rw [hf, isLoose_plus]; rfl
    have hbare : y.bare.expr.natural? = y.expr.withoutPlus.natural? := rfl
    simp only [index, indexTests, hnone, hbare]
    cases hn : y.expr.withoutPlus.natural? with
    | none =>
      split
      · simp [within_bare_iff, Steady, hn, hnone]
      split <;> simp [within_bare_iff, Steady]
    | some n =>
      obtain ⟨-, hprint, htight⟩ := print_natural (p := p) hn
      split
      · exact iff_of_false (successor_ne _ _) (by simp [hn, hnone])
      split
      · refine iff_of_false ?_ (by simp [htight, hloose])
        simpa [within_eq, hloose, ← hprint, hy] using constant_ne y.text
      · simp
  · have halike := Expr.alike_withoutPlus hplus
    have hsteady (least : Nat) : y.Steady p.dialect least := steady_of_not_isPlus hplus
    refine iff_of_true ?_ ?_
    · simp only [index, show y.bare.expr.natural? = _ from halike.natural, (hsteady _).within]
      rfl
    · unfold indexTests
      split
      · simp [halike.natural, halike.isLoose]
      split <;> simp [halike.isLoose]

theorem subscript_bare_iff (hy : p.print y.expr.withoutPlus = y.text) :
    p.subscript x.bare y.bare = p.subscript x y ↔ Agree (p.tests (.subscript x.expr y.expr)) := by
  have hopening : ∃ c cs, (p.index y.bare).toList = c :: cs ∧ c ≠ '(' := by
    unfold index
    repeat' split
    all_goals simp
  rw [subscript_eq, subscript_eq, front_bare_iff hopening, index_bare_iff hy, tests, agree_cons]
  rfl

/-! Whole expressions -/

/-- A node over operands that have the same texts without plus signs. -/
theorem print_withoutPlus_iff {e : Expr} (h : ∀ d ∈ e.operands, p.print d.withoutPlus = p.print d) :
    p.print e.withoutPlus = p.print e ↔ p.noticesPlus e = false := by
  rw [noticesPlus_eq_false]
  cases e with
  | const l => simp [Expr.withoutPlus, tests]
  | name n => simp [Expr.withoutPlus, tests]
  | unary op f =>
    have hf := h f (by simp [Expr.operands])
    by_cases hop : op = .pos
    · simpa [Expr.withoutPlus, tests, hop, print, unary] using hf
    · simp only [Expr.withoutPlus, hop, ↓reduceIte, print, hf]
      exact unary_bare_iff (x := ⟨f, p.print f⟩) hop
  | binary l op r =>
    have hl := h l (by simp [Expr.operands])
    have hr := h r (by simp [Expr.operands])
    simp only [Expr.withoutPlus, print, hl, hr]
    exact binary_bare_iff (x := ⟨l, p.print l⟩) (y := ⟨r, p.print r⟩) op hl hr
  | boolOp op l r =>
    have hl := h l (by simp [Expr.operands])
    have hr := h r (by simp [Expr.operands])
    simp only [Expr.withoutPlus, print, hl, hr]
    exact boolOp_bare_iff (x := ⟨l, p.print l⟩) (y := ⟨r, p.print r⟩) op
  | compare l op r =>
    have hl := h l (by simp [Expr.operands])
    have hr := h r (by simp [Expr.operands])
    simp only [Expr.withoutPlus, print, hl, hr]
    exact compare_bare_iff (x := ⟨l, p.print l⟩) (y := ⟨r, p.print r⟩) op hr rfl
  | ternary c y n =>
    have hc := h c (by simp [Expr.operands])
    have hy := h y (by simp [Expr.operands])
    have hn := h n (by simp [Expr.operands])
    simp only [Expr.withoutPlus, print, hc, hy, hn]
    exact ternary_bare_iff (x := ⟨c, p.print c⟩) (y := ⟨y, p.print y⟩) (z := ⟨n, p.print n⟩)
  | call f args =>
    have hf := h f (by simp [Expr.operands])
    have hargs : ∀ d ∈ args, p.print d.withoutPlus = p.print d := fun d hd =>
      h d (List.mem_cons_of_mem f hd)
    simp only [Expr.withoutPlus, print, hf, Expr.allWithoutPlus_eq_map, operands_withoutPlus hargs]
    exact call_bare_iff hf
  | member f field =>
    have hf := h f (by simp [Expr.operands])
    simp only [Expr.withoutPlus, print, hf, tests, agree_cons, agree_nil, and_true,
      String.append_left_inj]
    exact within_bare_iff (x := ⟨f, p.print f⟩)
  | subscript f i =>
    have hf := h f (by simp [Expr.operands])
    have hi := h i (by simp [Expr.operands])
    simp only [Expr.withoutPlus, print, hf, hi]
    exact subscript_bare_iff (x := ⟨f, p.print f⟩) (y := ⟨i, p.print i⟩) hi
  | tuple items =>
    have hitems : p.operands (items.map Expr.withoutPlus) = _ := operands_withoutPlus h
    have hsame : p.tuple ((p.operands items).map bare) = p.tuple (p.operands items) :=
      (tuple_inj (List.length_map _)).mpr (join_map_bare _)
    simp [Expr.withoutPlus, print, tests, Expr.allWithoutPlus_eq_map, hitems, hsame]
  | list items =>
    have hitems : p.operands (items.map Expr.withoutPlus) = _ := operands_withoutPlus h
    have hsame : p.list ((p.operands items).map bare) = p.list (p.operands items) :=
      list_inj.mpr (join_map_bare _)
    simp [Expr.withoutPlus, print, tests, Expr.allWithoutPlus_eq_map, hitems, hsame]

theorem sameNodes_iff (p : Printer) (e : Expr) :
    e.anyNode (fun d => p.print d.withoutPlus != p.print d) = false ↔
      e.anyNode p.noticesPlus = false := by
  induction e using Expr.induction_on_operands with
  | h e ih =>
    rw [Expr.anyNode_eq_false, Expr.anyNode_eq_false]
    have hoperands : (∀ d ∈ e.operands, d.anyNode p.noticesPlus = false) →
        ∀ d ∈ e.operands, p.print d.withoutPlus = p.print d := fun hbelow d hd => by
      simpa using (Expr.anyNode_eq_false.mp ((ih d hd).mpr (hbelow d hd))).1
    have hbelow : (∀ d ∈ e.operands,
        d.anyNode (fun d => p.print d.withoutPlus != p.print d) = false) ↔
          ∀ d ∈ e.operands, d.anyNode p.noticesPlus = false :=
      forall₂_congr ih
    rw [hbelow, bne_eq_false_iff_eq]
    exact and_congr_left fun h => print_withoutPlus_iff (hoperands h)

/-- Nothing in the text of an expression shows its plus signs, unless one of its nodes notices them;
and wherever a node notices them, some part of the expression has another text for them. -/
theorem print_withoutPlus (p : Printer) (e : Expr) :
    (e.anyNode p.noticesPlus = false → p.print e.withoutPlus = p.print e) ∧
      e.anyNode p.noticesPlus = e.anyNode fun d => p.print d.withoutPlus != p.print d := by
  refine ⟨fun h => ?_, ?_⟩
  · simpa using (Expr.anyNode_eq_false.mp ((sameNodes_iff p e).mpr h)).1
  · rw [Bool.eq_iff_iff, ← Bool.not_eq_false, ← Bool.not_eq_false, sameNodes_iff]

/-- The expression `max(+(a + b), +c) * +d - x[+i]`. -/
def plusEverywhere : Expr :=
  .binary
    (.binary
      (.call (.name "max")
        [.unary .pos (.binary (.name "a") .add (.name "b")), .unary .pos (.name "c")])
      .mul (.unary .pos (.name "d")))
    .sub (.subscript (.name "x") (.unary .pos (.name "i")))

theorem print_withoutPlus_everywhere :
    Expr.parse? "max(+(a + b), +c) * +d - x[+i]" = some plusEverywhere ∧
      plusEverywhere.anyNode (noticesPlus { dialect := .typescript }) = false ∧
      print { dialect := .typescript } plusEverywhere.withoutPlus =
        "Math.max(a + b, c) * d - x[i]" := by
  have hunnoticed : plusEverywhere.anyNode (noticesPlus { dialect := .typescript }) = false := by
    cbv
  have htext : print { dialect := .typescript } plusEverywhere =
      "Math.max(a + b, c) * d - x[i]" := by cbv
  exact ⟨by cbv, hunnoticed, ((print_withoutPlus _ plusEverywhere).1 hunnoticed).trans htext⟩

/-- The product `+(a + b) * c`. -/
def plusSum : Expr :=
  .binary (.unary .pos (.binary (.name "a") .add (.name "b"))) .mul (.name "c")

/-- The sum binds less tightly than the product, and loses its brackets to the plus sign. -/
theorem print_plusSum :
    Expr.parse? "+(a + b) * c" = some plusSum ∧
      print { dialect := .typescript } plusSum = "a + b * c" ∧
      print { dialect := .typescript } plusSum.withoutPlus = "(a + b) * c" := by
  refine ⟨?_, ?_, ?_⟩ <;> cbv

end Comprehend.Printer
