import Comprehend.Proofs.CursorRuns
import Comprehend.Proofs.Positions

/-! Reading comprehensions with a cursor. The readers keep all tokens and the index of the next one;
they look at the tokens of other indices as well, and take some out. Main statement: none of them
ever leaves the tokens, whatever the source, and the outcome is that of the readers of the tokens
ahead. -/
namespace Comprehend

namespace Cursor

open Traced
open Comprehension (isSeparator splitAtClose endsFilter endsKey endsElement endsImport isImport isFor
  hasLoop origin ofElement ofPair assigned)

/-! Readers, with the names that they have in `Comprehension` -/

section

variable (ts : List Token) (source : List Char)

def loopVariable (bound : List String) (pos : Nat) : Traced (String × Nat) := do
  match kindAt ts pos with
  | .ident var =>
    let span := spanAt ts pos
    let (_, pos) ← advance ts pos
    if kindAt ts pos = .comma ∨ kindAt ts pos = .dot then failAt ts .destructuring pos
    else if var ∈ bound then refuse ⟨.boundTwice var, span⟩
    else return (var, pos)
  | .lparen | .lbracket => failAt ts .destructuring pos
  | k => failAt ts (.expectedVariable k) pos

def filters : (fuel pos : Nat) → Traced (List String × Nat)
  | 0, _ => outOfFuel
  | fuel + 1, pos => do
    if kindAt ts pos = .kwIf then
      let (_, pos) ← advance ts pos
      let (filter, pos) ← captureText ts source endsFilter pos
      let (more, pos) ← filters fuel pos
      return (filter :: more, pos)
    else return ([], pos)

def clauses : (bound : List String) → (fuel pos : Nat) → Traced (List Generator × Nat)
  | _, 0, _ => outOfFuel
  | bound, fuel + 1, pos => do
    if kindAt ts pos = .kwFor then
      let (_, pos) ← advance ts pos
      let (var, pos) ← loopVariable ts bound pos
      let pos ← expect ts .kwIn pos
      let (items, pos) ← iterable ts source pos
      let (conditions, pos) ← filters ts source (ts.length - pos + 1) pos
      let (more, pos) ← clauses (var :: bound) fuel pos
      return (⟨var, items, conditions⟩ :: more, pos)
    else return ([], pos)

def loopsFrom (pos : Nat) : Traced (List Generator × Nat) :=
  clauses ts source [] (ts.length - pos + 1) pos

def bracketed (shape : Shape) (pos : Nat) : Traced (Comprehension × Nat) := do
  let (opening, pos) ← advance ts pos
  let close : TokenKind := if opening.kind = .lbracket then .rbracket else .rparen
  let (element, pos) ← captureText ts source isFor pos
  if kindAt ts pos = .kwFor then
    let (loops, pos) ← loopsFrom ts source pos
    let pos ← expect ts close pos
    let name := if shape = .list then "list_comp" else "genexp"
    return ({ ofElement shape element loops with provenance := origin name }, pos)
  else failAt ts (if shape = .list then .listDisplay else .parenthesized) pos

def braced (pos : Nat) : Traced (Comprehension × Nat) := do
  let (_, pos) ← advance ts pos
  let (first, pos) ← captureText ts source endsKey pos
  if kindAt ts pos = .colon then
    let (_, pos) ← advance ts pos
    let (value, pos) ← captureText ts source isFor pos
    if kindAt ts pos = .kwFor then
      let (loops, pos) ← loopsFrom ts source pos
      let pos ← expect ts .rbrace pos
      return ({ ofPair first value loops with provenance := origin "dict_comp" }, pos)
    else failAt ts .dictDisplay pos
  else if kindAt ts pos = .kwFor then
    let (loops, pos) ← loopsFrom ts source pos
    let pos ← expect ts .rbrace pos
    return ({ ofElement .set first loops with provenance := origin "set_comp" }, pos)
  else failAt ts .setDisplay pos

/-- The bracket at the cursor opens a comprehension, and that is a whole argument. -/
def isWholeArgument (pos : Nat) : Traced Bool := do
  match ← matchingClose ts pos with
  | none => return false
  | some close =>
    if kindAt ts (close + 1) = .rparen ∨ kindAt ts (close + 1) = .comma then
      let inside ← cut ts (pos + 1) close
      return hasLoop 0 inside
    else return false

def reducerName (pos : Nat) : Traced ((Reducer × String) × Nat) := do
  let (name, next) ← expectIdent ts pos
  if name = "math" && kindAt ts next = .dot then
    let (_, next) ← advance ts next
    let (field, next) ← expectIdent ts next
    if field = "prod" then return ((.prod, field), next)
    else failAt ts (.mathFunction field) pos
  else
    match Reducer.ofName? name with
    | some r => return ((r, name), next)
    | none => failAt ts (.function name) pos

def bareArgument (name : String) (pos : Nat) : Traced (Comprehension × Nat) := do
  let (element, pos) ← captureText ts source endsElement pos
  if kindAt ts pos = .kwFor then
    let (loops, pos) ← loopsFrom ts source pos
    return (ofElement .generator element loops, pos)
  else if kindAt ts pos = .comma then failAt ts (.oneArgument name) pos
  else failAt ts (.expectedGenerator name) pos

def reducerArgument (name : String) (pos : Nat) : Traced (Comprehension × Nat) := do
  match kindAt ts pos with
  | .lbracket =>
    if ← isWholeArgument ts pos then bracketed ts source .list pos
    else bareArgument ts source name pos
  | .lparen =>
    if ← isWholeArgument ts pos then bracketed ts source .generator pos
    else bareArgument ts source name pos
  | .lbrace => failAt ts (.expectedGenerator name) pos
  | _ => bareArgument ts source name pos

def reducerCall (pos : Nat) : Traced (Comprehension × Nat) := do
  let ((reducer, name), pos) ← reducerName ts pos
  if kindAt ts pos ≠ .lparen then failAt ts (.expectedCall name) pos
  else
    let (_, pos) ← advance ts pos
    if kindAt ts pos = .rparen then failAt ts (.oneArgument name) pos
    else if startsKeyword ts pos then failAt ts (.noKeywords name) pos
    else
      let (c, pos) ← reducerArgument ts source name pos
      if kindAt ts pos = .comma then failAt ts (.oneArgument name) pos
      else
        let pos ← expect ts .rparen pos
        return ({ c with
          reduction := some { reducer }
          provenance := origin ("call_" ++ name) }, pos)

def topLevel (pos : Nat) : Traced (Comprehension × Nat) :=
  match kindAt ts pos with
  | .lbracket => bracketed ts source .list pos
  | .lbrace => braced ts source pos
  | .lparen => bracketed ts source .generator pos
  | .ident _ => reducerCall ts source pos
  | other => failAt ts (.statementStart other) pos

def skipWhile (test : TokenKind → Bool) : (fuel pos : Nat) → Traced Nat
  | 0, _ => outOfFuel
  | fuel + 1, pos => do
    if test (kindAt ts pos) then
      let (_, pos) ← advance ts pos
      skipWhile test fuel pos
    else return pos

def skipSeparators (pos : Nat) : Traced Nat :=
  skipWhile ts isSeparator (ts.length + 1) pos

def skipImports : (fuel pos : Nat) → Traced Nat
  | 0, _ => outOfFuel
  | fuel + 1, pos => do
    if isImport (kindAt ts pos) then
      let (_, pos) ← advance ts pos
      if kindAt ts pos = .newline ∨ kindAt ts pos = .eof then failAt ts .moduleName pos
      else
        let pos ← skipWhile ts (fun k => !endsImport k) (ts.length + 1) pos
        let pos ← skipSeparators ts pos
        skipImports fuel pos
    else return pos

def assignment (pos : Nat) : Traced (Option String × Nat) := do
  match kindAt ts pos with
  | .ident name =>
    if kindAt ts (pos + 1) = .assign then
      let (_, pos) ← advance ts pos
      let (_, pos) ← advance ts pos
      return (some name, pos)
    else return (none, pos)
  | _ => return (none, pos)

def statement : Traced Comprehension := do
  let pos ← moveTo ts 0
  let pos ← skipSeparators ts pos
  let pos ← skipImports ts (ts.length + 1) pos
  if kindAt ts pos = .eof then failAt ts .emptyInput pos
  else
    let (target, pos) ← assignment ts pos
    let (c, pos) ← topLevel ts source pos
    let pos ← skipSeparators ts pos
    if kindAt ts pos = .eof then return assigned target c
    else failAt ts (.afterStatement (kindAt ts pos)) pos

end

/-- `Comprehension.parse` with a cursor. -/
def parse (source : String) : Traced Comprehension :=
  match Token.scan source.toList with
  | .error e => refuse (.ofScan e)
  | .ok ts => statement ts source.toList

/-! Loops -/

variable {ts : List Token} {pos fuel : Nat} {source : List Char}

theorem follows_loopVariable {bound : List String} (h : Inside ts pos) :
    Follows ts (loopVariable ts bound pos) (Comprehension.loopVariable bound (ts.drop pos)) := by
  obtain ⟨⟨k, span⟩, ht, hdrop⟩ := h.exists_token
  have hfail := h.fail (R := PointsTo (α := String) ts)
  rw [loopVariable, kindAt_of_getElem? ht, spanAt, ht, hdrop]
  rw [hdrop] at hfail
  cases k with
  | ident var =>
    refine h.advance (by simp [hdrop, Parse.peek]) fun _ _ h₁ => ?_
    simp only [kindAt_eq]
    rw [Comprehension.loopVariable]
    split
    · exact h₁.fail _
    split
    · exact agrees_refuse _
    · exact h₁.pure _
  | _ => exact hfail _

theorem follows_filters (h : Inside ts pos) :
    Follows ts (filters ts source fuel pos) (Comprehension.filters source fuel (ts.drop pos)) := by
  induction fuel generalizing pos with
  | zero => exact agrees_outOfFuel
  | succ fuel ih =>
    rw [filters, Comprehension.filters, kindAt_eq, List.drop_drop]
    split
    next hk =>
      refine h.advance (by simp [hk]) fun _ _ h₁ => ?_
      refine (follows_captureText h₁).bind fun filter pos₂ h₂ => ?_
      exact (ih h₂).bind fun more pos₃ h₃ => h₃.pure _
    next => exact h.pure _

theorem follows_clauses {bound : List String} (h : Inside ts pos) :
    Follows ts (clauses ts source bound fuel pos)
      (Comprehension.clauses source bound fuel (ts.drop pos)) := by
  induction fuel generalizing bound pos with
  | zero => exact agrees_outOfFuel
  | succ fuel ih =>
    rw [clauses, Comprehension.clauses, kindAt_eq, List.drop_drop]
    split
    next hk =>
      refine h.advance (by simp [hk]) fun _ _ h₁ => ?_
      refine (follows_loopVariable h₁).bind fun var pos₂ h₂ => ?_
      refine h₂.expect (by decide) fun pos₃ h₃ => ?_
      refine (follows_iterable h₃).bind fun items pos₄ h₄ => ?_
      dsimp only
      rw [List.length_drop]
      refine (follows_filters h₄).bind fun conditions pos₅ h₅ => ?_
      exact (ih h₅).bind fun more pos₆ h₆ => h₆.pure _
    next => exact h.pure _

theorem follows_loopsFrom (h : Inside ts pos) :
    Follows ts (loopsFrom ts source pos) (Comprehension.loopsFrom source (ts.drop pos)) := by
  rw [loopsFrom, Comprehension.loopsFrom, List.length_drop]
  exact follows_clauses h

/-! Comprehensions -/

theorem follows_bracketed {shape : Shape} (h : Inside ts pos)
    (hpeek : Parse.peek (ts.drop pos) ≠ .eof) :
    Follows ts (bracketed ts source shape pos)
      (Comprehension.bracketed source shape (ts.drop pos)) := by
  rw [bracketed, Comprehension.bracketed, List.drop_drop]
  refine h.advance hpeek fun t ht h₁ => ?_
  have hk : t.kind = Parse.peek (ts.drop pos) := by rw [drop_eq_cons ht]; rfl
  rw [← hk]
  refine (follows_captureText h₁).bind fun element pos₂ h₂ => ?_
  simp only [kindAt_eq]
  split
  next =>
    refine (follows_loopsFrom h₂).bind fun loops pos₃ h₃ => ?_
    exact h₃.expect (by split <;> decide) fun pos₄ h₄ => h₄.pure _
  next => exact h₂.fail _

theorem follows_braced (h : Inside ts pos) (hpeek : Parse.peek (ts.drop pos) ≠ .eof) :
    Follows ts (braced ts source pos) (Comprehension.braced source (ts.drop pos)) := by
  rw [braced, Comprehension.braced, List.drop_drop]
  refine h.advance hpeek fun _ _ h₁ => ?_
  refine (follows_captureText h₁).bind fun first pos₂ h₂ => ?_
  simp only [kindAt_eq, List.drop_drop]
  split
  next hcolon =>
    refine h₂.advance (by simp [hcolon]) fun _ _ h₃ => ?_
    refine (follows_captureText h₃).bind fun value pos₄ h₄ => ?_
    dsimp only
    split
    next =>
      refine (follows_loopsFrom h₄).bind fun loops pos₅ h₅ => ?_
      exact h₅.expect (by decide) fun pos₆ h₆ => h₆.pure _
    next => exact h₄.fail _
  split
  next =>
    refine (follows_loopsFrom h₂).bind fun loops pos₃ h₃ => ?_
    exact h₃.expect (by decide) fun pos₄ h₄ => h₄.pure _
  next => exact h₂.fail _

/-! Reductions -/

theorem yields_isWholeArgument (h : Inside ts pos)
    (hopen : (Parse.peek (ts.drop pos)).isOpening = true) :
    Yields (isWholeArgument ts pos) (Comprehension.isWholeArgument (ts.drop pos)) := by
  obtain ⟨t, ht, hdrop⟩ := h.exists_token
  rw [← kindAt_eq, kindAt_of_getElem? ht] at hopen
  rw [hdrop, Comprehension.isWholeArgument, hopen]
  refine (yields_matchingClose ht hopen).bind ?_
  cases hsplit : splitAtClose 0 (ts.drop (pos + 1)) with
  | none => exact yields_pure _
  | some x =>
    obtain ⟨inside, after⟩ := x
    obtain ⟨hinside, ⟨u, hu, -⟩, hafter⟩ := stretch_of_splitAtClose hsplit
    obtain ⟨hlt, -⟩ := List.getElem?_eq_some_iff.mp hu
    have hcut := yields_cut (Nat.le_add_right (pos + 1) inside.length) (Nat.le_of_lt hlt)
    rw [hinside] at hcut
    simp only [Option.map_some, kindAt_eq, hafter, ← Bool.decide_or]
    split
    next hends =>
      rw [decide_eq_true hends, Bool.true_and]
      exact hcut.bind (yields_pure _)
    next hends =>
      rw [decide_eq_false hends, Bool.false_and]
      exact yields_pure _

theorem follows_reducerName (h : Inside ts pos) :
    Follows ts (reducerName ts pos) (Comprehension.reducerName (ts.drop pos)) := by
  refine h.expectIdent.bind fun name next h₁ => ?_
  simp only [kindAt_eq, List.drop_drop]
  split
  next hmath =>
    refine h₁.advance (by simp_all) fun _ _ h₂ => ?_
    refine h₂.expectIdent.bind fun field next₃ h₃ => ?_
    dsimp only
    split
    · exact h₃.pure _
    · exact h.fail _
  next =>
    cases Reducer.ofName? name with
    | some r => exact h₁.pure _
    | none => exact h.fail _

theorem follows_bareArgument {name : String} (h : Inside ts pos)
    (hwhole : Comprehension.isWholeArgument (ts.drop pos) = true →
      Parse.peek (ts.drop pos) ≠ .lbracket ∧ Parse.peek (ts.drop pos) ≠ .lparen)
    (hbrace : Parse.peek (ts.drop pos) ≠ .lbrace) :
    Follows ts (bareArgument ts source name pos)
      (Comprehension.reducerArgument source name (ts.drop pos)) := by
  have hlist : ¬(decide (Parse.peek (ts.drop pos) = .lbracket) &&
      Comprehension.isWholeArgument (ts.drop pos)) = true := by
    rw [Bool.and_eq_true, decide_eq_true_iff]
    exact fun hboth => (hwhole hboth.2).1 hboth.1
  have hgenerator : ¬(decide (Parse.peek (ts.drop pos) = .lparen) &&
      Comprehension.isWholeArgument (ts.drop pos)) = true := by
    rw [Bool.and_eq_true, decide_eq_true_iff]
    exact fun hboth => (hwhole hboth.2).2 hboth.1
  rw [Comprehension.reducerArgument, if_neg hlist, if_neg hgenerator, if_neg hbrace]
  refine (follows_captureText h).bind fun element pos₁ h₁ => ?_
  simp only [kindAt_eq]
  split
  · exact (follows_loopsFrom h₁).bind fun loops pos₂ h₂ => h₂.pure _
  split
  · exact h₁.fail _
  · exact h₁.fail _

theorem follows_reducerArgument {name : String} (h : Inside ts pos) :
    Follows ts (reducerArgument ts source name pos)
      (Comprehension.reducerArgument source name (ts.drop pos)) := by
  rw [reducerArgument, kindAt_eq]
  cases hk : Parse.peek (ts.drop pos) with
  | lbracket | lparen =>
    refine (yields_isWholeArgument h (by simp [hk, TokenKind.isOpening])).agrees ?_
    cases hwhole : Comprehension.isWholeArgument (ts.drop pos) with
    | true =>
      simpa [Comprehension.reducerArgument, hk, hwhole] using follows_bracketed h (by simp [hk])
    | false => exact follows_bareArgument h (by simp [hwhole]) (by simp [hk])
  | lbrace => simpa [Comprehension.reducerArgument, hk] using h.fail _
  | _ => exact follows_bareArgument h (by simp [hk]) (by simp [hk])

theorem follows_reducerCall (h : Inside ts pos) :
    Follows ts (reducerCall ts source pos) (Comprehension.reducerCall source (ts.drop pos)) := by
  refine (follows_reducerName h).bind fun x pos₁ h₁ => ?_
  obtain ⟨reducer, name⟩ := x
  simp only [kindAt_eq, startsKeyword_eq, List.drop_drop]
  split
  · exact h₁.fail _
  next hcall =>
    have hparen : Parse.peek (ts.drop pos₁) = .lparen := of_not_not hcall
    refine h₁.advance (by simp [hparen]) fun _ _ h₂ => ?_
    dsimp only
    split
    · exact h₂.fail _
    split
    · exact h₂.fail _
    refine (follows_reducerArgument h₂).bind fun c pos₃ h₃ => ?_
    dsimp only
    split
    · exact h₃.fail _
    · exact h₃.expect (by decide) fun pos₄ h₄ => h₄.pure _

/-! Statements -/

theorem follows_topLevel (h : Inside ts pos) :
    Follows ts (topLevel ts source pos) (Comprehension.topLevel source (ts.drop pos)) := by
  rw [topLevel, Comprehension.topLevel, kindAt_eq]
  cases hk : Parse.peek (ts.drop pos) with
  | lbracket | lparen => exact follows_bracketed h (by simp [hk])
  | lbrace => exact follows_braced h (by simp [hk])
  | ident => exact follows_reducerCall h
  | _ => exact h.fail _

/-- The end mark does not pass the test, so the cursor stops before it at the latest. -/
theorem yields_skipWhile {test : TokenKind → Bool} (heof : test .eof = false) (h : Inside ts pos)
    (hfuel : ts.length < pos + fuel) :
    ∃ next, Yields (skipWhile ts test fuel pos) next ∧ Inside ts next ∧
      ts.drop next = (ts.drop pos).dropWhile fun t => test t.kind := by
  induction fuel generalizing pos with
  | zero => exact absurd h.lt (by omega)
  | succ fuel ih =>
    obtain ⟨t, ht, hdrop⟩ := h.exists_token
    rw [skipWhile, kindAt_of_getElem? ht, hdrop, List.dropWhile_cons]
    split
    next htest =>
      have hne : Parse.peek (ts.drop pos) ≠ .eof := by
        rw [hdrop]
        intro hk
        rw [show t.kind = .eof from hk, heof] at htest
        cases htest
      obtain ⟨next, hnext, hinside, hrest⟩ := ih (h.next hne) (by omega)
      exact ⟨next, (h.yields_advance hne ht).bind hnext, hinside, hrest⟩
    next => exact ⟨pos, yields_pure pos, h, hdrop⟩

theorem yields_skipSeparators (h : Inside ts pos) :
    ∃ next, Yields (skipSeparators ts pos) next ∧ Inside ts next ∧
      ts.drop next = Comprehension.skipSeparators (ts.drop pos) :=
  yields_skipWhile rfl h (by omega)

theorem agrees_skipImports (h : Inside ts pos) :
    Agrees (fun next rest => Inside ts next ∧ rest = ts.drop next) (skipImports ts fuel pos)
      (Comprehension.skipImports fuel (ts.drop pos)) := by
  induction fuel generalizing pos with
  | zero => exact agrees_outOfFuel
  | succ fuel ih =>
    rw [skipImports, Comprehension.skipImports, kindAt_eq, List.drop_drop]
    split
    next himport =>
      refine h.advance (fun hk => by simp [hk, isImport] at himport) fun _ _ h₁ => ?_
      simp only [kindAt_eq]
      split
      · exact h₁.fail _
      obtain ⟨pos₂, hskip₂, h₂, hdrop₂⟩ : ∃ next,
          Yields (skipWhile ts (fun k => !endsImport k) (ts.length + 1) (pos + 1)) next ∧ _ :=
        yields_skipWhile rfl h₁ (by omega)
      obtain ⟨pos₃, hskip₃, h₃, hdrop₃⟩ := yields_skipSeparators h₂
      refine hskip₂.agrees (hskip₃.agrees ?_)
      rw [← hdrop₂, ← hdrop₃]
      exact ih h₃
    next => exact agrees_pure ⟨h, rfl⟩

theorem yields_assignment (h : Inside ts pos) :
    ∃ next, Yields (assignment ts pos) ((Comprehension.assignment (ts.drop pos)).1, next) ∧
      Inside ts next ∧ (Comprehension.assignment (ts.drop pos)).2 = ts.drop next := by
  obtain ⟨⟨k, span⟩, ht, hdrop⟩ := h.exists_token
  rw [assignment, kindAt_of_getElem? ht, hdrop]
  cases k with
  | ident name =>
    have hne : Parse.peek (ts.drop pos) ≠ .eof := by simp [hdrop, Parse.peek]
    have h₁ := h.next hne
    obtain ⟨⟨k', span'⟩, ht', hdrop'⟩ := h₁.exists_token
    rw [kindAt_of_getElem? ht', hdrop']
    by_cases hassign : k' = .assign
    · subst hassign
      have hne' : Parse.peek (ts.drop (pos + 1)) ≠ .eof := by simp [hdrop', Parse.peek]
      refine ⟨pos + 2, ?_, h₁.next hne', rfl⟩
      exact (h.yields_advance hne ht).bind ((h₁.yields_advance hne' ht').bind (yields_pure _))
    · have hnone : Comprehension.assignment (⟨.ident name, span⟩ :: ⟨k', span'⟩ ::
          ts.drop (pos + 1 + 1)) = (none, ts.drop pos) := by
        rw [hdrop, hdrop']
        cases k' <;> first | rfl | exact absurd rfl hassign
      simp only [hassign, if_false, hnone]
      exact ⟨pos, yields_pure _, h, rfl⟩
  | _ => exact ⟨pos, yields_pure _, h, hdrop.symm⟩

theorem agrees_statement (h : Inside ts 0) :
    Agrees Eq (statement ts source) (Comprehension.statement source ts) := by
  obtain ⟨pos₁, hskip₁, h₁, hdrop₁⟩ := yields_skipSeparators h
  rw [List.drop_zero] at hdrop₁
  rw [statement, Comprehension.statement, ← hdrop₁]
  refine (yields_moveTo h).agrees (hskip₁.agrees ?_)
  refine (agrees_skipImports h₁).bind fun pos₂ rest hrest => ?_
  obtain ⟨h₂, rfl⟩ := hrest
  simp only [kindAt_eq]
  split
  · exact h₂.fail _
  obtain ⟨pos₃, hassign, h₃, hdrop₃⟩ := yields_assignment h₂
  generalize Comprehension.assignment (ts.drop pos₂) = x at hassign hdrop₃ ⊢
  obtain ⟨target, rest⟩ := x
  obtain rfl : rest = ts.drop pos₃ := hdrop₃
  refine hassign.agrees ?_
  refine (follows_topLevel h₃).bind fun c pos₄ h₄ => ?_
  obtain ⟨pos₅, hskip₅, h₅, hdrop₅⟩ := yields_skipSeparators h₄
  refine hskip₅.agrees ?_
  dsimp only
  rw [← hdrop₅]
  split
  · exact agrees_pure rfl
  · exact h₅.fail _

theorem agrees_parse (source : String) : Agrees Eq (parse source) (Comprehension.parse source) := by
  rw [parse, Comprehension.parse]
  cases hscan : Token.scan source.toList with
  | error e => exact agrees_refuse _
  | ok ts =>
    have hinside := inside_of_scan hscan (p := fun _ => true) fun _ _ => rfl
    rw [List.filter_true] at hinside
    exact agrees_statement hinside

end Cursor

/-! The outcome -/

theorem Comprehension.fault_of_parse_error {source : String} {e : ParseError}
    (h : parse source = .error e) : e.fault ≠ .ranOut := by
  unfold parse at h
  split at h
  next e' _ =>
    obtain rfl := Except.error.inj h
    simp [ParseError.ofScan]
  next ts hscan =>
    have hread : Parse.Settles _ ts (statement source.toList ts) :=
      statement_settles (stream_of_scan hscan).ended
    rw [h] at hread
    exact hread.fault

theorem Expr.fault_of_parse_error {source : String} {e : ParseError}
    (h : parse source = .error e) : e.fault ≠ .ranOut := by
  unfold parse at h
  split at h
  next e' _ =>
    obtain rfl := Except.error.inj h
    simp [ParseError.ofScan]
  next ts hscan =>
    have hended : Parse.Ended (ts.filter (·.kind != .newline)) :=
      (Comprehension.stream_of_scan hscan).ended.filter fun t ht => by simp [ht]
    have hread := ofTokens_settles hended
    rw [h] at hread
    exact hread.fault

/-- Readers with a cursor never leave the tokens, whatever the source. The cursor does not pass the
end mark, every index and every stretch that is taken out lies within the tokens, and no bracket
depth is lowered at zero. So the outcome is that of the readers of the tokens ahead, and no reader
steps beyond the last token. -/
theorem Cursor.parse_acts_safe (source : String) :
    ((Cursor.parse source).outcome = Comprehension.parse source ∧
      (∀ act ∈ (Cursor.parse source).acts, act.Safe) ∧
      ∀ e, Comprehension.parse source = .error e → e.fault ≠ .ranOut) ∧
    (Cursor.parseExpr source).outcome = Expr.parse source ∧
      (∀ act ∈ (Cursor.parseExpr source).acts, act.Safe) ∧
      ∀ e, Expr.parse source = .error e → e.fault ≠ .ranOut := by
  have hparse := agrees_parse source
  have hexpr := agrees_parseExpr source
  exact ⟨⟨hparse.outcome_eq, hparse.safe, fun _ => Comprehension.fault_of_parse_error⟩,
    hexpr.outcome_eq, hexpr.safe, fun _ => Expr.fault_of_parse_error⟩

theorem Cursor.parse_acts_safe_unclosed :
    ((Cursor.parse "sum([x for x in range(2)])").acts[9]? = some (.cut 3 11 14) ∧
      (Act.cut 3 11 14).Safe) ∧
    (Comprehension.parse "[(x" = .error ⟨.unclosedBracket, ⟨3, 3, 1, 4⟩⟩ ∧
      ParseFault.unclosedBracket ≠ .ranOut) ∧
    ((Cursor.parseExpr "[(x").acts[9]? = some (.move 3 3) ∧ (Act.move 3 3).Safe) ∧
    Expr.parse "[(x" = .error ⟨.expected .rparen .eof, ⟨3, 3, 1, 4⟩⟩ ∧
      ParseFault.expected .rparen .eof ≠ .ranOut := by
  have hcut : (Cursor.parse "sum([x for x in range(2)])").acts[9]? = some (.cut 3 11 14) := by cbv
  have hparse : Comprehension.parse "[(x" = .error ⟨.unclosedBracket, ⟨3, 3, 1, 4⟩⟩ := by cbv
  have hmove : (Cursor.parseExpr "[(x").acts[9]? = some (.move 3 3) := by cbv
  have hexpr : Expr.parse "[(x" = .error ⟨.expected .rparen .eof, ⟨3, 3, 1, 4⟩⟩ := by cbv
  obtain ⟨⟨-, hsafe, -⟩, -⟩ := Cursor.parse_acts_safe "sum([x for x in range(2)])"
  obtain ⟨⟨-, -, hfault⟩, -, hsafe', hfault'⟩ := Cursor.parse_acts_safe "[(x"
  exact ⟨⟨hcut, hsafe _ (List.mem_of_getElem? hcut)⟩, ⟨hparse, hfault _ hparse⟩,
    ⟨hmove, hsafe' _ (List.mem_of_getElem? hmove)⟩, hexpr, hfault' _ hexpr⟩

end Comprehend
