import Comprehend.Proofs.Captures

/-! What a successful reading consists of. Each text of a comprehension was captured inside
brackets, and what a loop runs over was read behind the head of the loop. -/
namespace Comprehend.Comprehension

open Token Parse

/-! Places in the source -/

/-- The tokens ahead of the reader are the last of all tokens of the source, at the given bracket
depth. -/
structure Ahead (source : List Char) (all : List Token) (depth : Nat) (ts : List Token) : Prop where
  suffix : ts <:+ all
  stream : Stream source depth ts

/-- The text was captured inside brackets, up to the first token that `stop` names. -/
def Captured (source : List Char) (all : List Token) (stop : TokenKind → Bool) (s : String) :
    Prop :=
  ∃ depth ts rest, 0 < depth ∧ Ahead source all depth ts ∧ capture source stop ts = .ok (s, rest)

/-- The tokens stand behind the head of a loop over the variable. -/
def StandsBehind (all : List Token) (var : String) (ts : List Token) : Prop :=
  ∃ before forSpan varSpan inSpan,
    all = before ++ ⟨.kwFor, forSpan⟩ :: ⟨.ident var, varSpan⟩ :: ⟨.kwIn, inSpan⟩ :: ts

/-- What the loop runs over was read behind its head. -/
def ReadBehind (source : List Char) (all : List Token) (g : Generator) : Prop :=
  ∃ depth ts rest, 0 < depth ∧ Ahead source all depth ts ∧ StandsBehind all g.var ts ∧
    iterable source ts = .ok (g.source, rest)

structure LoopRead (source : List Char) (all : List Token) (g : Generator) : Prop where
  name : isName g.var = true
  items : ReadBehind source all g
  filters : ∀ s ∈ g.filters, Captured source all endsFilter s

structure LoopsRead (source : List Char) (all : List Token) (gs : List Generator) : Prop where
  ne_nil : gs ≠ []
  nodup : (gs.map (·.var)).Nodup
  each : ∀ g ∈ gs, LoopRead source all g

/-- The comprehension was read from the tokens of the source. -/
inductive Reading (source : List Char) (all : List Token) : Comprehension → Prop
  | bracketed {shape : Shape} {element : String} {gs : List Generator}
      (hshape : shape = .list ∨ shape = .generator) (helement : Captured source all isFor element)
      (hloops : LoopsRead source all gs) :
      Reading source all { ofElement shape element gs with
        provenance := origin (originName shape) }
  | set {element : String} {gs : List Generator} (helement : Captured source all endsKey element)
      (hloops : LoopsRead source all gs) :
      Reading source all { ofElement .set element gs with provenance := origin (originName .set) }
  | dict {key value : String} {gs : List Generator} (hkey : Captured source all endsKey key)
      (hvalue : Captured source all isFor value) (hloops : LoopsRead source all gs) :
      Reading source all { ofPair key value gs with provenance := origin (originName .dict) }
  | call {r : Reducer} {shape : Shape} {stop : TokenKind → Bool} {element : String}
      {gs : List Generator} (hshape : shape = .list ∨ shape = .generator)
      (hstop : ∀ k, isFor k = true → stop k = true) (helement : Captured source all stop element)
      (hloops : LoopsRead source all gs) :
      Reading source all { ofElement shape element gs with
        reduction := some { reducer := r }
        provenance := origin ("call_" ++ r.name) }

variable {source : List Char} {all ts rest : List Token} {depth : Nat} {stop : TokenKind → Bool}
  {c : Comprehension}

namespace Ahead

theorem drop (h : Ahead source all depth ts) {k : TokenKind} (hk : peek ts = k) (hne : k ≠ .eof) :
    Ahead source all (k.depthAfter depth) (ts.drop 1) :=
  ⟨(List.drop_suffix 1 ts).trans h.suffix, h.stream.drop hk hne⟩

theorem tail {t : Token} (h : Ahead source all depth (t :: ts)) (ht : t.kind ≠ .eof) :
    Ahead source all (t.kind.depthAfter depth) ts :=
  h.drop rfl ht

theorem opened (h : Ahead source all depth ts) (hopen : (peek ts).isOpening = true) :
    Ahead source all (depth + 1) (ts.drop 1) :=
  ⟨(List.drop_suffix 1 ts).trans h.suffix, h.stream.opened hopen⟩

/-- A run that is taken from the front leaves tokens at the same depth. -/
theorem captureRun (h : Ahead source all depth ts) (hdepth : 0 < depth) {x : Token × List Token}
    (hread : Comprehension.captureRun stop ts = .ok (x, rest)) : Ahead source all depth rest := by
  obtain ⟨hts, -, -⟩ := captureRun_eq_ok hread
  have hsuffix : rest <:+ ts := ⟨_, hts.symm⟩
  exact ⟨hsuffix.trans h.suffix, (h.stream.captureRun hdepth hread).2⟩

theorem capture (h : Ahead source all depth ts) (hdepth : 0 < depth) {s : String}
    (hread : Comprehension.capture source stop ts = .ok (s, rest)) :
    Captured source all stop s ∧ Ahead source all depth rest := by
  obtain ⟨first, run, hrun, -⟩ := capture_eq_ok hread
  exact ⟨⟨depth, ts, rest, hdepth, h, hread⟩, h.captureRun hdepth hrun⟩

theorem iterable (h : Ahead source all depth ts) (hdepth : 0 < depth) {items : Source}
    (hread : Comprehension.iterable source ts = .ok (items, rest)) :
    Ahead source all depth rest := by
  obtain ⟨first, run, hrun, -⟩ := iterable_eq_ok hread
  exact h.captureRun hdepth hrun

end Ahead

/-! Loops -/

theorem expect_eq_ok {k : TokenKind} (h : expect k ts = .ok rest) :
    ∃ span, ts = ⟨k, span⟩ :: rest := by
  unfold expect at h
  split at h
  next t us =>
    split at h
    next hk =>
      obtain rfl := Except.ok.inj h
      exact ⟨t.span, by rw [← hk]⟩
    next => simp at h
  next => simp at h

theorem loopVariable_eq_ok {bound : List String} {var : String}
    (h : loopVariable bound ts = .ok (var, rest)) :
    (∃ span, ts = ⟨.ident var, span⟩ :: rest) ∧ var ∉ bound := by
  unfold loopVariable at h
  split at h
  next name span us =>
    split at h
    · simp at h
    · split at h
      · simp at h
      next hnot =>
        obtain ⟨rfl, rfl⟩ := Prod.mk.inj (Except.ok.inj h)
        exact ⟨⟨span, rfl⟩, hnot⟩
  all_goals simp at h

theorem Ahead.filters (h : Ahead source all depth ts) (hdepth : 0 < depth) {fuel : Nat}
    {fs : List String} (hread : filters source fuel ts = .ok (fs, rest)) :
    (∀ s ∈ fs, Captured source all endsFilter s) ∧ Ahead source all depth rest := by
  induction fuel generalizing ts fs with
  | zero => simp [Comprehension.filters, Expr.outOfFuel] at hread
  | succ fuel ih =>
    rw [Comprehension.filters] at hread
    split at hread
    next hif =>
      obtain ⟨⟨s, us⟩, hcapture, hread₁⟩ := bind_eq_ok.mp hread
      obtain ⟨⟨more, vs⟩, hmore, hpure⟩ := bind_eq_ok.mp hread₁
      obtain ⟨rfl, rfl⟩ := Prod.mk.inj (pure_eq_ok.mp hpure)
      obtain ⟨hs, hus⟩ := (h.drop hif (by decide)).capture hdepth hcapture
      obtain ⟨hfs, hrest⟩ := ih hus hmore
      exact ⟨List.forall_mem_cons.mpr ⟨hs, hfs⟩, hrest⟩
    next =>
      obtain ⟨rfl, rfl⟩ := Prod.mk.inj (pure_eq_ok.mp hread)
      exact ⟨by simp, h⟩

/-- The head of a loop, and what is ahead behind it. -/
theorem Ahead.head (h : Ahead source all depth ts) (hfor : peek ts = .kwFor) {bound : List String}
    {var : String} {us : List Token} (hvar : loopVariable bound (ts.drop 1) = .ok (var, us))
    (hin : expect .kwIn us = .ok rest) :
    isName var = true ∧ StandsBehind all var rest ∧ Ahead source all depth rest := by
  obtain ⟨⟨varSpan, hdrop⟩, -⟩ := loopVariable_eq_ok hvar
  obtain ⟨inSpan, rfl⟩ := expect_eq_ok hin
  obtain ⟨forSpan, rfl⟩ : ∃ span,
      ts = ⟨.kwFor, span⟩ :: ⟨.ident var, varSpan⟩ :: ⟨.kwIn, inSpan⟩ :: rest := by
    cases ts with
    | nil => cases hfor
    | cons t ts =>
      obtain ⟨k, span⟩ := t
      obtain rfl : k = .kwFor := hfor
      exact ⟨span, congrArg _ hdrop⟩
  obtain ⟨before, hall⟩ := h.suffix
  have h₁ : Ahead source all depth (⟨.ident var, varSpan⟩ :: ⟨.kwIn, inSpan⟩ :: rest) :=
    h.tail (by simp)
  have h₂ : Ahead source all depth (⟨.kwIn, inSpan⟩ :: rest) := h₁.tail (by simp)
  exact ⟨h₁.stream.isName (by simp), ⟨before, forSpan, varSpan, inSpan, hall.symm⟩,
    h₂.tail (by simp)⟩

theorem Ahead.clauses (h : Ahead source all depth ts) (hdepth : 0 < depth) {bound : List String}
    {fuel : Nat} {gs : List Generator} (hread : clauses source bound fuel ts = .ok (gs, rest)) :
    (∀ g ∈ gs, LoopRead source all g) ∧ (gs.map (·.var)).Nodup ∧ (∀ g ∈ gs, g.var ∉ bound) ∧
      (peek ts = .kwFor → gs ≠ []) ∧ Ahead source all depth rest := by
  induction fuel generalizing ts gs bound with
  | zero => simp [Comprehension.clauses, Expr.outOfFuel] at hread
  | succ fuel ih =>
    rw [Comprehension.clauses] at hread
    split at hread
    next hfor =>
      obtain ⟨⟨var, ts₁⟩, hvar, hread₁⟩ := bind_eq_ok.mp hread
      obtain ⟨ts₂, hin, hread₂⟩ := bind_eq_ok.mp hread₁
      obtain ⟨⟨items, ts₃⟩, hitems, hread₃⟩ := bind_eq_ok.mp hread₂
      obtain ⟨⟨conditions, ts₄⟩, hfilters, hread₄⟩ := bind_eq_ok.mp hread₃
      obtain ⟨⟨more, ts₅⟩, hmore, hpure⟩ := bind_eq_ok.mp hread₄
      obtain ⟨rfl, rfl⟩ := Prod.mk.inj (pure_eq_ok.mp hpure)
      obtain ⟨hname, hbehind, h₂⟩ := h.head hfor hvar hin
      have h₃ := h₂.iterable hdepth hitems
      obtain ⟨hconditions, h₄⟩ := h₃.filters hdepth hfilters
      obtain ⟨hloops, hnodup, hbound, -, h₅⟩ := ih h₄ hmore
      have hloop : LoopRead source all ⟨var, items, conditions⟩ :=
        ⟨hname, ⟨depth, ts₂, ts₃, hdepth, h₂, hbehind, hitems⟩, hconditions⟩
      refine ⟨List.forall_mem_cons.mpr ⟨hloop, hloops⟩, ?_, ?_, by simp, h₅⟩
      · refine List.nodup_cons.mpr ⟨fun hmem => ?_, hnodup⟩
        obtain ⟨g, hg, hvar⟩ := List.mem_map.mp hmem
        exact hbound g hg (by simp [hvar])
      · refine List.forall_mem_cons.mpr ⟨(loopVariable_eq_ok hvar).2, fun g hg hmem => ?_⟩
        exact hbound g hg (by simp [hmem])
    next hfor =>
      obtain ⟨rfl, rfl⟩ := Prod.mk.inj (pure_eq_ok.mp hread)
      exact ⟨by simp, by simp, by simp, fun hpeek => absurd hpeek hfor, h⟩

theorem Ahead.loopsFrom (h : Ahead source all depth ts) (hdepth : 0 < depth)
    (hfor : peek ts = .kwFor) {gs : List Generator}
    (hread : loopsFrom source ts = .ok (gs, rest)) : LoopsRead source all gs := by
  obtain ⟨heach, hnodup, -, hne, -⟩ := h.clauses hdepth hread
  exact ⟨hne hfor, hnodup, heach⟩

/-! Comprehensions -/

/-- The loops up to the closing bracket, and what is made of them. -/
theorem Ahead.loops (h : Ahead source all depth ts) (hdepth : 0 < depth) (hfor : peek ts = .kwFor)
    {close : TokenKind} {build : List Generator × List Token → Comprehension}
    (hread : (Comprehension.loopsFrom source ts >>= fun x =>
      Parse.expect close x.2 >>= fun us => pure (build x, us)) = .ok (c, rest)) :
    ∃ gs us, LoopsRead source all gs ∧ c = build (gs, us) := by
  obtain ⟨⟨gs, us⟩, hloops, hread₁⟩ := bind_eq_ok.mp hread
  obtain ⟨vs, -, hpure⟩ := bind_eq_ok.mp hread₁
  obtain ⟨rfl, -⟩ := Prod.mk.inj (pure_eq_ok.mp hpure)
  exact ⟨gs, us, h.loopsFrom hdepth hfor hloops, rfl⟩

/-- A list or a generator, as its own or as the argument of a reducer. -/
theorem Ahead.bracketed (h : Ahead source all depth ts) (hopen : (peek ts).isOpening = true)
    {shape : Shape} (hshape : shape = .list ∨ shape = .generator)
    (hread : bracketed source shape ts = .ok (c, rest)) :
    ∃ element gs, Captured source all isFor element ∧ LoopsRead source all gs ∧
      c = { ofElement shape element gs with provenance := origin (originName shape) } := by
  obtain ⟨⟨element, ts₁⟩, hcapture, hread₁⟩ := bind_eq_ok.mp hread
  obtain ⟨helement, h₁⟩ := (h.opened hopen).capture depth.succ_pos hcapture
  dsimp only at hread₁
  split at hread₁
  next hfor =>
    obtain ⟨gs, us, hloops, rfl⟩ := h₁.loops depth.succ_pos hfor hread₁
    refine ⟨element, gs, helement, hloops, ?_⟩
    rcases hshape with rfl | rfl <;> rfl
  next => simp at hread₁

theorem Ahead.braced (h : Ahead source all depth ts) (hopen : (peek ts).isOpening = true)
    (hread : braced source ts = .ok (c, rest)) : Reading source all c := by
  obtain ⟨⟨first, ts₁⟩, hcapture, hread₁⟩ := bind_eq_ok.mp hread
  obtain ⟨hfirst, h₁⟩ := (h.opened hopen).capture depth.succ_pos hcapture
  dsimp only at hread₁
  split at hread₁
  next hcolon =>
    obtain ⟨⟨value, ts₂⟩, hcapture₂, hread₂⟩ := bind_eq_ok.mp hread₁
    have hbehind : Ahead source all (depth + 1) (ts₁.drop 1) := h₁.drop hcolon (by decide)
    obtain ⟨hvalue, h₂⟩ := hbehind.capture depth.succ_pos hcapture₂
    dsimp only at hread₂
    split at hread₂
    next hfor =>
      obtain ⟨gs, us, hloops, rfl⟩ := h₂.loops depth.succ_pos hfor hread₂
      exact .dict hfirst hvalue hloops
    next => simp at hread₂
  next =>
    split at hread₁
    next hfor =>
      obtain ⟨gs, us, hloops, rfl⟩ := h₁.loops depth.succ_pos hfor hread₁
      exact .set hfirst hloops
    next => simp at hread₁

/-! Reducers -/

theorem expectIdent_eq_ok {name : String} (h : expectIdent ts = .ok (name, rest)) :
    ∃ span, ts = ⟨.ident name, span⟩ :: rest := by
  unfold expectIdent at h
  split at h
  next n span us =>
    obtain ⟨rfl, rfl⟩ := Prod.mk.inj (Except.ok.inj h)
    exact ⟨span, rfl⟩
  next => simp at h

theorem name_of_ofName? {name : String} {r : Reducer} (h : Reducer.ofName? name = some r) :
    name = r.name := by
  unfold Reducer.ofName? at h
  split at h <;> cases h <;> rfl

theorem Ahead.reducerName (h : Ahead source all depth ts) {r : Reducer} {name : String}
    (hread : reducerName ts = .ok ((r, name), rest)) :
    name = r.name ∧ Ahead source all depth rest := by
  obtain ⟨⟨callee, ts₁⟩, hident, hread₁⟩ := bind_eq_ok.mp hread
  obtain ⟨span, rfl⟩ := expectIdent_eq_ok hident
  have h₁ : Ahead source all depth ts₁ := h.tail (by simp)
  dsimp only at hread₁
  split at hread₁
  next hmath =>
    simp only [Bool.and_eq_true, decide_eq_true_eq] at hmath
    obtain ⟨⟨field, ts₂⟩, hident₂, hread₂⟩ := bind_eq_ok.mp hread₁
    have h₂ : Ahead source all depth (ts₁.drop 1) := h₁.drop hmath.2 (by decide)
    obtain ⟨span₂, hfield⟩ := expectIdent_eq_ok hident₂
    rw [hfield] at h₂
    dsimp only at hread₂
    split at hread₂
    next hprod =>
      obtain ⟨hpair, rfl⟩ := Prod.mk.inj (pure_eq_ok.mp hread₂)
      obtain ⟨rfl, rfl⟩ := Prod.mk.inj hpair
      exact ⟨hprod, h₂.tail (by simp)⟩
    next => simp at hread₂
  next =>
    split at hread₁
    next r' hr =>
      obtain ⟨hpair, rfl⟩ := Prod.mk.inj (pure_eq_ok.mp hread₁)
      obtain ⟨rfl, rfl⟩ := Prod.mk.inj hpair
      exact ⟨name_of_ofName? hr, h₁⟩
    next => simp at hread₁

/-- The argument of a reducer ends with its loops, in brackets of its own or without. -/
theorem Ahead.reducerArgument (h : Ahead source all depth ts) (hdepth : 0 < depth) {name : String}
    (hread : reducerArgument source name ts = .ok (c, rest)) :
    ∃ shape stop element gs provenance, (shape = .list ∨ shape = .generator) ∧
      (∀ k, isFor k = true → stop k = true) ∧ Captured source all stop element ∧
      LoopsRead source all gs ∧ c = { ofElement shape element gs with provenance } := by
  unfold Comprehension.reducerArgument at hread
  split at hread
  next hwhole =>
    simp only [Bool.and_eq_true, decide_eq_true_eq] at hwhole
    obtain ⟨element, gs, helement, hloops, hc⟩ :=
      h.bracketed (by rw [hwhole.1]; rfl) (.inl rfl) hread
    exact ⟨_, isFor, element, gs, _, .inl rfl, fun _ => id, helement, hloops, hc⟩
  split at hread
  next hwhole =>
    simp only [Bool.and_eq_true, decide_eq_true_eq] at hwhole
    obtain ⟨element, gs, helement, hloops, hc⟩ :=
      h.bracketed (by rw [hwhole.1]; rfl) (.inr rfl) hread
    exact ⟨_, isFor, element, gs, _, .inr rfl, fun _ => id, helement, hloops, hc⟩
  split at hread
  next => simp at hread
  next =>
    obtain ⟨⟨element, ts₁⟩, hcapture, hread₁⟩ := bind_eq_ok.mp hread
    obtain ⟨helement, h₁⟩ := h.capture hdepth hcapture
    dsimp only at hread₁
    split at hread₁
    next hfor =>
      obtain ⟨⟨gs, ts₂⟩, hloops, hpure⟩ := bind_eq_ok.mp hread₁
      obtain ⟨rfl, -⟩ := Prod.mk.inj (pure_eq_ok.mp hpure)
      have hstop (k : TokenKind) (hk : isFor k = true) : endsElement k = true := by
        simp only [isFor, decide_eq_true_eq] at hk
        rw [hk]
        rfl
      exact ⟨.generator, endsElement, element, gs, .empty, .inr rfl, hstop, helement,
        h₁.loopsFrom hdepth hfor hloops, rfl⟩
    next => split at hread₁ <;> simp at hread₁

theorem Ahead.reducerCall (h : Ahead source all depth ts)
    (hread : reducerCall source ts = .ok (c, rest)) : Reading source all c := by
  obtain ⟨⟨⟨r, name⟩, ts₁⟩, hname, hread₁⟩ := bind_eq_ok.mp hread
  obtain ⟨rfl, h₁⟩ := h.reducerName hname
  dsimp only at hread₁
  split at hread₁
  next => simp at hread₁
  next hparen =>
    have hopen : (peek ts₁).isOpening = true := by
      rw [Decidable.not_not.mp hparen]
      rfl
    split at hread₁
    · simp at hread₁
    split at hread₁
    · simp at hread₁
    obtain ⟨⟨c', ts₂⟩, hargument, hread₂⟩ := bind_eq_ok.mp hread₁
    obtain ⟨shape, stop, element, gs, provenance, hshape, hstop, helement, hloops, rfl⟩ :=
      (h₁.opened hopen).reducerArgument depth.succ_pos hargument
    dsimp only at hread₂
    split at hread₂
    · simp at hread₂
    obtain ⟨ts₃, -, hpure⟩ := bind_eq_ok.mp hread₂
    obtain ⟨rfl, -⟩ := Prod.mk.inj (pure_eq_ok.mp hpure)
    exact .call hshape hstop helement hloops

/-! Statements -/

theorem Ahead.topLevel (h : Ahead source all depth ts)
    (hread : topLevel source ts = .ok (c, rest)) : Reading source all c := by
  unfold Comprehension.topLevel at hread
  split at hread
  next hpeek =>
    obtain ⟨element, gs, helement, hloops, rfl⟩ :=
      h.bracketed (by rw [hpeek]; rfl) (.inl rfl) hread
    exact .bracketed (.inl rfl) helement hloops
  next hpeek => exact h.braced (by rw [hpeek]; rfl) hread
  next hpeek =>
    obtain ⟨element, gs, helement, hloops, rfl⟩ :=
      h.bracketed (by rw [hpeek]; rfl) (.inr rfl) hread
    exact .bracketed (.inr rfl) helement hloops
  next => exact h.reducerCall hread
  next => simp at hread

theorem skipImports_eq_ok {fuel : Nat} {us : List Token} (h : skipImports fuel ts = .ok us) :
    us <:+ ts ∧ isImport (peek us) = false := by
  induction fuel generalizing ts with
  | zero => simp [skipImports, Expr.outOfFuel] at h
  | succ fuel ih =>
    rw [skipImports] at h
    split at h
    next himport =>
      dsimp only at h
      split at h
      · simp at h
      · obtain ⟨hsuffix, hnot⟩ := ih h
        refine ⟨hsuffix.trans ?_, hnot⟩
        refine (List.dropWhile_suffix _).trans ?_
        exact (List.dropWhile_suffix _).trans (List.drop_suffix 1 ts)
    next hnot =>
      obtain rfl := Except.ok.inj h
      exact ⟨List.suffix_rfl, by simpa using hnot⟩

theorem Ahead.assignment (h : Ahead source all depth ts) (hnot : isImport (peek ts) = false)
    {target : Option String} {us : List Token} (hassign : assignment ts = (target, us)) :
    Assignable target ∧ ∃ d, Ahead source all d us := by
  unfold Comprehension.assignment at hassign
  split at hassign
  next name span span' vs =>
    obtain ⟨rfl, rfl⟩ := Prod.mk.inj hassign
    refine ⟨fun n hn => ?_, _, (h.tail (by simp)).tail (by simp)⟩
    obtain rfl := Option.some.inj hn
    exact ⟨h.stream.isName (by simp), hnot⟩
  next =>
    obtain ⟨rfl, rfl⟩ := Prod.mk.inj hassign
    exact ⟨by simp [Assignable], depth, h⟩

theorem Ahead.statement (h : Ahead source all depth ts) (hread : statement source ts = .ok c) :
    ∃ c' target, Reading source all c' ∧ Assignable target ∧ assigned target c' = c := by
  obtain ⟨ts₁, himports, hread₁⟩ := bind_eq_ok.mp hread
  obtain ⟨hsuffix, hnot⟩ := skipImports_eq_ok himports
  dsimp only at hread₁
  split at hread₁
  next => simp at hread₁
  next hend =>
    have hne : ts₁ ≠ [] := by
      rintro rfl
      exact hend rfl
    have hsuffix₁ : ts₁ <:+ ts := hsuffix.trans (List.dropWhile_suffix _)
    obtain ⟨d₁, hstream⟩ := h.stream.suffix hsuffix₁ hne
    have h₁ : Ahead source all d₁ ts₁ := ⟨hsuffix₁.trans h.suffix, hstream⟩
    obtain ⟨⟨c', ts₃⟩, htop, hread₂⟩ := bind_eq_ok.mp hread₁
    obtain ⟨hassignable, d₂, h₂⟩ := h₁.assignment hnot rfl
    dsimp only at hread₂
    split at hread₂
    next => exact ⟨c', _, h₂.topLevel htop, hassignable, pure_eq_ok.mp hread₂⟩
    next => simp at hread₂

/-- What a source states was read from its tokens, and perhaps given a name. -/
theorem reading_of_parse {source : String} (h : parse source = .ok c) :
    ∃ ts, scan source.toList = .ok ts ∧ ∃ c' target, Reading source.toList ts c' ∧
      Assignable target ∧ assigned target c' = c := by
  unfold parse at h
  split at h
  next => simp at h
  next ts hscan =>
    have hahead : Ahead source.toList ts 0 ts := ⟨List.suffix_rfl, stream_of_scan hscan⟩
    exact ⟨ts, hscan, hahead.statement h⟩

theorem Reading.loopsRead (h : Reading source all c) : LoopsRead source all c.generators := by
  cases h <;> assumption

theorem generators_assigned (target : Option String) (c : Comprehension) :
    (assigned target c).generators = c.generators := by
  cases target <;> rfl

theorem loopsRead_of_parse {source : String} (h : parse source = .ok c) :
    ∃ ts, scan source.toList = .ok ts ∧ LoopsRead source.toList ts c.generators := by
  obtain ⟨ts, hscan, c', target, hreading, -, rfl⟩ := reading_of_parse h
  rw [generators_assigned]
  exact ⟨ts, hscan, hreading.loopsRead⟩

end Comprehend.Comprehension
