import Comprehend.Expr.Basic
import Comprehend.Text.CharClass

/-! Conditions of SQL as a reader of the language sees them. A text consists of words, quoted texts
and other characters; brackets keep what stands between them together, and so do the words of a
conditional. Outside of them OR binds least, AND binds more and NOT binds most; what is left are
comparisons of two operands, whose truth is given. A comparison may be unknown, so truth has three
values. -/
namespace Comprehend.Target.Sql

/-! Truth -/

/-- A truth value; `none` is the unknown one. -/
abbrev Truth := Option Bool

namespace Truth

def not : Truth → Truth
  | some b => some !b
  | none => none

def and : Truth → Truth → Truth
  | some false, _ => some false
  | _, some false => some false
  | some true, some true => some true
  | _, _ => none

def or : Truth → Truth → Truth
  | some true, _ => some true
  | _, some true => some true
  | some false, some false => some false
  | _, _ => none

theorem not_eq_true {a : Truth} : not a = some true ↔ a = some false := by
  rcases a with _ | _ | _ <;> simp [not]

theorem and_eq_true {a b : Truth} : and a b = some true ↔ a = some true ∧ b = some true := by
  rcases a with _ | _ | _ <;> rcases b with _ | _ | _ <;> simp [and]

theorem or_eq_true {a b : Truth} : or a b = some true ↔ a = some true ∨ b = some true := by
  rcases a with _ | _ | _ <;> rcases b with _ | _ | _ <;> simp [or]

theorem and_assoc (a b c : Truth) : and (and a b) c = and a (and b c) := by
  rcases a with _ | _ | _ <;> rcases b with _ | _ | _ <;> rcases c with _ | _ | _ <;> rfl

theorem or_assoc (a b c : Truth) : or (or a b) c = or a (or b c) := by
  rcases a with _ | _ | _ <;> rcases b with _ | _ | _ <;> rcases c with _ | _ | _ <;> rfl

end Truth

/-! Signs -/

/-- The characters of a word, or of a relation such as `<=`, are one sign. -/
inductive Sign where
  | word (cs : List Char)
  | quoted (cs : List Char)
  | mark (c : Char)
deriving DecidableEq

inductive Role where
  | plain | disjunction | conjunction | negation | relation | opening | closing
deriving DecidableEq

namespace Sign

/-- Words of the language are recognised in capital letters and in small ones. -/
def relation? : Sign → Option CmpOp
  | word cs =>
    match cs.map Char.toUpper with
    | ['='] => some .eq
    | ['<', '>'] => some .notEq
    | ['<'] => some .lt
    | ['>'] => some .gt
    | ['<', '='] => some .ltEq
    | ['>', '='] => some .gtEq
    | ['I', 'N'] => some .isIn
    | ['I', 'S'] => some .same
    | _ => none
  | _ => none

def role : Sign → Role
  | word cs =>
    match cs.map Char.toUpper with
    | ['O', 'R'] => .disjunction
    | ['A', 'N', 'D'] => .conjunction
    | ['N', 'O', 'T'] => .negation
    | ['C', 'A', 'S', 'E'] => .opening
    | ['E', 'N', 'D'] => .closing
    | _ => if (relation? (word cs)).isSome then .relation else .plain
  | quoted _ => .plain
  | mark c =>
    if c = '(' ∨ c = '[' then .opening else if c = ')' ∨ c = ']' then .closing else .plain

def isRelational (c : Char) : Bool :=
  c == '<' || c == '>' || c == '='

/-- The character belongs to the same sign as the ones before it; `seen` holds them, last first. -/
def continues : (seen : List Char) → Char → Bool
  | [], c => Text.isIdentRest c || isRelational c
  | b :: _, c =>
    (Text.isIdentRest b && Text.isIdentRest c) || (isRelational b && isRelational c)

def ofRun (seen : List Char) : List Sign :=
  if seen.isEmpty then [] else [word seen.reverse]

/-- A character that is a sign alone; blanks only part what stands around them. -/
def ofChar (c : Char) : List Sign :=
  if Text.isBlank c then [] else [mark c]

/-- The signs of a text inside or outside of quotes; `seen` holds the word or quoted text that is
not finished, last character first. -/
def scan : (inside : Bool) → (seen : List Char) → List Char → List Sign
  | false, seen, [] => ofRun seen
  | true, seen, [] => [quoted seen.reverse]
  | false, seen, c :: cs =>
    if continues seen c then scan false (c :: seen) cs
    else if continues [] c then ofRun seen ++ scan false [c] cs
    else if c = '\'' then ofRun seen ++ scan true [] cs
    else ofRun seen ++ ofChar c ++ scan false [] cs
  | true, seen, c :: cs =>
    if c = '\'' then quoted seen.reverse :: scan false [] cs else scan true (c :: seen) cs

end Sign

def signs (s : String) : List Sign :=
  Sign.scan false [] s.toList

/-! Cuts at signs outside of brackets -/

def after (d : Nat) (s : Sign) : Nat :=
  match s.role with
  | .opening => d + 1
  | .closing => d - 1
  | _ => d

def depth (d : Nat) (ts : List Sign) : Nat :=
  ts.foldl after d

/-- What stands before and behind the first sign of a role that lies outside of all brackets, with
`d` brackets open at the start. -/
def cut (ρ : Role) : (d : Nat) → List Sign → Option (List Sign × List Sign)
  | _, [] => none
  | d, s :: ts =>
    if d = 0 ∧ s.role = ρ then some ([], ts)
    else (cut ρ (after d s) ts).map fun x => (s :: x.1, x.2)

section Cut

variable {ρ : Role} {d : Nat} {s : Sign} {ts us l r : List Sign}

theorem depth_append (d : Nat) (ts us : List Sign) : depth d (ts ++ us) = depth (depth d ts) us :=
  List.foldl_append

theorem cut_cons_of_not (h : ¬(d = 0 ∧ s.role = ρ)) (ts : List Sign) :
    cut ρ d (s :: ts) = (cut ρ (after d s) ts).map fun x => (s :: x.1, x.2) :=
  if_neg h

theorem cut_cons_self (h : s.role = ρ) (ts : List Sign) : cut ρ 0 (s :: ts) = some ([], ts) :=
  if_pos ⟨rfl, h⟩

theorem cut_cons_eq_none :
    cut ρ d (s :: ts) = none ↔ ¬(d = 0 ∧ s.role = ρ) ∧ cut ρ (after d s) ts = none := by
  rw [cut]
  split <;> simp_all

theorem cut_append_of_some (h : cut ρ d ts = some (l, r)) (us : List Sign) :
    cut ρ d (ts ++ us) = some (l, r ++ us) := by
  induction ts generalizing d l with
  | nil => cases h
  | cons s ts ih =>
    rw [cut] at h
    rw [List.cons_append, cut]
    split at h
    · cases h
      rw [if_pos ‹_›]
    · rw [if_neg ‹_›]
      obtain ⟨⟨l', r'⟩, hcut, heq⟩ := Option.map_eq_some_iff.mp h
      cases heq
      rw [ih hcut, Option.map_some]

theorem cut_append_of_none (h : cut ρ d ts = none) (us : List Sign) :
    cut ρ d (ts ++ us) = (cut ρ (depth d ts) us).map fun x => (ts ++ x.1, x.2) := by
  induction ts generalizing d with
  | nil => simp [depth]
  | cons s ts ih =>
    rw [cut_cons_eq_none] at h
    rw [List.cons_append, cut_cons_of_not h.1, ih h.2, Option.map_map]
    rfl

theorem cut_append_eq_none :
    cut ρ d (ts ++ us) = none ↔ cut ρ d ts = none ∧ cut ρ (depth d ts) us = none := by
  cases h : cut ρ d ts with
  | none => simp [cut_append_of_none h]
  | some x => simp [cut_append_of_some (l := x.1) (r := x.2) h]

/-- A cut takes out one sign, and no bracket is open before it. -/
theorem eq_of_cut (h : cut ρ d ts = some (l, r)) :
    ∃ s, s.role = ρ ∧ ts = l ++ s :: r ∧ depth d l = 0 ∧ cut ρ d l = none := by
  induction ts generalizing d l with
  | nil => cases h
  | cons s ts ih =>
    rw [cut] at h
    split at h
    next hs =>
      cases h
      exact ⟨s, hs.2, rfl, hs.1, rfl⟩
    next hs =>
      obtain ⟨⟨l', r'⟩, hcut, heq⟩ := Option.map_eq_some_iff.mp h
      cases heq
      obtain ⟨o, ho, hts, hdepth, hnone⟩ := ih hcut
      exact ⟨o, ho, by rw [hts, List.cons_append], hdepth, cut_cons_eq_none.mpr ⟨hs, hnone⟩⟩

theorem length_of_cut (h : cut ρ d ts = some (l, r)) :
    l.length < ts.length ∧ r.length < ts.length := by
  obtain ⟨s, -, rfl, -⟩ := eq_of_cut h
  simp only [List.length_append, List.length_cons]
  omega

theorem after_succ (h : ¬(d = 0 ∧ s.role = .closing)) : after (d + 1) s = after d s + 1 := by
  unfold after
  cases hrole : s.role with
  | closing =>
    have hd : d ≠ 0 := fun hd => h ⟨hd, hrole⟩
    dsimp only
    omega
  | _ => rfl

/-- Signs that close no bracket of their surroundings stay inside of one more bracket. -/
theorem depth_succ (h : cut .closing d ts = none) : depth (d + 1) ts = depth d ts + 1 := by
  induction ts generalizing d with
  | nil => rfl
  | cons s ts ih =>
    obtain ⟨hs, hrest⟩ := cut_cons_eq_none.mp h
    calc depth (d + 1) (s :: ts)
      _ = depth (after d s + 1) ts := by rw [← after_succ hs]; rfl
      _ = depth (after d s) ts + 1 := ih hrest

theorem cut_succ (h : cut .closing d ts = none) (ρ : Role) : cut ρ (d + 1) ts = none := by
  induction ts generalizing d with
  | nil => rfl
  | cons s ts ih =>
    obtain ⟨hs, hrest⟩ := cut_cons_eq_none.mp h
    refine cut_cons_eq_none.mpr ⟨by simp, ?_⟩
    rw [after_succ hs]
    exact ih hrest

end Cut

/-! The truth of a condition -/

/-- What stands between round brackets that enclose all signs. -/
def inner? : List Sign → Option (List Sign)
  | .mark '(' :: ts =>
    match cut .closing 0 ts with
    | some (inner, []) => some inner
    | _ => none
  | _ => none

/-- One connective, or a pair of brackets, is taken off; `v` gives the truth of a comparison and
`self` that of what the connective joins. -/
def step (v self : List Sign → Truth) (ts : List Sign) : Truth :=
  match cut .disjunction 0 ts with
  | some (l, r) => Truth.or (self l) (self r)
  | none =>
    match cut .conjunction 0 ts with
    | some (l, r) => Truth.and (self l) (self r)
    | none =>
      match ts with
      | [] => v []
      | s :: rest =>
        if s.role = .negation then Truth.not (self rest)
        else
          match inner? (s :: rest) with
          | some inner => self inner
          | none => v (s :: rest)

def evaluate (v : List Sign → Truth) : (fuel : Nat) → List Sign → Truth
  | 0, ts => v ts
  | fuel + 1, ts => step v (evaluate v fuel) ts

def truth (v : List Sign → Truth) (ts : List Sign) : Truth :=
  evaluate v (ts.length + 1) ts

section Step

variable {v : List Sign → Truth} {ts us : List Sign}

theorem eq_of_inner? {inner : List Sign} (h : inner? ts = some inner) :
    ∃ s, s.role = .closing ∧ ts = .mark '(' :: inner ++ [s] := by
  unfold inner? at h
  split at h
  · split at h
    next hcut =>
      cases h
      obtain ⟨s, hs, rfl, -⟩ := eq_of_cut hcut
      exact ⟨s, hs, rfl⟩
    · cases h
  · cases h

theorem length_of_inner? {inner : List Sign} (h : inner? ts = some inner) :
    inner.length < ts.length := by
  obtain ⟨s, -, rfl⟩ := eq_of_inner? h
  rw [List.cons_append, List.length_cons, List.length_append]
  omega

theorem step_congr {f g : List Sign → Truth} (h : ∀ us, us.length < ts.length → f us = g us) :
    step v f ts = step v g ts := by
  unfold step
  split
  next hcut => rw [h _ (length_of_cut hcut).1, h _ (length_of_cut hcut).2]
  · split
    next hcut => rw [h _ (length_of_cut hcut).1, h _ (length_of_cut hcut).2]
    · cases ts with
      | nil => rfl
      | cons s rest =>
        dsimp only
        split
        · rw [h rest (by simp)]
        · split
          next inner hinner => exact h inner (length_of_inner? hinner)
          · rfl

theorem evaluate_eq {n m : Nat} (hn : ts.length < n) (hm : ts.length < m) :
    evaluate v n ts = evaluate v m ts := by
  induction n generalizing m ts with
  | zero => omega
  | succ n ih =>
    cases m with
    | zero => omega
    | succ m => exact step_congr fun us hus => ih (by omega) (by omega)

/-- The fuel is always enough. -/
theorem truth_eq_step (v : List Sign → Truth) (ts : List Sign) : truth v ts = step v (truth v) ts :=
  step_congr fun _ hus => evaluate_eq hus (Nat.lt_succ_self _)

end Step

/-! Signs that hold together -/

/-- How tightly the operands of a connective bind at least; no other sign takes a text apart, but a
bracket without its partner. -/
def Role.rank : Role → Nat
  | closing => 0
  | disjunction => 2
  | conjunction => 3
  | negation | relation => 5
  | opening | plain => 15

/-- Every bracket has its partner, and a connective outside of brackets binds at least as tightly
as `n`. -/
structure Binds (n : Nat) (ts : List Sign) : Prop where
  depth_eq : depth 0 ts = 0
  hides (ρ : Role) (h : ρ.rank < n) : cut ρ 0 ts = none

namespace Binds

variable {m n : Nat} {ts us l r : List Sign} {s : Sign}

theorem mono (h : Binds n ts) (hmn : m ≤ n) : Binds m ts :=
  ⟨h.depth_eq, fun ρ hρ => h.hides ρ (by omega)⟩

/-- Beyond the connectives nothing is left to hide. -/
theorem tight (h : Binds 6 ts) : Binds 14 ts :=
  ⟨h.depth_eq, fun ρ hρ => h.hides ρ (by cases ρ <;> simp_all [Role.rank])⟩

theorem append (ht : Binds n ts) (hu : Binds n us) : Binds n (ts ++ us) where
  depth_eq := by rw [depth_append, ht.depth_eq, hu.depth_eq]
  hides ρ hρ := cut_append_eq_none.mpr ⟨ht.hides ρ hρ, by rw [ht.depth_eq, hu.hides ρ hρ]⟩

theorem right (h : Binds n (l ++ s :: r)) (hdepth : depth 0 l = 0) (hs : after 0 s = 0) :
    Binds n r where
  depth_eq := by
    have hall := h.depth_eq
    rw [depth_append, hdepth] at hall
    have hrest : depth (after 0 s) r = 0 := hall
    rwa [hs] at hrest
  hides ρ hρ := by
    have hall := (cut_append_eq_none.mp (h.hides ρ hρ)).2
    rw [hdepth, cut_cons_eq_none, hs] at hall
    exact hall.2

theorem connective {k : Nat} (hs : s.role = .disjunction ∨ s.role = .conjunction)
    (hk : k ≤ s.role.rank) : Binds k [s] where
  depth_eq := by rcases hs with hs | hs <;> simp [depth, after, hs]
  hides ρ hρ := by
    refine cut_cons_eq_none.mpr ⟨fun h => ?_, rfl⟩
    rw [h.2] at hk
    omega

theorem closed (h : Binds 1 ts) : (d : Nat) → cut .closing d ts = none
  | 0 => h.hides .closing (by decide)
  | d + 1 => cut_succ (h.closed d) .closing

/-- Inside of brackets signs with all their partners show nothing. -/
theorem cut_inside (h : Binds 1 ts) (ρ : Role) (d : Nat) : cut ρ (d + 1) ts = none :=
  cut_succ (h.closed d) ρ

theorem depth_inside (h : Binds 1 ts) : (d : Nat) → depth d ts = d
  | 0 => h.depth_eq
  | d + 1 => by rw [depth_succ (h.closed d), h.depth_inside d]

end Binds

section Connectives

variable {v : List Sign → Truth} {ts us l r : List Sign} {s : Sign}

theorem truth_of_disjunction (h : cut .disjunction 0 ts = some (l, r)) :
    truth v ts = Truth.or (truth v l) (truth v r) := by
  rw [truth_eq_step]
  simp only [step, h]

theorem truth_of_conjunction (hor : cut .disjunction 0 ts = none)
    (h : cut .conjunction 0 ts = some (l, r)) :
    truth v ts = Truth.and (truth v l) (truth v r) := by
  rw [truth_eq_step]
  simp only [step, hor, h]

theorem truth_of_single (hor : cut .disjunction 0 ts = none) (hand : cut .conjunction 0 ts = none)
    (hts : ts = s :: r) : truth v ts =
      if s.role = .negation then Truth.not (truth v r)
      else match inner? ts with
        | some inner => truth v inner
        | none => v ts := by
  subst hts
  rw [truth_eq_step]
  simp only [step, hor, hand]

/-- A disjunction outside of brackets; the left side may be one as well. -/
theorem truth_or (hs : s.role = .disjunction) (ht : Binds 1 ts) (us : List Sign) :
    truth v (ts ++ s :: us) = Truth.or (truth v ts) (truth v us) := by
  induction hn : ts.length using Nat.strongRecOn generalizing ts with
  | ind n ih =>
    cases hcut : cut .disjunction 0 ts with
    | none =>
      have hwhole : cut .disjunction 0 (ts ++ s :: us) = some (ts, us) := by
        rw [cut_append_of_none hcut, ht.depth_eq, cut_cons_self hs]
        simp
      exact truth_of_disjunction hwhole
    | some x =>
      -- the first disjunction lies on the left, and the other one behind it
      obtain ⟨l, r⟩ := x
      have hlength := (length_of_cut hcut).2
      obtain ⟨o, ho, hts, hdepth, -⟩ := eq_of_cut hcut
      have hr : Binds 1 r := Binds.right (hts ▸ ht) hdepth (by simp [after, ho])
      calc truth v (ts ++ s :: us)
        _ = Truth.or (truth v l) (truth v (r ++ s :: us)) :=
            truth_of_disjunction (cut_append_of_some hcut _)
        _ = Truth.or (truth v l) (Truth.or (truth v r) (truth v us)) := by
            rw [ih r.length (by omega) hr rfl]
        _ = Truth.or (truth v ts) (truth v us) := by
            rw [← Truth.or_assoc, truth_of_disjunction hcut]

/-- A conjunction outside of brackets, next to no disjunction; the left side may be one as well. -/
theorem truth_and (hs : s.role = .conjunction) (ht : Binds 3 ts) (hu : Binds 3 us) :
    truth v (ts ++ s :: us) = Truth.and (truth v ts) (truth v us) := by
  have hsign : Binds 3 [s] := Binds.connective (.inr hs) (by simp [hs, Role.rank])
  have hor {ls : List Sign} (hl : Binds 3 ls) : cut .disjunction 0 (ls ++ s :: us) = none :=
    (hl.append (hsign.append hu)).hides _ (by decide)
  induction hn : ts.length using Nat.strongRecOn generalizing ts with
  | ind n ih =>
    have hnone : cut .disjunction 0 ts = none := ht.hides _ (by decide)
    cases hcut : cut .conjunction 0 ts with
    | none =>
      have hwhole : cut .conjunction 0 (ts ++ s :: us) = some (ts, us) := by
        rw [cut_append_of_none hcut, ht.depth_eq, cut_cons_self hs]
        simp
      exact truth_of_conjunction (hor ht) hwhole
    | some x =>
      obtain ⟨l, r⟩ := x
      have hlength := (length_of_cut hcut).2
      obtain ⟨o, ho, hts, hdepth, -⟩ := eq_of_cut hcut
      have hr : Binds 3 r := Binds.right (hts ▸ ht) hdepth (by simp [after, ho])
      calc truth v (ts ++ s :: us)
        _ = Truth.and (truth v l) (truth v (r ++ s :: us)) :=
            truth_of_conjunction (hor ht) (cut_append_of_some hcut _)
        _ = Truth.and (truth v l) (Truth.and (truth v r) (truth v us)) := by
            rw [ih r.length (by omega) hr rfl]
        _ = Truth.and (truth v ts) (truth v us) := by
            rw [← Truth.and_assoc, truth_of_conjunction hnone hcut]

theorem truth_not (hs : s.role = .negation) (h : Binds 4 ts) :
    truth v (s :: ts) = Truth.not (truth v ts) := by
  have hcut (ρ : Role) (hρ : ρ.rank < 4) : cut ρ 0 (s :: ts) = none := by
    refine cut_cons_eq_none.mpr ⟨fun hrole => ?_, ?_⟩
    · rw [← hrole.2, hs] at hρ
      exact absurd hρ (by decide)
    · simpa [after, hs] using h.hides ρ hρ
  rw [truth_of_single (hcut _ (by decide)) (hcut _ (by decide)) rfl, if_pos hs]

end Connectives

section Brackets

variable {v : List Sign → Truth} {ts us : List Sign}

theorem Binds.round (h : Binds 1 ts) : Binds 14 (.mark '(' :: ts ++ [.mark ')']) := by
  have hdepth : depth 1 ts = 1 := h.depth_inside 1
  refine ⟨?_, fun ρ hρ => ?_⟩
  · have hlast : depth 1 [.mark ')'] = 0 := by decide
    rw [List.cons_append]
    show depth 1 (ts ++ [.mark ')']) = 0
    rw [depth_append, hdepth, hlast]
  · have hfirst : ¬(0 = 0 ∧ (Sign.mark '(').role = ρ) := fun hrole => by
      rw [← hrole.2] at hρ
      exact absurd hρ (by decide)
    have hlast : cut ρ 1 [.mark ')'] = none := by cases ρ <;> rfl
    rw [List.cons_append]
    refine cut_cons_eq_none.mpr ⟨hfirst, cut_append_eq_none.mpr ⟨h.cut_inside ρ 0, ?_⟩⟩
    show cut ρ (depth 1 ts) [.mark ')'] = none
    rw [hdepth, hlast]

theorem inner?_round (h : Binds 1 ts) : inner? (.mark '(' :: ts ++ [.mark ')']) = some ts := by
  have hcut : cut .closing 0 (ts ++ [.mark ')']) = some (ts, []) := by
    rw [cut_append_of_none (h.hides _ (by decide)), h.depth_eq, cut_cons_self (by decide)]
    simp
  rw [List.cons_append, inner?, hcut]

theorem truth_round (h : Binds 1 ts) : truth v (.mark '(' :: ts ++ [.mark ')']) = truth v ts := by
  rw [truth_of_single (h.round.hides _ (by decide)) (h.round.hides _ (by decide))
    (List.cons_append ..), if_neg (by decide), inner?_round h]

/-- An open bracket is closed before the signs end at the depth where they started. -/
theorem exists_cut_closing (hts : depth 0 (.mark '(' :: ts) = 0) :
    ∃ x, cut .closing 0 ts = some x := by
  cases hcut : cut .closing 0 ts with
  | some x => exact ⟨x, rfl⟩
  | none =>
    have hdepth : depth 1 ts = depth 0 ts + 1 := depth_succ hcut
    have hzero : depth 1 ts = 0 := hts
    omega

/-- Brackets around the first part of a text do not enclose the whole. -/
theorem inner?_append {s : Sign} (hdepth : depth 0 (s :: ts) = 0) (hu : us ≠ []) :
    inner? (s :: ts ++ us) = none := by
  cases hinner : inner? (s :: ts ++ us) with
  | none => rfl
  | some inner =>
    obtain ⟨c, -, heq⟩ := eq_of_inner? hinner
    obtain ⟨rfl, -⟩ := List.cons.inj heq
    obtain ⟨⟨l, r⟩, hcut⟩ := exists_cut_closing hdepth
    rw [List.cons_append, inner?, cut_append_of_some hcut us] at hinner
    split at hinner
    next h => exact absurd (List.append_eq_nil_iff.mp (congrArg Prod.snd (Option.some.inj h))).2 hu
    · cases hinner

/-- A text that shows no connective and begins with an operand is a comparison. -/
theorem truth_comparison (h : Binds 5 (ts ++ us)) (ht : Binds 6 ts) (hne : ts ≠ []) (hu : us ≠ []) :
    truth v (ts ++ us) = v (ts ++ us) := by
  obtain ⟨s, rest, rfl⟩ := List.exists_cons_of_ne_nil hne
  have hfirst : s.role ≠ .negation := fun hs =>
    (cut_cons_eq_none.mp (ht.hides .negation (by decide))).1 ⟨rfl, hs⟩
  have hinner : inner? (s :: rest ++ us) = none := inner?_append ht.depth_eq hu
  rw [truth_of_single (h.hides _ (by decide)) (h.hides _ (by decide)) (List.cons_append ..),
    if_neg hfirst, hinner]

end Brackets

/-! Comparisons -/

/-- The signs without the round brackets that enclose them all, `fuel` pairs at most. -/
def strip : (fuel : Nat) → List Sign → List Sign
  | 0, ts => ts
  | fuel + 1, ts =>
    match inner? ts with
    | some inner => strip fuel inner
    | none => ts

def bare (ts : List Sign) : List Sign :=
  strip ts.length ts

section Comparisons

variable {ts l : List Sign}

theorem strip_eq {n m : Nat} (hn : ts.length ≤ n) (hm : ts.length ≤ m) :
    strip n ts = strip m ts := by
  have hnil (k : Nat) : strip k [] = [] := by cases k <;> rfl
  induction n generalizing m ts with
  | zero =>
    obtain rfl := List.eq_nil_of_length_eq_zero (Nat.le_zero.mp hn)
    rw [hnil, hnil]
  | succ n ih =>
    cases m with
    | zero =>
      obtain rfl := List.eq_nil_of_length_eq_zero (Nat.le_zero.mp hm)
      rw [hnil, hnil]
    | succ m =>
      rw [strip, strip]
      split
      next inner hinner =>
        have hlength := length_of_inner? hinner
        exact ih (by omega) (by omega)
      · rfl

theorem bare_round (h : Binds 1 ts) : bare (.mark '(' :: ts ++ [.mark ')']) = bare ts := by
  have hlength : (Sign.mark '(' :: ts ++ [Sign.mark ')']).length = (ts.length + 1) + 1 := by simp
  rw [bare, hlength, strip, inner?_round h]
  exact strip_eq (Nat.le_succ _) (Nat.le_refl _)

/-- Two operands, without brackets around them, and what a condition asks of them. -/
structure Comparison where
  left : List Sign
  op : CmpOp
  right : List Sign
deriving DecidableEq

/-- The comparison of what stands on both sides of a sign. The word NOT before IN belongs to it, and
so does the one behind IS. -/
def Comparison.around (l : List Sign) (op : CmpOp) (r : List Sign) : Comparison :=
  if op = .isIn ∧ l.getLast?.any (·.role = .negation) then ⟨bare l.dropLast, .notIn, bare r⟩
  else if op = .same ∧ r.head?.any (·.role = .negation) then ⟨bare l, .notSame, bare r.tail⟩
  else ⟨bare l, op, bare r⟩

def Comparison.read? (ts : List Sign) : Option Comparison :=
  match cut .relation 0 ts with
  | some (l, r) => (ts[l.length]?.bind Sign.relation?).map (Comparison.around l · r)
  | none => none

/-- The truth of a text that is a comparison; any other one is unknown. -/
def reading (v : Comparison → Truth) (ts : List Sign) : Truth :=
  match Comparison.read? ts with
  | some c => v c
  | none => none

theorem role_of_relation? {s : Sign} {op : CmpOp} (h : s.relation? = some op) :
    s.role = .relation := by
  cases s with
  | word cs =>
    unfold Sign.role
    dsimp only
    split
    case h_6 => rw [h]; rfl
    all_goals next hcs => simp [Sign.relation?, hcs] at h
  | _ => cases h

theorem Comparison.read?_append {s : Sign} {op : CmpOp} (hdepth : depth 0 l = 0)
    (hcut : cut .relation 0 l = none) (hs : s.relation? = some op) (r : List Sign) :
    Comparison.read? (l ++ s :: r) = some (Comparison.around l op r) := by
  have hwhole : cut .relation 0 (l ++ s :: r) = some (l, r) := by
    rw [cut_append_of_none hcut, hdepth, cut_cons_self (role_of_relation? hs)]
    simp
  simp [Comparison.read?, hwhole, hs]

theorem role_getLast? (hdepth : depth 0 ts = 0) (hcut : cut .negation 0 ts = none) :
    ts.getLast?.any (·.role = .negation) = false := by
  obtain rfl | ⟨l, s, rfl⟩ := List.eq_nil_or_concat ts
  · rfl
  · rw [List.concat_eq_append] at hdepth hcut ⊢
    -- a negation changes no depth, so the last sign would lie outside of brackets
    have hlast := (cut_append_eq_none.mp hcut).2
    simp only [List.getLast?_concat, Option.any_some, decide_eq_false_iff_not]
    intro hs
    have hbefore : depth 0 l = 0 := by
      simpa [depth_append, depth, after, hs] using hdepth
    rw [hbefore, cut_cons_self hs] at hlast
    cases hlast

theorem role_head? (hcut : cut .negation 0 ts = none) :
    ts.head?.any (·.role = .negation) = false := by
  cases ts with
  | nil => rfl
  | cons s ts => simpa using (cut_cons_eq_none.mp hcut).1

end Comparisons

end Comprehend.Target.Sql
