import Comprehend.Proofs.Faults
import Comprehend.Proofs.Readings

/-! Failures of the reader of comprehensions. Whatever the tokens are, each part of it leaves some
of them or fails at tokens that are there. -/
namespace Comprehend.Comprehension

open Token Parse

theorem Stream.ended {source : List Char} {depth : Nat} {ts : List Token}
    (h : Stream source depth ts) : Ended ts := by
  obtain ⟨p, qs, last, rfl, hlast, -⟩ := h
  exact ⟨_, last, rfl, hlast⟩

variable {stop : TokenKind → Bool} {source : List Char} {ts rest : List Token} {depth : Nat}
  {fault : ParseFault}

/-! Runs -/

theorem runUntil_halts (h : Ended ts) : Halts ts (runUntil stop depth ts) := by
  induction ts generalizing depth with
  | nil => exact absurd rfl h.ne_nil
  | cons t ts ih =>
    rw [runUntil]
    split
    next heof =>
      split
      · exact reaches_failAt h (by simp)
      · exact reaches_pure h
    next hne =>
      split
      · exact reaches_pure h
      · refine ((ih (h.drop hne)).bind fun run rest _ hrest => ?_).mono (List.suffix_cons t ts)
        exact reaches_pure hrest

theorem captureRun_halts (h : Ended ts) : Halts ts (captureRun stop ts) := by
  refine (runUntil_halts h).bind fun us rest _ hrest => ?_
  cases us with
  | nil => exact reaches_failAt hrest (by simp)
  | cons first run => exact reaches_pure hrest

theorem capture_halts (h : Ended ts) : Halts ts (capture source stop ts) := by
  refine (captureRun_halts h).bind fun x rest _ hrest => ?_
  exact reaches_pure hrest

/-! Ranges -/

theorem mem_of_splitAtCommas {us : List Token} (h : us ∈ splitAtCommas depth ts) : us ⊆ ts := by
  fun_induction splitAtCommas depth ts generalizing us with
  | case1 => simp_all
  | case2 depth t ts hcomma ih =>
    rcases List.mem_cons.mp h with rfl | h
    · simp
    · exact List.subset_cons_of_subset t (ih h)
  | case3 depth t ts hgoes run runs hsplit ih =>
    rw [hsplit] at ih
    rcases List.mem_cons.mp h with rfl | h
    · exact List.cons_subset_cons t (ih List.mem_cons_self)
    · exact List.subset_cons_of_subset t (ih (List.mem_cons_of_mem _ h))
  | case4 depth t ts hgoes hsplit ih =>
    obtain rfl := List.mem_singleton.mp h
    simp

theorem subset_of_mem_arguments {a : Token × List Token} (h : a ∈ arguments ts) :
    a.1 :: a.2 ⊆ ts := by
  obtain ⟨us, hus, ha⟩ := List.mem_filterMap.mp h
  cases us with
  | nil => simp at ha
  | cons u us =>
    obtain rfl := Option.some.inj ha
    exact mem_of_splitAtCommas hus

theorem subset_of_rangeArguments? {first : Token} {run inside : List Token}
    (h : rangeArguments? first run = some inside) : inside ⊆ first :: run := by
  unfold rangeArguments? at h
  split at h
  next span us =>
    split at h
    · split at h
      next args hclose =>
        obtain rfl := Option.some.inj h
        obtain ⟨t, rfl, -⟩ := closed_of_splitAtClose hclose
        intro u hu
        simp [hu]
      next => simp at h
    · simp at h
  next => simp at h

theorem failsIn_runSpan {first : Token} {run : List Token} (h : first :: run ⊆ ts)
    (hfault : fault ≠ .ranOut) : FailsIn ts ⟨fault, runSpan first run⟩ := by
  refine ⟨hfault, first, h List.mem_cons_self, _, h ?_, rfl⟩
  cases hlast : run.getLast? with
  | none => simp
  | some t => simp [List.mem_of_getLast? hlast]

theorem settles_mapM {α β : Type} {f : α → Attempt β} {as : List α}
    (h : ∀ a ∈ as, Settles (fun _ => True) ts (f a)) : Settles (fun _ => True) ts (as.mapM f) := by
  induction as with
  | nil => exact settles_pure trivial
  | cons a as ih =>
    rw [List.mapM_cons]
    refine (h a List.mem_cons_self).bind fun b _ => ?_
    refine (ih fun a' ha' => h a' (List.mem_cons_of_mem a ha')).bind fun bs _ => ?_
    exact settles_pure trivial

theorem rangeBound_settles {a : Token × List Token} (h : a.1 :: a.2 ⊆ ts) :
    Settles (fun _ => True) ts (rangeBound source a) := by
  unfold rangeBound
  dsimp only
  split
  · exact settles_pure trivial
  · exact failsIn_runSpan h (by simp)

theorem rangeOf_error {bounds : List Int64} (h : rangeOf bounds = .error fault) :
    fault ≠ .ranOut := by
  unfold rangeOf at h
  split at h
  · simp at h
  · simp at h
  · split at h
    · obtain rfl := Except.error.inj h
      simp
    · simp at h
  · obtain rfl := Except.error.inj h
    simp

/-- A call of a range fails at one of its arguments, or as a whole. -/
theorem rangeCall_settles (source : List Char) {first : Token} {run inside : List Token}
    (hinside : inside ⊆ first :: run) :
    Settles (fun _ => True) (first :: run) (rangeCall source (runSpan first run) inside) := by
  have harg {a : Token × List Token} (ha : a ∈ arguments inside) : a.1 :: a.2 ⊆ first :: run :=
    List.Subset.trans (subset_of_mem_arguments ha) hinside
  unfold rangeCall
  dsimp only
  split
  next a hfind =>
    exact failsIn_token (harg (List.mem_of_find?_eq_some hfind) List.mem_cons_self) (by simp)
  next =>
    refine (settles_mapM fun a ha => rangeBound_settles (harg ha)).bind fun bounds _ => ?_
    split
    · exact settles_pure trivial
    next fault hrange => exact failsIn_runSpan (List.Subset.refl _) (rangeOf_error hrange)

theorem iterable_halts (h : Ended ts) : Halts ts (iterable source ts) := by
  have hrun : Reaches (fun x rest => ts = x.1 :: x.2 ++ rest ∧ Ended rest) ts
      (captureRun endsFilter ts) := by
    have hhalts : Halts ts (captureRun endsFilter ts) := captureRun_halts h
    cases hread : captureRun endsFilter ts with
    | ok x =>
      rw [hread] at hhalts
      exact ⟨hhalts.1, (captureRun_eq_ok hread).1, hhalts.2⟩
    | error e =>
      rw [hread] at hhalts
      exact hhalts
  refine hrun.bindWithin fun x rest hrest hx => ?_
  obtain ⟨first, run⟩ := x
  obtain ⟨rfl, hended⟩ := hx
  dsimp only
  split
  next inside hinside =>
    have hcall := rangeCall_settles source (subset_of_rangeArguments? hinside)
    refine (hcall.mono (List.subset_append_left _ rest)).bind fun r _ => ?_
    exact ⟨hrest, hended⟩
  next => exact ⟨hrest, hended⟩

/-! Loops -/

theorem loopVariable_halts (h : Ended ts) (bound : List String) :
    Reaches (fun _ rest => Ended rest ∧ rest.length < ts.length) ts (loopVariable bound ts) := by
  unfold loopVariable
  split
  next var span rest =>
    have h₁ : Ended rest := h.drop (by simp [peek])
    split
    · exact (reaches_failAt h₁ (by simp)).mono (List.suffix_cons _ rest)
    · split
      · exact failsIn_token List.mem_cons_self (by simp)
      · exact ⟨List.suffix_cons _ rest, h₁, by simp⟩
  all_goals exact reaches_failAt h (by simp)

theorem filters_halts (h : Ended ts) {fuel : Nat} (hfuel : ts.length < fuel) :
    Halts ts (filters source fuel ts) := by
  induction fuel generalizing ts with
  | zero => omega
  | succ fuel ih =>
    rw [filters]
    split
    next hif =>
      have hlength := List.length_pos_iff.mpr h.ne_nil
      refine ((capture_halts (h.drop (by simp [hif]))).bind fun s ts₁ hts₁ h₁ => ?_).behind
      have hle : ts₁.length ≤ ts.length - 1 := by simpa using hts₁.length_le
      refine (ih h₁ (by omega)).bind fun more ts₂ _ h₂ => ?_
      exact reaches_pure h₂
    next => exact reaches_pure h

theorem clauses_halts (h : Ended ts) {bound : List String} {fuel : Nat}
    (hfuel : ts.length < fuel) : Halts ts (clauses source bound fuel ts) := by
  induction fuel generalizing ts bound with
  | zero => omega
  | succ fuel ih =>
    rw [clauses]
    split
    next hfor =>
      have h₀ : Ended (ts.drop 1) := h.drop (by simp [hfor])
      refine ((loopVariable_halts h₀ bound).bind fun var ts₁ _ hvar => ?_).behind
      obtain ⟨h₁, hlength₁⟩ := hvar
      refine reaches_expect h₁ fun t ts₂ hts hk => ?_
      subst hts
      have h₂ : Ended ts₂ := h₁.drop (by simp [peek, hk])
      refine (iterable_halts h₂).bind fun items ts₃ hts₃ h₃ => ?_
      refine (filters_halts h₃ (by simp)).bind fun conditions ts₄ hts₄ h₄ => ?_
      have hlength : ts₄.length < fuel := by
        have := hts₃.length_le
        have := hts₄.length_le
        simp only [List.length_cons, List.length_drop] at hlength₁
        omega
      refine (ih h₄ hlength).bind fun more ts₅ _ h₅ => ?_
      exact reaches_pure h₅
    next => exact reaches_pure h

theorem loopsFrom_halts (h : Ended ts) : Halts ts (loopsFrom source ts) :=
  clauses_halts h (Nat.lt_succ_self _)

/-! Comprehensions -/

/-- The loops up to the closing bracket, and what is made of them. -/
theorem loops_halts (h : Ended ts) {close : TokenKind} (hclose : close ≠ .eof)
    {build : List Generator × List Token → Comprehension} :
    Halts ts (loopsFrom source ts >>= fun x =>
      expect close x.2 >>= fun us => pure (build x, us)) := by
  refine (loopsFrom_halts h).bind fun gs ts₁ _ h₁ => ?_
  refine reaches_expect h₁ fun t ts₂ hts hk => ?_
  subst hts
  exact reaches_pure (h₁.drop fun heof => hclose (hk.symm.trans heof))

theorem bracketed_halts (h : Ended ts) (hopen : peek ts ≠ .eof) (shape : Shape) :
    Halts ts (bracketed source shape ts) := by
  refine ((capture_halts (h.drop hopen)).bind fun element ts₁ _ h₁ => ?_).behind
  dsimp only
  split
  · exact loops_halts h₁ (by split <;> simp)
  · exact reaches_failAt h₁ (by split <;> simp)

theorem braced_halts (h : Ended ts) (hopen : peek ts ≠ .eof) : Halts ts (braced source ts) := by
  refine ((capture_halts (h.drop hopen)).bind fun first ts₁ _ h₁ => ?_).behind
  dsimp only
  split
  next hcolon =>
    refine ((capture_halts (h₁.drop (by simp [hcolon]))).bind fun value ts₂ _ h₂ => ?_).behind
    dsimp only
    split
    · exact loops_halts h₂ (by simp)
    · exact reaches_failAt h₂ (by simp)
  next =>
    split
    · exact loops_halts h₁ (by simp)
    · exact reaches_failAt h₁ (by simp)

/-! Reducers -/

theorem expectIdent_halts (h : Ended ts) : Halts ts (expectIdent ts) := by
  unfold expectIdent
  split
  next name span rest => exact ⟨List.suffix_cons _ rest, h.drop (by simp [peek])⟩
  next => exact reaches_failAt h (by simp)

theorem reducerName_halts (h : Ended ts) : Halts ts (reducerName ts) := by
  -- a wrong name is reported at its start, although it has been read
  refine (expectIdent_halts h).bindWithin fun name ts₁ hts₁ h₁ => ?_
  dsimp only
  split
  next hmath =>
    simp only [Bool.and_eq_true, decide_eq_true_eq] at hmath
    have h₂ : Ended (ts₁.drop 1) := h₁.drop (by simp [hmath.2])
    have hbehind : ts₁.drop 1 <:+ ts := (List.drop_suffix 1 ts₁).trans hts₁
    refine ((expectIdent_halts h₂).mono hbehind).bindWithin fun field ts₃ hts₃ h₃ => ?_
    dsimp only
    split
    · exact ⟨hts₃, h₃⟩
    · exact reaches_failAt h (by simp)
  next =>
    split
    · exact ⟨hts₁, h₁⟩
    · exact reaches_failAt h (by simp)

theorem reducerArgument_halts (h : Ended ts) (name : String) :
    Halts ts (reducerArgument source name ts) := by
  unfold reducerArgument
  split
  next hwhole =>
    simp only [Bool.and_eq_true, decide_eq_true_eq] at hwhole
    exact bracketed_halts h (by simp [hwhole.1]) _
  split
  next hwhole =>
    simp only [Bool.and_eq_true, decide_eq_true_eq] at hwhole
    exact bracketed_halts h (by simp [hwhole.1]) _
  split
  · exact reaches_failAt h (by simp)
  refine (capture_halts h).bind fun element ts₁ _ h₁ => ?_
  dsimp only
  split
  · refine (loopsFrom_halts h₁).bind fun gs ts₂ _ h₂ => ?_
    exact reaches_pure h₂
  · split
    · exact reaches_failAt h₁ (by simp)
    · exact reaches_failAt h₁ (by simp)

theorem reducerCall_halts (h : Ended ts) : Halts ts (reducerCall source ts) := by
  refine (reducerName_halts h).bind fun x ts₁ _ h₁ => ?_
  dsimp only
  split
  · exact reaches_failAt h₁ (by simp)
  next hopen =>
    have h₂ : Ended (ts₁.drop 1) := h₁.drop (by simp [Decidable.not_not.mp hopen])
    refine Reaches.behind ?_
    split
    · exact reaches_failAt h₂ (by simp)
    split
    · exact reaches_failAt h₂ (by simp)
    refine (reducerArgument_halts h₂ _).bind fun c ts₃ _ h₃ => ?_
    dsimp only
    split
    · exact reaches_failAt h₃ (by simp)
    refine reaches_expect h₃ fun t ts₄ hts hk => ?_
    subst hts
    exact reaches_pure (h₃.drop (by simp [peek, hk]))

/-! Statements -/

theorem topLevel_halts (h : Ended ts) : Halts ts (topLevel source ts) := by
  unfold topLevel
  split
  next hk => exact bracketed_halts h (by simp [hk]) _
  next hk => exact braced_halts h (by simp [hk])
  next hk => exact bracketed_halts h (by simp [hk]) _
  next => exact reducerCall_halts h
  next => exact reaches_failAt h (by simp)

theorem ended_skipSeparators (h : Ended ts) : Ended (skipSeparators ts) :=
  h.dropWhile fun t ht => by simp [ht, isSeparator]

theorem skipImports_settles (h : Ended ts) {fuel : Nat} (hfuel : ts.length < fuel) :
    Settles (fun us => us <:+ ts ∧ Ended us) ts (skipImports fuel ts) := by
  induction fuel generalizing ts with
  | zero => omega
  | succ fuel ih =>
    rw [skipImports]
    split
    next himport =>
      have h₁ : Ended (ts.drop 1) := h.drop fun heof => by simp [heof, isImport] at himport
      have hbehind : ts.drop 1 <:+ ts := List.drop_suffix 1 ts
      dsimp only
      split
      · exact (settles_failAt h₁ (by simp)).mono hbehind.subset
      · have h₂ : Ended ((ts.drop 1).dropWhile fun t => !endsImport t.kind) :=
          h₁.dropWhile fun t ht => by simp [ht, endsImport]
        have hrest : skipSeparators ((ts.drop 1).dropWhile fun t => !endsImport t.kind) <:+
            ts.drop 1 := (List.dropWhile_suffix _).trans (List.dropWhile_suffix _)
        have hlength := hrest.length_le
        have hpos := List.length_pos_iff.mpr h.ne_nil
        rw [List.length_drop] at hlength
        have hrun := (ih (ended_skipSeparators h₂) (by omega)).mono (hrest.trans hbehind).subset
        exact hrun.imp fun us hus => ⟨hus.1.trans (hrest.trans hbehind), hus.2⟩
    next => exact settles_pure ⟨List.suffix_rfl, h⟩

theorem ended_assignment (h : Ended ts) :
    (assignment ts).2 <:+ ts ∧ Ended (assignment ts).2 := by
  unfold assignment
  split
  next name span span' rest =>
    have h₁ : Ended (⟨.assign, span'⟩ :: rest) := h.drop (by simp [peek])
    exact ⟨⟨[_, _], rfl⟩, h₁.drop (by simp [peek])⟩
  next => exact ⟨List.suffix_rfl, h⟩

/-- A statement is read, or reading fails at tokens of the source. -/
theorem statement_settles (h : Ended ts) :
    Settles (fun _ => True) ts (statement source ts) := by
  have hskip : skipSeparators ts <:+ ts := List.dropWhile_suffix _
  have hlength := hskip.length_le
  refine ((skipImports_settles (ended_skipSeparators h) (by omega)).mono hskip.subset).bind
    fun ts₁ hts₁ => ?_
  have hsuffix₁ := hts₁.1.trans hskip
  split
  · exact (settles_failAt hts₁.2 (by simp)).mono hsuffix₁.subset
  obtain ⟨hassign, h₂⟩ := ended_assignment hts₁.2
  refine Settles.bind ((topLevel_halts h₂).mono (hassign.trans hsuffix₁)) fun x hx => ?_
  dsimp only
  split
  · exact settles_pure trivial
  · have hrest : skipSeparators x.2 <:+ ts := (List.dropWhile_suffix _).trans hx.1
    exact (settles_failAt (ended_skipSeparators hx.2) (by simp)).mono hrest.subset

end Comprehend.Comprehension
