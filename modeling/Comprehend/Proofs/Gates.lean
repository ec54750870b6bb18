import Comprehend.Proofs.Partials
import Comprehend.Strategy.Choice

/-! The gates of a parallel run. A request is granted exactly when no gate is shut, and a refusal
names the first gate that is. -/
namespace Comprehend.Strategy

variable {c : Comprehension} {r : Request}

/-- Nothing holds the elements of a parallel run back: dependencies are not looked for, or there are
none. -/
def Independent (c : Comprehension) (r : Request) : Prop :=
  r.unchecked = true ∨ hasDependencies c = false

/-- The gates in the order in which they are tried, and what is said of the first one that is
shut. -/
inductive FirstShut (c : Comprehension) (r : Request) : String → Prop
  | dictDependencies (hdict : c.shape = .dict) (hdeps : ¬ Independent c r) :
      FirstShut c r "cross-iteration dependencies detected"
  | noOperator (hdict : c.shape ≠ .dict) (hop : r.op = none) :
      FirstShut c r ("no reduction operator for " ++ c.shape.name ++ " comprehension")
  | nonAssociative {op : String} (hdict : c.shape ≠ .dict) (hop : r.op = some op)
      (hname : AssocOp.ofName? op = none) : FirstShut c r ("non-associative op '" ++ op ++ "'")
  | unsupportedType {op : String} {assoc : AssocOp} (hdict : c.shape ≠ .dict) (hop : r.op = some op)
      (hname : AssocOp.ofName? op = some assoc)
      (htype : ∀ t, NumericType.ofName? r.elementType = some t → t ∉ assoc.types) :
      FirstShut c r ("type '" ++ r.elementType ++ "' not supported for '" ++ op ++
        "' (supported: " ++ ", ".intercalate (assoc.types.map NumericType.name) ++ ")")
  | dependencies {op : String} {g : Grant} (hdict : c.shape ≠ .dict) (hop : r.op = some op)
      (hgrant : Grant.check op r.elementType = .ok g) (hdeps : ¬ Independent c r) :
      FirstShut c r "cross-iteration dependencies detected"

/-! Gates -/

theorem independent_iff : Independent c r ↔ (!r.unchecked && hasDependencies c) = false := by
  unfold Independent
  cases r.unchecked <;> cases hasDependencies c <;> simp

theorem check_eq_error {op type : String} {d : Denial} (h : Grant.check op type = .error d) :
    (AssocOp.ofName? op = none ∧ d = .nonAssociative op) ∨
      ∃ assoc, AssocOp.ofName? op = some assoc ∧
        (∀ t, NumericType.ofName? type = some t → t ∉ assoc.types) ∧
        d = .unsupportedType assoc type := by
  unfold Grant.check at h
  split at h
  next hname => exact .inl ⟨hname, (Except.error.inj h).symm⟩
  next assoc hname =>
    refine .inr ⟨assoc, hname, ?_⟩
    split at h
    next htype => exact ⟨by simp [htype], (Except.error.inj h).symm⟩
    next t htype =>
      split at h
      · simp at h
      next ht =>
        refine ⟨fun t' ht' => ?_, (Except.error.inj h).symm⟩
        rw [htype] at ht'
        exact Option.some.inj ht' ▸ ht

/-- What an open gate grants. -/
theorem grantFlavor_eq_ok {dependent : Bool} {f : Flavor} :
    grantFlavor c r dependent = .ok f ↔
      dependent = false ∧
        ((c.shape = .dict ∧ f = .sharded) ∨
          c.shape ≠ .dict ∧ ∃ op g, r.op = some op ∧ Grant.check op r.elementType = .ok g ∧
            f = .partials g) := by
  unfold grantFlavor
  by_cases hdict : c.shape = .dict
  · cases dependent <;> simp [hdict, eq_comm]
  · cases hop : r.op with
    | none => simp [hdict]
    | some op =>
      cases hgrant : Grant.check op r.elementType with
      | error d => simp [hdict, hgrant]
      | ok g => cases dependent <;> simp [hdict, hgrant, eq_comm]

theorem firstShut_of_grantFlavor {why : Refusal}
    (h : grantFlavor c r (!r.unchecked && hasDependencies c) = .error why) :
    FirstShut c r why.message := by
  unfold grantFlavor at h
  split at h
  next hdict =>
    split at h
    next hdeps =>
      obtain rfl := Except.error.inj h
      exact .dictDependencies hdict (by rw [independent_iff, hdeps]; simp)
    next => simp at h
  next hdict =>
    split at h
    next hop =>
      obtain rfl := Except.error.inj h
      exact .noOperator hdict hop
    next op hop =>
      split at h
      next d hcheck =>
        obtain rfl := Except.error.inj h
        rcases check_eq_error hcheck with ⟨hname, rfl⟩ | ⟨assoc, hname, htype, rfl⟩
        · exact .nonAssociative hdict hop hname
        · have hmessage := FirstShut.unsupportedType hdict hop hname htype
          rwa [← AssocOp.name_of_ofName? hname] at hmessage
      next g hgrant =>
        split at h
        next hdeps =>
          obtain rfl := Except.error.inj h
          exact .dependencies hdict hop hgrant (by rw [independent_iff, hdeps]; simp)
        next => simp at h

/-! Notes -/

def fallbackLead : String := "parallel fallback -> sequential: "

def tellsRefusal (s : String) : Bool :=
  fallbackLead.toList.isPrefixOf s.toList

def Decision.fallbacks (d : Decision) : List String :=
  (d.notes.map Note.text).filter tellsRefusal

def Note.isRefusal : Note → Bool
  | refused _ => true
  | _ => false

/-- Nine characters tell the note of a refusal from all others. -/
theorem tellsRefusal_append {lead : String} (hlength : 9 ≤ lead.toList.length)
    (hlead : lead.toList.take 9 ≠ fallbackLead.toList.take 9) (rest : String) :
    tellsRefusal (lead ++ rest) = false := by
  refine Bool.eq_false_iff.mpr fun h => hlead ?_
  rw [tellsRefusal, List.isPrefixOf_iff_prefix, String.toList_append] at h
  obtain ⟨tail, htail⟩ := h
  have htake := congrArg (List.take 9) htail
  rw [List.take_append_of_le_length hlength, List.take_append_of_le_length (by decide)] at htake
  exact htake.symm

/-- No other note begins as that of a refusal does. -/
theorem tellsRefusal_text (n : Note) : tellsRefusal n.text = n.isRefusal := by
  cases n with
  | refused why =>
    have hlead : (Note.refused why).text.toList = fallbackLead.toList ++ why.message.toList :=
      String.toList_append
    rw [tellsRefusal, hlead, Note.isRefusal, List.isPrefixOf_iff_prefix]
    exact List.prefix_append _ _
  | smallBroadcast count =>
    change tellsRefusal ("auto-selected broadcast mode for small N=" ++ _) = false
    exact tellsRefusal_append (by decide) (by decide) _
  | autoLoops shape =>
    change tellsRefusal ("auto-selected loops mode for " ++ _ ++ _) = false
    rw [String.append_assoc]
    exact tellsRefusal_append (by decide) (by decide) _
  | partials g =>
    change tellsRefusal ("parallelized with thread-local partials (op '" ++ _ ++ _ ++ _ ++ _ ++ _ ++
      _) = false
    simp only [String.append_assoc]
    exact tellsRefusal_append (by decide) (by decide) _
  | overridden f =>
    cases f with
    | partials g =>
      change tellsRefusal ("thread-local-partials" ++ _) = false
      exact tellsRefusal_append (by decide) (by decide) _
    | sequential | sharded => decide
  | unchecked | shardedDict | singleGenerator => decide

theorem filter_refusal (notes : List Note) :
    (notes.map Note.text).filter tellsRefusal = (notes.filter Note.isRefusal).map Note.text := by
  rw [List.filter_map]
  exact congrArg _ (List.filter_congr fun n _ => tellsRefusal_text n)

/-! Decisions -/

theorem chooseMode_notes (c : Comprehension) (r : Request) :
    (chooseMode c r).2.filter Note.isRefusal = [] := by
  unfold chooseMode
  split
  · rfl
  · rfl
  · simp only
    split
    · split <;> rfl
    · rfl

/-- A mode that the request names is the one chosen. -/
theorem chooseMode_pinned (c : Comprehension) (r : Request) :
    (r.mode = .loops → (chooseMode c r).1 = .loops) ∧
      (r.mode = .broadcast → (chooseMode c r).1 = .broadcast) := by
  unfold chooseMode
  exact ⟨fun h => by rw [h], fun h => by rw [h]⟩

/-- A decision keeps the flavor chosen, and the mode chosen with it unless the run is parallel. What
it adds to the notes is no refusal. -/
theorem exists_decide_eq (c : Comprehension) (r : Request) :
    ∃ extra, extra.filter Note.isRefusal = [] ∧
      decide c r =
        ⟨if (chooseFlavor c r).1 = .sequential then (chooseMode c r).1 else .loops,
          (chooseFlavor c r).1, (chooseMode c r).2 ++ (chooseFlavor c r).2 ++ extra⟩ := by
  unfold decide
  obtain ⟨mode, modeNotes⟩ := chooseMode c r
  obtain ⟨flavor, flavorNotes⟩ := chooseFlavor c r
  by_cases hover : flavor.isParallel = true ∧ mode = .broadcast
  · refine ⟨[.overridden flavor], rfl, ?_⟩
    have hflavor : flavor ≠ .sequential := by
      rintro rfl
      simp [Flavor.isParallel] at hover
    simp [hover, hflavor]
  · refine ⟨[], rfl, ?_⟩
    cases flavor <;> cases mode <;> simp_all [Flavor.isParallel]

theorem fallbacks_decide (c : Comprehension) (r : Request) :
    (decide c r).fallbacks = ((chooseFlavor c r).2.filter Note.isRefusal).map Note.text := by
  obtain ⟨extra, hextra, hdecide⟩ := exists_decide_eq c r
  rw [Decision.fallbacks, hdecide, filter_refusal]
  simp [chooseMode_notes, hextra]

/-- What is chosen when a parallel run is asked for and granted, asked for and refused, or not asked
for. -/
theorem chooseFlavor_cases (c : Comprehension) (r : Request) :
    (∃ f, r.parallel = true ∧ grantFlavor c r (!r.unchecked && hasDependencies c) = .ok f ∧
      (chooseFlavor c r).1 = f ∧ (chooseFlavor c r).2.filter Note.isRefusal = []) ∨
    (∃ why, r.parallel = true ∧ grantFlavor c r (!r.unchecked && hasDependencies c) = .error why ∧
      (chooseFlavor c r).1 = .sequential ∧
      (chooseFlavor c r).2.filter Note.isRefusal = [.refused why]) ∨
    r.parallel = false ∧ (chooseFlavor c r).1 = .sequential ∧
      (chooseFlavor c r).2.filter Note.isRefusal = [] := by
  unfold chooseFlavor
  have hlead : (if r.unchecked then [Note.unchecked] else []).filter Note.isRefusal = [] := by
    split <;> rfl
  cases hparallel : r.parallel with
  | false => exact .inr (.inr ⟨rfl, rfl, rfl⟩)
  | true =>
    cases hgrant : grantFlavor c r (!r.unchecked && hasDependencies c) with
    | ok f =>
      have hnote : (flavorNote f).filter Note.isRefusal = [] := by cases f <;> rfl
      exact .inl ⟨f, rfl, rfl, rfl, by simp [hlead, hnote]⟩
    | error why => exact .inr (.inl ⟨why, rfl, rfl, rfl, by simp [hlead, Note.isRefusal]⟩)

theorem decide_flavor (c : Comprehension) (r : Request) :
    (decide c r).flavor = (chooseFlavor c r).1 := by
  obtain ⟨extra, -, hdecide⟩ := exists_decide_eq c r
  rw [hdecide]

theorem decide_mode (c : Comprehension) (r : Request) :
    (decide c r).mode =
      if (decide c r).flavor = .sequential then (chooseMode c r).1 else .loops := by
  obtain ⟨extra, -, hdecide⟩ := exists_decide_eq c r
  rw [hdecide]

/-- A run is divided exactly when that is asked for and granted. -/
theorem decide_flavor_eq_iff {f : Flavor} (hf : f ≠ .sequential) :
    (decide c r).flavor = f ↔
      r.parallel = true ∧ grantFlavor c r (!r.unchecked && hasDependencies c) = .ok f := by
  rw [decide_flavor]
  rcases chooseFlavor_cases c r with
    ⟨f', hparallel, hgrant, hflavor, -⟩ | ⟨why, hparallel, hgrant, hflavor, -⟩ |
      ⟨hparallel, hflavor, -⟩
  · simp [hparallel, hgrant, hflavor]
  · simp [hgrant, hflavor, hf.symm]
  · simp [hparallel, hflavor, hf.symm]

theorem decide_partials_iff (g : Grant) :
    (decide c r).flavor = .partials g ↔
      r.parallel = true ∧ c.shape ≠ .dict ∧
        (∃ op, r.op = some op ∧ Grant.check op r.elementType = .ok g) ∧ Independent c r := by
  rw [decide_flavor_eq_iff (by simp), grantFlavor_eq_ok, independent_iff]
  constructor
  · rintro ⟨hparallel, hfree, ⟨-, hf⟩ | ⟨hdict, op, g', hop, hgrant, hf⟩⟩
    · simp at hf
    · obtain rfl := Flavor.partials.inj hf
      exact ⟨hparallel, hdict, ⟨op, hop, hgrant⟩, hfree⟩
  · rintro ⟨hparallel, hdict, ⟨op, hop, hgrant⟩, hfree⟩
    exact ⟨hparallel, hfree, .inr ⟨hdict, op, g, hop, hgrant, rfl⟩⟩

theorem decide_sharded_iff :
    (decide c r).flavor = .sharded ↔
      r.parallel = true ∧ c.shape = .dict ∧ Independent c r := by
  rw [decide_flavor_eq_iff (by simp), grantFlavor_eq_ok, independent_iff]
  constructor
  · rintro ⟨hparallel, hfree, ⟨hdict, -⟩ | ⟨-, op, g, -, -, hf⟩⟩
    · exact ⟨hparallel, hdict, hfree⟩
    · simp at hf
  · rintro ⟨hparallel, hdict, hfree⟩
    exact ⟨hparallel, hfree, .inl ⟨hdict, rfl⟩⟩

theorem decide_sequential_iff :
    (decide c r).flavor = .sequential ↔
      ¬ (r.parallel = true ∧ Independent c r ∧
        (c.shape = .dict ∨ ∃ op g, r.op = some op ∧ Grant.check op r.elementType = .ok g)) := by
  constructor
  · rintro hflavor ⟨hparallel, hfree, hgate⟩
    by_cases hdict : c.shape = .dict
    · simp [decide_sharded_iff.mpr ⟨hparallel, hdict, hfree⟩] at hflavor
    · obtain ⟨op, g, hop, hgrant⟩ := hgate.resolve_left hdict
      simp [(decide_partials_iff g).mpr ⟨hparallel, hdict, ⟨op, hop, hgrant⟩, hfree⟩] at hflavor
  · intro hshut
    cases hflavor : (decide c r).flavor with
    | sequential => rfl
    | partials g =>
      obtain ⟨hparallel, -, ⟨op, hop, hgrant⟩, hfree⟩ := (decide_partials_iff g).mp hflavor
      exact absurd ⟨hparallel, hfree, .inr ⟨op, g, hop, hgrant⟩⟩ hshut
    | sharded =>
      obtain ⟨hparallel, hdict, hfree⟩ := decide_sharded_iff.mp hflavor
      exact absurd ⟨hparallel, hfree, .inl hdict⟩ hshut

/-- A request that is not granted is answered with one reason. -/
theorem decide_fallback (hparallel : r.parallel = true)
    (hflavor : (decide c r).flavor = .sequential) :
    ∃ reason, FirstShut c r reason ∧ (decide c r).fallbacks = [fallbackLead ++ reason] := by
  rw [fallbacks_decide]
  rcases chooseFlavor_cases c r with
    ⟨f, -, hgrant, hchosen, -⟩ | ⟨why, -, hgrant, -, hnotes⟩ | ⟨hnot, -⟩
  · rw [decide_flavor, hchosen] at hflavor
    rw [hflavor, grantFlavor_eq_ok] at hgrant
    simp at hgrant
  · exact ⟨why.message, firstShut_of_grantFlavor hgrant, by rw [hnotes]; rfl⟩
  · simp [hparallel] at hnot

theorem decide_no_fallback (h : r.parallel = false ∨ (decide c r).flavor ≠ .sequential) :
    (decide c r).fallbacks = [] := by
  rw [fallbacks_decide]
  rcases chooseFlavor_cases c r with
    ⟨f, -, -, -, hnotes⟩ | ⟨why, hparallel, -, hchosen, -⟩ | ⟨-, -, hnotes⟩
  · rw [hnotes, List.map_nil]
  · rw [decide_flavor, hchosen] at h
    simp [hparallel] at h
  · rw [hnotes, List.map_nil]

/-- What can be said of a decision: which flavor it has and why, that a parallel run is one of
loops, and that a refusal is told once, with its reason, and never without cause. -/
structure Decision.Justified (c : Comprehension) (r : Request) (d : Decision) : Prop where
  partials_iff (g : Grant) : d.flavor = .partials g ↔
    r.parallel = true ∧ c.shape ≠ .dict ∧
      (∃ op, r.op = some op ∧ Grant.check op r.elementType = .ok g) ∧ Independent c r
  sharded_iff : d.flavor = .sharded ↔ r.parallel = true ∧ c.shape = .dict ∧ Independent c r
  sequential_iff : d.flavor = .sequential ↔
    ¬ (r.parallel = true ∧ Independent c r ∧
      (c.shape = .dict ∨ ∃ op g, r.op = some op ∧ Grant.check op r.elementType = .ok g))
  loops_of_parallel : d.flavor ≠ .sequential → d.mode = .loops
  loops_of_pinned : d.flavor = .sequential → r.mode = .loops → d.mode = .loops
  broadcast_of_pinned : d.flavor = .sequential → r.mode = .broadcast → d.mode = .broadcast
  fallback : r.parallel = true → d.flavor = .sequential →
    ∃ reason, FirstShut c r reason ∧ d.fallbacks = [fallbackLead ++ reason]
  no_fallback : r.parallel = false ∨ d.flavor ≠ .sequential → d.fallbacks = []

theorem decide_justified (c : Comprehension) (r : Request) : (decide c r).Justified c r where
  partials_iff := decide_partials_iff
  sharded_iff := decide_sharded_iff
  sequential_iff := decide_sequential_iff
  loops_of_parallel hflavor := by rw [decide_mode, if_neg hflavor]
  loops_of_pinned hflavor hmode := by
    rw [decide_mode, if_pos hflavor, (chooseMode_pinned c r).1 hmode]
  broadcast_of_pinned hflavor hmode := by
    rw [decide_mode, if_pos hflavor, (chooseMode_pinned c r).2 hmode]
  fallback := decide_fallback
  no_fallback := decide_no_fallback

end Comprehend.Strategy
