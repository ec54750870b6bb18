import Comprehend.Proofs.LayoutRewriting
import Comprehend.Proofs.Spelling
import Comprehend.Target.TypeScript

/-! Workers in a template. The source of the workers stands in a template, where backslashes,
backticks and placeholders have a meaning of their own. Escaped in one pass or in three, a text is
what its template stands for, and the template ends nowhere before its closing backtick. -/
namespace Comprehend

/-! Replacing all occurrences -/

namespace Text

/-- The text with all occurrences of a pattern replaced, from left to right. The next `skip`
characters belong to an occurrence that is replaced already. -/
def replaceFrom (pattern replacement : List Char) : (skip : Nat) → List Char → List Char
  | _, [] => []
  | skip + 1, _ :: cs => replaceFrom pattern replacement skip cs
  | 0, c :: cs =>
    if pattern.isPrefixOf (c :: cs) then
      replacement ++ replaceFrom pattern replacement (pattern.length - 1) cs
    else c :: replaceFrom pattern replacement 0 cs

def replace (pattern replacement cs : List Char) : List Char :=
  replaceFrom pattern replacement 0 cs

variable (replacement : List Char)

theorem replaceFrom_skip (pattern skipped cs : List Char) :
    replaceFrom pattern replacement skipped.length (skipped ++ cs) =
      replaceFrom pattern replacement 0 cs := by
  induction skipped with
  | nil => rfl
  | cons c skipped ih => exact ih

theorem replace_occurrence (a : Char) (pattern cs : List Char) :
    replace (a :: pattern) replacement (a :: (pattern ++ cs)) =
      replacement ++ replace (a :: pattern) replacement cs := by
  have hoccurs : (a :: pattern).isPrefixOf (a :: (pattern ++ cs)) = true := by simp
  rw [replace, replaceFrom, if_pos hoccurs]
  exact congrArg (replacement ++ ·) (replaceFrom_skip replacement _ pattern cs)

theorem replace_cons {pattern : List Char} {c : Char} {cs : List Char}
    (h : pattern.isPrefixOf (c :: cs) = false) :
    replace pattern replacement (c :: cs) = c :: replace pattern replacement cs := by
  rw [replace, replaceFrom, h]
  rfl

/-- No occurrence starts with another character than the first one of the pattern. -/
theorem replace_cons_of_ne {a c : Char} (h : c ≠ a) (pattern cs : List Char) :
    replace (a :: pattern) replacement (c :: cs) = c :: replace (a :: pattern) replacement cs := by
  refine replace_cons replacement ?_
  rw [List.isPrefixOf, beq_eq_false_iff_ne.mpr h.symm, Bool.false_and]

theorem replace_single (a : Char) (cs : List Char) :
    replace [a] replacement cs = cs.flatMap fun c => if c = a then replacement else [c] := by
  induction cs with
  | nil => rfl
  | cons c cs ih =>
    rw [List.flatMap_cons, ← ih]
    by_cases hc : c = a
    · rw [hc, if_pos rfl]
      exact replace_occurrence replacement a [] cs
    · rw [if_neg hc, replace_cons_of_ne replacement hc, List.singleton_append]

end Text

namespace Target.TypeScript

/-! Escaping, character by character -/

def isEscaped (c : Char) (cs : List Char) : Bool :=
  c == '\\' || c == '\x60' || (c == '$' && cs.head? == some '\x7b')

theorem escapeTemplate_cons (c : Char) (cs : List Char) :
    escapeTemplate (c :: cs) =
      if isEscaped c cs then '\\' :: c :: escapeTemplate cs else c :: escapeTemplate cs := by
  by_cases hplace : c = '$' ∧ cs.head? = some '\x7b'
  · obtain ⟨rfl, hcs⟩ := hplace
    obtain ⟨ds, rfl⟩ := List.head?_eq_some_iff.mp hcs
    have hbrace : escapeTemplate ('\x7b' :: ds) = '\x7b' :: escapeTemplate ds := by
      rw [escapeTemplate] <;> simp
    rw [escapeTemplate, hbrace]
    simp [isEscaped]
  · rw [escapeTemplate]
    · simp only [isEscaped]
      grind
    · rintro ds rfl rfl
      exact hplace ⟨rfl, rfl⟩

theorem head?_of_escapeTemplate {cs : List Char}
    (h : (escapeTemplate cs).head? = some '\x7b') : cs.head? = some '\x7b' := by
  cases cs with
  | nil => simp [escapeTemplate] at h
  | cons c cs =>
    rw [escapeTemplate_cons] at h
    split at h
    · simp at h
    · simpa using h

/-! Three passes -/

/-- Backslashes first, then backticks, then the starts of placeholders. -/
def escapeInPasses (cs : List Char) : List Char :=
  Text.replace ['$', '\x7b'] ['\\', '$', '\x7b']
    (Text.replace ['\x60'] ['\\', '\x60'] (Text.replace ['\\'] ['\\', '\\'] cs))

/-- What the first two passes make of a character. -/
def marked (c : Char) : List Char :=
  if c = '\\' ∨ c = '\x60' then ['\\', c] else [c]

/-- The backslashes of the second pass come too late to be escaped by the first. -/
theorem replace_marks (cs : List Char) :
    Text.replace ['\x60'] ['\\', '\x60'] (Text.replace ['\\'] ['\\', '\\'] cs) =
      cs.flatMap marked := by
  rw [Text.replace_single, Text.replace_single, List.flatMap_assoc]
  congr 1
  funext c
  by_cases hslash : c = '\\'
  · simp [hslash, marked]
  · by_cases htick : c = '\x60' <;> simp [hslash, htick, marked]

/-- The third pass sees a brace where the text has one. -/
theorem head?_flatMap_marked (cs : List Char) :
    (cs.flatMap marked).head? = some '\x7b' ↔ cs.head? = some '\x7b' := by
  cases cs with
  | nil => rfl
  | cons c cs =>
    rw [List.flatMap_cons, marked]
    by_cases hmark : c = '\\' ∨ c = '\x60'
    · rcases hmark with rfl | rfl <;> simp
    · simp [hmark]

theorem replace_placeholder (c : Char) (cs : List Char) :
    Text.replace ['$', '\x7b'] ['\\', '$', '\x7b'] (c :: cs) =
      if c = '$' ∧ cs.head? = some '\x7b' then
        '\\' :: c :: Text.replace ['$', '\x7b'] ['\\', '$', '\x7b'] cs
      else c :: Text.replace ['$', '\x7b'] ['\\', '$', '\x7b'] cs := by
  by_cases hplace : c = '$' ∧ cs.head? = some '\x7b'
  · rw [if_pos hplace]
    obtain ⟨rfl, hcs⟩ := hplace
    obtain ⟨ds, rfl⟩ := List.head?_eq_some_iff.mp hcs
    have hbrace : '\x7b' ≠ '$' := by decide
    rw [Text.replace_cons_of_ne _ hbrace]
    exact Text.replace_occurrence _ '$' ['\x7b'] ds
  · rw [if_neg hplace, Text.replace_cons]
    cases cs with
    | nil => simp [List.isPrefixOf]
    | cons d cs =>
      simp only [List.head?_cons, Option.some.injEq, not_and] at hplace
      simp only [List.isPrefixOf, Bool.and_true, Bool.and_eq_false_imp, beq_iff_eq,
        beq_eq_false_iff_ne]
      exact fun hc hd => hplace hc.symm hd.symm

theorem escapeTemplate_eq_escapeInPasses (cs : List Char) :
    escapeTemplate cs = escapeInPasses cs := by
  rw [escapeInPasses, replace_marks]
  induction cs with
  | nil => rfl
  | cons c cs ih =>
    rw [escapeTemplate_cons, ih, List.flatMap_cons, marked]
    by_cases hmark : c = '\\' ∨ c = '\x60'
    · have hdollar : c ≠ '$' := by
        rcases hmark with rfl | rfl <;> decide
      have hescaped : isEscaped c cs = true := by
        rcases hmark with rfl | rfl <;> rfl
      rw [if_pos hescaped, if_pos hmark, List.cons_append, List.singleton_append,
        Text.replace_cons_of_ne _ (by decide), Text.replace_cons_of_ne _ hdollar]
    · rw [if_neg hmark, List.singleton_append, replace_placeholder]
      simp only [head?_flatMap_marked, isEscaped, Bool.or_eq_true, Bool.and_eq_true, beq_iff_eq,
        hmark, false_or]

/-! What a template stands for -/

/-- A backslash and the character behind it stand for that character. -/
def templateValue : List Char → List Char
  | [] => []
  | [c] => [c]
  | c :: d :: cs => if c = '\\' then d :: templateValue cs else c :: templateValue (d :: cs)

@[simp] theorem templateValue_escaped (c : Char) (cs : List Char) :
    templateValue ('\\' :: c :: cs) = c :: templateValue cs := by
  simp [templateValue]

theorem templateValue_cons {c : Char} (hc : c ≠ '\\') (cs : List Char) :
    templateValue (c :: cs) = c :: templateValue cs := by
  cases cs with
  | nil => rfl
  | cons d cs => rw [templateValue, if_neg hc]

theorem templateValue_escapeTemplate (cs : List Char) :
    templateValue (escapeTemplate cs) = cs := by
  induction cs with
  | nil => rfl
  | cons c cs ih =>
    rw [escapeTemplate_cons]
    by_cases hescaped : isEscaped c cs = true
    · rw [if_pos hescaped, templateValue_escaped, ih]
    · have hc : c ≠ '\\' := by
        rintro rfl
        exact hescaped rfl
      rw [if_neg hescaped, templateValue_cons hc, ih]

/-- Read from the left, each backslash together with the character behind it, a text comes neither
upon a backtick nor upon the start of a placeholder; and a backslash stands only before characters
that it leaves as they are. -/
def isInert : List Char → Bool
  | [] => true
  | [c] => c != '\\' && c != '\x60'
  | c :: d :: cs =>
    if c = '\\' then (d == '\\' || d == '\x60' || d == '$') && isInert cs
    else c != '\x60' && !(c == '$' && d == '\x7b') && isInert (d :: cs)

theorem isInert_cons {c : Char} {cs : List Char} (hslash : c ≠ '\\') (htick : c ≠ '\x60')
    (hplace : c = '$' → cs.head? ≠ some '\x7b') : isInert (c :: cs) = isInert cs := by
  cases cs with
  | nil => simp [isInert, hslash, htick]
  | cons d cs =>
    rw [isInert, if_neg hslash]
    by_cases hdollar : c = '$'
    · have hd : d ≠ '\x7b' := by simpa using hplace hdollar
      simp [hdollar, hd]
    · simp [hdollar, htick]

theorem isInert_escapeTemplate (cs : List Char) : isInert (escapeTemplate cs) = true := by
  induction cs with
  | nil => rfl
  | cons c cs ih =>
    rw [escapeTemplate_cons]
    by_cases hescaped : isEscaped c cs = true
    · rw [if_pos hescaped, isInert, if_pos rfl, ih, Bool.and_true]
      simp only [isEscaped, Bool.or_eq_true, Bool.and_eq_true] at hescaped ⊢
      exact hescaped.imp_right And.left
    · rw [if_neg hescaped]
      simp only [isEscaped, Bool.or_eq_true, Bool.and_eq_true, beq_iff_eq, not_or, not_and]
        at hescaped
      obtain ⟨⟨hslash, htick⟩, hplace⟩ := hescaped
      rw [isInert_cons hslash htick fun hdollar hhead => ?_, ih]
      exact hplace hdollar (head?_of_escapeTemplate hhead)

/-! Texts that need no escape -/

def isPlain (c : Char) : Bool :=
  !(c == '\\' || c == '\x60' || c == '$')

theorem escapeTemplate_plain {cs : List Char} (h : cs.all isPlain = true) :
    escapeTemplate cs = cs := by
  induction cs with
  | nil => rfl
  | cons c cs ih =>
    simp only [List.all_cons, Bool.and_eq_true, isPlain, Bool.not_eq_true', Bool.or_eq_false_iff,
      beq_eq_false_iff_ne] at h
    obtain ⟨⟨⟨hslash, hquote⟩, hdollar⟩, hrest⟩ := h
    have hc : isEscaped c cs = false := by simp [isEscaped, hslash, hquote, hdollar]
    rw [escapeTemplate_cons, hc, ih hrest]
    rfl

theorem isPlain_of_isDigit {c : Char} (h : c.isDigit = true) : isPlain c = true := by
  simp only [isPlain, Bool.not_eq_true', Bool.or_eq_false_iff, beq_eq_false_iff_ne]
  refine ⟨⟨?_, ?_⟩, ?_⟩ <;> rintro rfl <;> revert h <;> decide

def isPlainText (s : String) : Bool :=
  s.toList.all isPlain

theorem templateText_plain {s : String} (h : isPlainText s = true) : templateText s = s := by
  rw [templateText, escapeTemplate_plain h, String.ofList_toList]

theorem isPlainText_append (s t : String) :
    isPlainText (s ++ t) = (isPlainText s && isPlainText t) := by
  simp [isPlainText]

theorem isPlainText_toString (n : Int) : isPlainText (toString n) = true := by
  have hdigits (m : Nat) : (Nat.toDigits 10 m).all isPlain = true :=
    List.all_eq_true.mpr fun c hc =>
      isPlain_of_isDigit (Nat.isDigit_of_mem_toDigits (by decide) (by decide) hc)
  by_cases hneg : n < 0
  · obtain ⟨m, hm⟩ := Int.eq_ofNat_of_zero_le (show 0 ≤ -n by omega)
    rw [isPlainText, Token.toList_toString_neg hneg, hm, Token.toList_toString_natCast,
      List.all_cons, hdigits m]
    rfl
  · obtain ⟨m, rfl⟩ := Int.eq_ofNat_of_zero_le (show 0 ≤ n by omega)
    rw [isPlainText, Token.toList_toString_natCast, hdigits m]

/-! The source of the workers -/

/-- Texts are escaped apart from each other, unless a dollar sign comes before a brace. -/
theorem escapeTemplate_append {cs ds : List Char}
    (h : cs.getLast? = some '$' → ds.head? ≠ some '\x7b') :
    escapeTemplate (cs ++ ds) = escapeTemplate cs ++ escapeTemplate ds := by
  induction cs with
  | nil => rfl
  | cons c cs ih =>
    have hrest : cs.getLast? = some '$' → ds.head? ≠ some '\x7b' := by
      intro hlast
      exact h (by rw [List.getLast?_cons, hlast]; rfl)
    have hescaped : isEscaped c (cs ++ ds) = isEscaped c cs := by
      cases cs with
      | nil =>
        by_cases hdollar : c = '$'
        · have hhead := h (congrArg some hdollar)
          simp [isEscaped, hhead]
        · simp [isEscaped, hdollar]
      | cons d cs => rfl
    rw [List.cons_append, escapeTemplate_cons, escapeTemplate_cons, ih hrest, hescaped]
    split <;> rfl

theorem templateText_append {s t : String}
    (h : s.toList.getLast? = some '$' → t.toList.head? ≠ some '\x7b') :
    templateText (s ++ t) = templateText s ++ templateText t := by
  rw [templateText, String.toList_append, escapeTemplate_append h, String.ofList_append]
  rfl

/-- A text may stand behind characters that a template takes as they are. -/
theorem templateText_behind {s : String} (hs : isPlainText s = true) (t : String) :
    templateText (s ++ t) = s ++ templateText t := by
  rw [templateText_append, templateText_plain hs]
  intro hlast
  have hdollar := List.all_eq_true.mp hs _ (List.mem_of_getLast? hlast)
  cases hdollar

theorem templateText_before {t : String} (ht : isPlainText t = true)
    (hbrace : t.toList.head? ≠ some '\x7b') (s : String) :
    templateText (s ++ t) = templateText s ++ t := by
  rw [templateText_append fun _ => hbrace, templateText_plain ht]

theorem isPlainText_margin (depth : Nat) :
    isPlainText (Sheet.margin Layout.fourBlanks depth) = true := by
  induction depth with
  | zero => rfl
  | succ depth ih =>
    rw [Sheet.margin, List.replicate_succ, String.join_cons, isPlainText_append]
    exact ih

theorem escapeTemplate_eq_nil {cs : List Char} : escapeTemplate cs = [] ↔ cs = [] := by
  cases cs with
  | nil => exact iff_of_true rfl rfl
  | cons c cs =>
    rw [escapeTemplate_cons]
    split <;> simp

theorem tolerates_templateText : Sheet.Tolerates Layout.fourBlanks templateText where
  margin depth := templateText_behind (isPlainText_margin depth)
  isEmpty s := by
    rw [Bool.eq_iff_iff, String.isEmpty_iff, String.isEmpty_iff, ← String.toList_eq_nil_iff,
      ← String.toList_eq_nil_iff, templateText, String.toList_ofList, escapeTemplate_eq_nil]
  lineFeed s t := by
    have hfeed : ("\n" ++ t).toList.head? ≠ some '\x7b' := by simp
    rw [String.append_assoc, templateText_append fun _ => hfeed, templateText_behind rfl,
      String.append_assoc]

def handler (chunk : List String) : Layout :=
  .block "self.onmessage = (e) => \x7b" "\x7d;"
    (.line "const \x7b lo, hi \x7d = e.data;" :: chain "const partial = " ";" chunk ++
      [.line "self.postMessage(partial);"])

def workerSteps (p : Printer) (c : Comprehension) (r : Range) : List String :=
  steps p c false (arrayOf "hi - lo" (r.affine "lo + k"))

theorem worker_eq (p : Printer) (c : Comprehension) (r : Range) :
    worker p c r = handler ((workerSteps p c r).map templateText) := rfl

theorem mapTexts_continuation (s : String) (ss : List String) :
    Layout.mapTexts templateText (chain.continuation ";" s ss) =
      chain.continuation ";" (templateText s) (ss.map templateText) := by
  induction ss generalizing s with
  | nil =>
    have hend : templateText (s ++ ";") = templateText s ++ ";" :=
      templateText_before rfl (by simp) s
    rw [List.map_nil, chain.continuation, chain.continuation, ← hend]
    rfl
  | cons t ss ih =>
    rw [List.map_cons, chain.continuation, chain.continuation, Layout.mapTexts, ih]
    rfl

theorem mapTexts_chain (ss : List String) :
    Layout.mapTexts templateText (chain "const partial = " ";" ss) =
      chain "const partial = " ";" (ss.map templateText) := by
  have hlead (s : String) :
      templateText ("const partial = " ++ s) = "const partial = " ++ templateText s :=
    templateText_behind (by decide) s
  rcases ss with _ | ⟨s, _ | ⟨t, ss⟩⟩
  · rfl
  · have hend : templateText ("const partial = " ++ s ++ ";") =
        "const partial = " ++ templateText s ++ ";" := by
      rw [templateText_before rfl (by simp), hlead]
    rw [List.map_cons, List.map_nil, chain, chain, ← hend]
    rfl
  · rw [List.map_cons, List.map_cons, chain, chain, ← hlead, ← mapTexts_continuation]
    rfl

/-- Escaping the steps of a handler is escaping all of it. -/
theorem mapText_handler (chunk : List String) :
    (handler chunk).mapText templateText = handler (chunk.map templateText) := by
  have hopen : templateText "self.onmessage = (e) => \x7b" = "self.onmessage = (e) => \x7b" :=
    templateText_plain (by decide)
  have hclose : templateText "\x7d;" = "\x7d;" := templateText_plain rfl
  have hbounds : templateText "const \x7b lo, hi \x7d = e.data;" =
      "const \x7b lo, hi \x7d = e.data;" := templateText_plain (by decide)
  have hanswer : templateText "self.postMessage(partial);" = "self.postMessage(partial);" :=
    templateText_plain (by decide)
  rw [handler, handler, ← mapTexts_chain]
  simp only [Layout.mapText, Layout.mapTexts_append, Layout.mapTexts, hopen, hclose, hbounds,
    hanswer]

/-- The text of a worker is the template of the handler that it is to run. -/
theorem render_worker (p : Printer) (c : Comprehension) (r : Range) :
    Layout.render Layout.fourBlanks [worker p c r] =
      templateText (Layout.render Layout.fourBlanks [handler (workerSteps p c r)]) := by
  rw [worker_eq, ← mapText_handler, ← tolerates_templateText.render]
  rfl

/-- The source of the workers survives its template. Every text, escaped in three passes or in one,
is what its template stands for, and nothing in the template ends it or starts a placeholder. So the
text of a worker stands for the handler with its steps as they were. -/
theorem template_survives :
    (∀ s : String, (templateText s).toList = escapeInPasses s.toList ∧
      templateValue (templateText s).toList = s.toList ∧
      isInert (templateText s).toList = true) ∧
    ∀ (p : Printer) (c : Comprehension) (r : Range),
      templateValue (Layout.render Layout.fourBlanks [worker p c r]).toList =
        (Layout.render Layout.fourBlanks [handler (workerSteps p c r)]).toList ∧
      isInert (Layout.render Layout.fourBlanks [worker p c r]).toList = true := by
  have htext (s : String) : (templateText s).toList = escapeTemplate s.toList :=
    String.toList_ofList
  have hvalue (s : String) : templateValue (templateText s).toList = s.toList := by
    rw [htext, templateValue_escapeTemplate]
  have hinert (s : String) : isInert (templateText s).toList = true := by
    rw [htext, isInert_escapeTemplate]
  refine ⟨fun s => ⟨?_, hvalue s, hinert s⟩, fun p c r => ?_⟩
  · rw [htext, escapeTemplate_eq_escapeInPasses]
  · rw [render_worker]
    exact ⟨hvalue _, hinert _⟩

end Target.TypeScript

end Comprehend
