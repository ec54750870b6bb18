import Comprehend.Proofs.Validity
import Comprehend.Target.CSharp

/-! Names of classes. The name of a class is the name of a function without its underscores, with a
capital letter at the start of each part. It is an identifier unless a digit comes first among the
characters that are left. -/
namespace Comprehend

namespace Text

theorem isDigit_of_isAlphanum {c : Char} (h : c.isAlphanum = true) :
    c.isDigit = !c.isAlpha := by
  have hcases : c.isAlpha = true ∨ c.isDigit = true := by
    simpa [Char.isAlphanum, Bool.or_eq_true] using h
  rw [Bool.eq_iff_iff, Bool.not_eq_true', ← Bool.not_eq_true]
  simp only [isAlpha_iff, isDigit_iff] at hcases ⊢
  omega

/-- A capital letter takes the place of a letter, and a digit stays. -/
theorem isAlphanum_toUpper {c : Char} (h : c.isAlphanum = true) : c.toUpper.isAlphanum = true := by
  cases halpha : c.isAlpha with
  | true => simp [Char.isAlphanum, Char.isAlpha_toUpper_eq_isAlpha, halpha]
  | false =>
    have hlower : ¬c.isLower = true := by
      intro hlower
      simp [Char.isAlpha, hlower] at halpha
    rwa [Char.toUpper_eq_of_not_isLower hlower]

end Text

namespace Target.CSharp

open Text

/-! Capitals -/

/-- The characters without underscores, the first one and those behind an underscore as capitals. -/
def capitalize : (first : Bool) → List Char → List Char
  | _, [] => []
  | first, c :: cs =>
    if c = '_' then capitalize true cs
    else (if first then c.toUpper else c) :: capitalize false cs

def capitalPart : List Char → List Char
  | [] => []
  | c :: cs => c.toUpper :: cs

theorem capitalize_eq (cs : List Char) :
    ∃ part parts, cs.splitOn '_' = part :: parts ∧
      (part :: parts).flatMap capitalPart = capitalize true cs ∧
      part ++ parts.flatMap capitalPart = capitalize false cs := by
  induction cs with
  | nil => exact ⟨[], [], rfl, rfl, rfl⟩
  | cons c cs ih =>
    obtain ⟨part, parts, hsplit, htrue, hfalse⟩ := ih
    rw [List.splitOn_cons_eq_if_modifyHead, hsplit]
    by_cases hc : c = '_'
    · refine ⟨[], part :: parts, by simp [hc], ?_, ?_⟩ <;>
        simpa [capitalize, hc, capitalPart] using htrue
    · refine ⟨c :: part, parts, by simp [hc], ?_, ?_⟩ <;>
        simp [capitalize, hc, capitalPart, ← hfalse]

theorem className_eq (name : String) :
    className name =
      if (capitalize true name.toList).isEmpty then "Program"
      else String.ofList (capitalize true name.toList) := by
  obtain ⟨part, parts, hsplit, htrue, -⟩ := capitalize_eq name.toList
  rw [className, hsplit, ← htrue]
  rfl

theorem isAlphanum_of_mem_capitalize {cs : List Char}
    (h : ∀ c ∈ cs, (c.isAlphanum || c == '_') = true) {first : Bool} :
    ∀ d ∈ capitalize first cs, d.isAlphanum = true := by
  induction cs generalizing first with
  | nil => simp [capitalize]
  | cons c cs ih =>
    rw [List.forall_mem_cons] at h
    rw [capitalize]
    split
    · exact ih h.2
    next hc =>
      have hword : c.isAlphanum = true := by simpa [hc] using h.1
      refine List.forall_mem_cons.mpr ⟨?_, ih h.2⟩
      split
      · exact isAlphanum_toUpper hword
      · exact hword

/-- What comes first is the capital of the first character that is no underscore. -/
theorem head?_capitalize (cs : List Char) :
    (capitalize true cs).head? = ((cs.dropWhile (· == '_')).head?).map Char.toUpper := by
  induction cs with
  | nil => rfl
  | cons c cs ih =>
    by_cases hc : c = '_'
    · simpa [capitalize, hc] using ih
    · simp [capitalize, hc]

/-! Identifiers -/

/-- The name of a class has letters and digits only. It is an identifier if and only if the first
character of the function's name that is no underscore is no digit. -/
theorem isIdentifier_className_iff {name : String} (h : isIdentifier name = true) :
    (className name).toList.all Char.isAlphanum = true ∧
      (isIdentifier (className name) = true ↔
        ∀ d ds, name.toList.dropWhile (· == '_') = d :: ds → d.isDigit = false) := by
  have hword : ∀ c ∈ name.toList, (c.isAlphanum || c == '_') = true :=
    isAlphanum_of_isIdentifier h
  have hcapitals : ∀ d ∈ capitalize true name.toList, d.isAlphanum = true :=
    isAlphanum_of_mem_capitalize hword
  have hhead := head?_capitalize name.toList
  rw [className_eq]
  cases hclass : capitalize true name.toList with
  | nil =>
    refine ⟨by decide, iff_of_true (by decide) ?_⟩
    intro d ds hd
    simp [hclass, hd] at hhead
  | cons u us =>
    rw [hclass] at hcapitals hhead
    obtain ⟨d, hd, rfl⟩ := Option.map_eq_some_iff.mp hhead.symm
    obtain ⟨ds, hdrop⟩ := List.head?_eq_some_iff.mp hd
    have hmem : d ∈ name.toList := (List.dropWhile_sublist _).subset (hdrop ▸ List.mem_cons_self)
    have hline : d ≠ '_' := by
      simpa [hdrop] using List.head?_dropWhile_not (· == '_') name.toList
    have hdigit : d.isDigit = !d.isAlpha :=
      isDigit_of_isAlphanum (by simpa [hline] using hword d hmem)
    have hupper : (d.toUpper == '_') = false := by
      refine beq_eq_false_iff_ne.mpr fun heq => ?_
      simpa [heq] using hcapitals d.toUpper List.mem_cons_self
    refine ⟨by simpa using hcapitals, ?_⟩
    rw [List.isEmpty_cons, if_neg (by decide), isIdentifier_iff String.toList_ofList, hupper,
      Bool.or_false, Char.isAlpha_toUpper_eq_isAlpha, hdrop]
    constructor
    · rintro ⟨halpha, -⟩ d' ds' heq
      obtain ⟨rfl, -⟩ := List.cons.inj heq
      rw [hdigit, halpha, Bool.not_true]
    · intro hno
      refine ⟨by simpa [hdigit] using hno d ds rfl, fun u hu => ?_⟩
      rw [hcapitals u (List.mem_cons_of_mem _ hu), Bool.true_or]

theorem isIdentifier_className_iff_parts :
    isIdentifier "__sum_2_of" = true ∧ className "__sum_2_of" = "Sum2Of" ∧
      isIdentifier (className "__sum_2_of") = true := by
  have hname : isIdentifier "__sum_2_of" = true := by decide
  refine ⟨hname, by decide, (isIdentifier_className_iff hname).2.mpr ?_⟩
  intro d ds hd
  obtain ⟨rfl, -⟩ := List.cons.inj (hd.symm.trans rfl : d :: ds = "sum_2_of".toList)
  rfl

/-- Nothing but underscores stands before the digit that the class would begin with. -/
theorem isIdentifier_className_underscoreDigit :
    Options.funcName (Table.empty.insert "func_name" (.str "_1")) = .ok "_1" ∧
      isIdentifier "_1" = true ∧ className "_1" = "1" ∧
      isIdentifier (className "_1") = false := by
  decide

end Target.CSharp

end Comprehend
