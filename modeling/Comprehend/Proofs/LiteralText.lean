import Mathlib.Tactic.ByContra
import Comprehend.Proofs.FormulaPrinting

/-! Literals that are read back. The printer escapes a few characters of a string and the scanner
undoes more escapes than these, keeping those it does not know; still no string is changed, and none
ends before its closing quote. Of the integers only the least one is lost, since its absolute value
is no 64-bit integer. -/
namespace Comprehend

namespace Dialect

open Token

variable {d : Dialect}

/-- A character is escaped by one that stands for it, or it is written as it is. -/
theorem escape_cases (hd : d.isJulia = false) (c : Char) :
    (∃ e, d.escape c = ['\\', e] ∧ unescape e = [c]) ∨
      (d.escape c = [c] ∧ c ≠ '\n' ∧ c ≠ '"' ∧ c ≠ '\\') := by
  unfold escape
  by_cases hquote : c = '"'
  · subst hquote
    exact .inl ⟨'"', rfl, rfl⟩
  by_cases hslash : c = '\\'
  · subst hslash
    exact .inl ⟨'\\', rfl, rfl⟩
  by_cases hline : c = '\n'
  · subst hline
    exact .inl ⟨'n', rfl, rfl⟩
  by_cases htab : c = '\t'
  · subst htab
    exact .inl ⟨'t', rfl, rfl⟩
  exact .inr ⟨by simp [hquote, hslash, hline, htab, hd], hline, hquote, hslash⟩

/-- The contents of a literal end at its closing quote, whatever stands behind that. -/
theorem quoted_escaped (hd : d.isJulia = false) (cs rest : List Char) :
    quoted '"' (cs.flatMap d.escape ++ '"' :: rest) =
      .ok (cs, (cs.flatMap d.escape).length + 1) := by
  induction cs with
  | nil => exact quoted_close (by decide) rest
  | cons c cs ih =>
    rw [List.flatMap_cons, List.append_assoc]
    rcases escape_cases hd c with ⟨e, he, hc⟩ | ⟨he, hline, hquote, hslash⟩
    · rw [he, List.cons_append, List.singleton_append, quoted_escape (by decide), ih]
      simp only [shifted, hc, List.singleton_append, List.length_append, List.length_cons,
        List.length_nil, Except.ok.injEq, Prod.mk.injEq, true_and]
      omega
    · rw [he, List.singleton_append, quoted_ordinary hline hquote hslash, ih]
      simp only [shifted, List.length_append, List.length_singleton, Except.ok.injEq,
        Prod.mk.injEq, true_and]
      omega

theorem toList_quote (hd : d.isSql = false) (s : String) :
    (d.quote s).toList = '"' :: (s.toList.flatMap d.escape ++ ['"']) := by
  simp [quote, hd]

/-- A quoted string is one word, whatever stands behind it. -/
theorem lexeme_quote (hd : d.isJulia = false) (s : String) (rest : List Char) :
    lexeme '"' (s.toList.flatMap d.escape ++ ['"'] ++ rest) =
      .ok (.str s, (s.toList.flatMap d.escape ++ ['"']).length + 1) := by
  have hstring := Lexeme.string (c := '"') (.inl rfl) (quoted_escaped hd s.toList rest)
  rw [String.ofList_toList, Nat.add_comm] at hstring
  rw [List.append_assoc, List.singleton_append, List.length_append, List.length_singleton]
  exact lexeme_iff.mpr hstring

theorem word_quote (hsql : d.isSql = false) (hjulia : d.isJulia = false) (s : String) :
    Word (.str s) (d.quote s).toList :=
  ⟨'"', _, toList_quote hsql s, fun rest _ => lexeme_quote hjulia s rest⟩

end Dialect

namespace Printer

open Comprehend.Expr Token Formula

theorem isSql_isJulia_of_mem_cFamily {d : Dialect} (hd : d ∈ cFamily) :
    d.isSql = false ∧ d.isJulia = false := by
  rcases eq_of_mem_cFamily hd with rfl | rfl | rfl | rfl <;> decide

theorem parse_toString_iff (n : Int64) :
    parse (toString n.toInt) = .ok (.const (.int n)) ↔ Int64.minValue < n := by
  rw [Int64.lt_iff_toInt_lt, Int64.toInt_minValue]
  constructor
  · intro hparse
    by_contra hle
    have hleast : n.toInt = -9223372036854775808 := by
      have hbound := n.le_toInt
      omega
    have hnone : parse? (toString (-9223372036854775808 : Int)) = none :=
      Option.isNone_iff_eq_none.mp (by decide +kernel)
    rw [hleast] at hparse
    rw [parse?, hparse] at hnone
    cases hnone
  · intro hlt
    refine (prints_const hlt).parse_eq ?_
    rw [precedence]
    split <;> decide

/-- Literals are read back as what they were printed from. A string is one token, whatever stands
behind it; an integer is read back unless it is the least one. -/
theorem parse_print_literal (p : Printer) (hd : p.dialect ∈ cFamily) :
    (∀ s rest, ∃ cs, (p.print (.const (.str s))).toList = '"' :: cs ∧
        lexeme '"' (cs ++ rest) = .ok (.str s, cs.length + 1)) ∧
      (∀ s, parse (p.print (.const (.str s))) = .ok (.const (.str s))) ∧
      ∀ n : Int64, parse (p.print (.const (.int n))) = .ok (.const (.int n)) ↔
        Int64.minValue < n := by
  obtain ⟨hsql, hjulia⟩ := isSql_isJulia_of_mem_cFamily hd
  refine ⟨fun s rest => ?_, fun s => ?_, fun n => ?_⟩
  · exact ⟨_, Dialect.toList_quote hsql s, Dialect.lexeme_quote hjulia s rest⟩
  · have hprints : Prints 14 (p.dialect.quote s).toList (.const (.str s)) :=
      ⟨_, (Dialect.word_quote hsql hjulia s).spells, .str s⟩
    exact hprints.parse_eq (by decide)
  · exact parse_toString_iff n

/-- A backslash before an `n` stays apart from a line feed. -/
theorem parse_print_literal_go :
    Dialect.go ∈ cFamily ∧
      print { dialect := .go } (.const (.str "\\n\n\\\"'")) = "\"\\\\n\\n\\\\\\\"'\"" ∧
      parse "\"\\\\n\\n\\\\\\\"'\"" = .ok (.const (.str "\\n\n\\\"'")) := by
  have hgo : Dialect.go ∈ cFamily := by decide
  have hprint : print { dialect := .go } (.const (.str "\\n\n\\\"'")) =
      "\"\\\\n\\n\\\\\\\"'\"" := by decide
  have hparse := (parse_print_literal { dialect := .go } hgo).2.1 "\\n\n\\\"'"
  rw [hprint] at hparse
  exact ⟨hgo, hprint, hparse⟩

end Printer

end Comprehend
