import Mathlib.Data.List.Induction
import Comprehend.Proofs.StatementFaults
import Comprehend.Proofs.Tiling

/-! Places in a source. Whatever the scanner and the readers report, a token or a fault, they report
at a stretch of the source, with the line and the column at which this stretch starts. -/
namespace Comprehend

/-- The line of a place in the source: one more than the line feeds before it. -/
def lineAt (source : List Char) (offset : Nat) : Nat :=
  1 + (source.take offset).count '\n'

/-- The column of a place in the source: one more than the characters between it and the last line
feed before it, or the start of the source. -/
def colAt (source : List Char) (offset : Nat) : Nat :=
  1 + ((source.take offset).reverse.takeWhile (· != '\n')).length

namespace Span

/-- The stretch is one of the source, and its line and column are those of its start. -/
structure LiesIn (source : List Char) (s : Span) : Prop where
  ordered : s.start ≤ s.stop
  inside : s.stop ≤ source.length
  line : s.line = lineAt source s.start
  col : s.col = colAt source s.start

def nowhere : Span :=
  ⟨0, 0, 0, 0⟩

theorem LiesIn.ne_nowhere {source : List Char} {s : Span} (h : s.LiesIn source) :
    s ≠ nowhere := by
  rintro rfl
  have hline := h.line
  simp only [nowhere, lineAt] at hline
  omega

/-- What covers two stretches starts where one of them does. -/
theorem LiesIn.merge {source : List Char} {a b : Span} (ha : a.LiesIn source)
    (hb : b.LiesIn source) : (a.merge b).LiesIn source := by
  have hstop : max a.stop b.stop ≤ source.length := Nat.max_le.mpr ⟨ha.inside, hb.inside⟩
  have hordered : min a.start b.start ≤ max a.stop b.stop := by
    have := ha.ordered
    omega
  by_cases hle : a.start ≤ b.start
  · exact ⟨hordered, hstop, by simp [Span.merge, hle, ha.line], by simp [Span.merge, hle, ha.col]⟩
  · have hmin : min a.start b.start = b.start := Nat.min_eq_right (by omega)
    exact ⟨hordered, hstop, by simp [Span.merge, hle, hmin, hb.line],
      by simp [Span.merge, hle, hmin, hb.col]⟩

end Span

/-- Behind characters from the start of a source, line and column are counted in them. -/
theorem Place.over_start (cs : List Char) :
    Place.over {} cs =
      ⟨cs.length, 1 + cs.count '\n', 1 + (cs.reverse.takeWhile (· != '\n')).length⟩ := by
  induction cs using List.reverseRecOn with
  | nil => rfl
  | append_singleton cs c ih =>
    rw [Place.over_append, ih, Place.over_cons, Place.over_nil]
    by_cases hc : c = '\n'
    · subst hc
      simp [Place.next, Nat.add_assoc]
    · simp [Place.next, hc, Nat.add_assoc, Nat.add_comm 1]

theorem Place.liesIn_over {us vs : List Char} {width : Nat} (h : width ≤ vs.length) :
    ((Place.over {} us).span width).LiesIn (us ++ vs) := by
  rw [over_start]
  refine ⟨by simp [Place.span], ?_, by simp [Place.span, lineAt], by simp [Place.span, colAt]⟩
  simp only [Place.span, List.length_append]
  omega

/-! Lines and columns in 32 bits -/

namespace Place

/-- Line and column behind characters, counted in 32 bits, unless one of them overflows. -/
def counted? (line col : UInt32) : List Char → Option (UInt32 × UInt32)
  | [] => some (line, col)
  | c :: cs =>
    if c = '\n' then
      if line.toNat + 1 < 0x100000000 then counted? (line + 1) 1 cs else none
    else if col.toNat + 1 < 0x100000000 then counted? line (col + 1) cs else none

theorem toNat_succ {n : UInt32} (h : n.toNat + 1 < 0x100000000) : (n + 1).toNat = n.toNat + 1 := by
  rw [UInt32.toNat_add]
  exact Nat.mod_eq_of_lt h

theorem counted?_eq {p : Place} {line col : UInt32} {cs : List Char} (hline : p.line = line.toNat)
    (hcol : p.col = col.toNat) (hlines : p.line + cs.length < 0x100000000)
    (hcols : p.col + cs.length < 0x100000000) :
    ∃ l c, counted? line col cs = some (l, c) ∧
      (p.over cs).line = l.toNat ∧ (p.over cs).col = c.toNat := by
  induction cs generalizing p line col with
  | nil => exact ⟨line, col, rfl, hline, hcol⟩
  | cons c cs ih =>
    rw [List.length_cons] at hlines hcols
    rw [counted?, over_cons]
    by_cases hc : c = '\n'
    · have hfits : line.toNat + 1 < 0x100000000 := by omega
      have hnext : p.next c = ⟨p.offset + 1, p.line + 1, 1⟩ := if_pos hc
      rw [if_pos hc, if_pos hfits, hnext]
      exact ih (by rw [toNat_succ hfits, ← hline]) rfl (by dsimp only; omega) (by dsimp only; omega)
    · have hfits : col.toNat + 1 < 0x100000000 := by omega
      have hnext : p.next c = ⟨p.offset + 1, p.line, p.col + 1⟩ := if_neg hc
      rw [if_neg hc, if_pos hfits, hnext]
      exact ih hline (by rw [toNat_succ hfits, ← hcol]) (by dsimp only; omega)
        (by dsimp only; omega)

/-- The bound is sharp: a single line of one more character is too long for its columns. -/
theorem counted?_eq_none {line col : UInt32} {cs : List Char} (hcs : '\n' ∉ cs)
    (hlong : 0x100000000 ≤ col.toNat + cs.length) : counted? line col cs = none := by
  induction cs generalizing col with
  | nil =>
    have := col.toNat_lt
    rw [List.length_nil] at hlong
    omega
  | cons c cs ih =>
    rw [List.mem_cons, not_or] at hcs
    rw [List.length_cons] at hlong
    rw [counted?, if_neg (Ne.symm hcs.1)]
    split
    next hfits => exact ih hcs.2 (by rw [toNat_succ hfits]; omega)
    · rfl

/-- Up to any place of a source that is not too long, line and column are counted without an
overflow. -/
theorem exists_counted {source : List Char} (h : source.length + 1 < 0x100000000) (offset : Nat) :
    ∃ l c, counted? 1 1 (source.take offset) = some (l, c) ∧
      lineAt source offset = l.toNat ∧ colAt source offset = c.toNat := by
  have hlength : (source.take offset).length ≤ source.length := List.length_take_le' offset source
  have hcounted : ∃ l c, counted? 1 1 (source.take offset) = some (l, c) ∧
      (Place.over {} (source.take offset)).line = l.toNat ∧
        (Place.over {} (source.take offset)).col = c.toNat :=
    counted?_eq rfl rfl (by dsimp only; omega) (by dsimp only; omega)
  rwa [over_start] at hcounted

end Place

namespace Token

variable {source cs : List Char} {ts : List Token} {fault : ScanFault} {width : Nat}

theorem liesIn_of_scan (h : scan source = .ok ts) : ∀ t ∈ ts, t.span.LiesIn source := by
  obtain ⟨qs, rfl, -, rfl⟩ := scan_eq_ok_iff.mp h
  intro t ht
  rcases List.mem_append.mp ht with ht | ht
  · obtain ⟨us, vs, hsplit⟩ := List.append_of_mem ht
    obtain ⟨ms, gs, cs, rs, rfl, -, -, -, hspan⟩ := exists_piece hsplit
    have hlies : ((Place.over {} (Piece.text ms ++ Piece.text gs)).span cs.length).LiesIn
        ((Piece.text ms ++ Piece.text gs) ++ (cs ++ Piece.text rs)) :=
      Place.liesIn_over (by simp)
    rw [hspan]
    simpa using hlies
  · obtain rfl := List.mem_singleton.mp ht
    have hlies : ((Place.over {} (Piece.text qs)).span 0).LiesIn (Piece.text qs ++ []) :=
      Place.liesIn_over (Nat.zero_le _)
    simpa [endOf] using hlies

/-! Faults of the scanner -/

theorem shifted_eq_error {α : Type} {n w : Nat} {f : α → α}
    {x : Except (ScanFault × Nat) (α × Nat)} :
    shifted n f x = .error (fault, w) ↔ ∃ v, x = .error (fault, v) ∧ n + v = w := by
  cases x with
  | error e => simp [shifted, Prod.ext_iff, and_assoc]
  | ok a => simp [shifted]

theorem quoted_error_width {q : Char} (h : quoted q cs = .error (fault, width)) :
    width ≤ cs.length := by
  fun_induction quoted q cs generalizing width with
  | case1 => simp at h; omega
  | case2 => simp at h; omega
  | case3 => simp at h
  | case4 => simp at h; simp [← h.2]
  | case5 _ _ e cs ih =>
    obtain ⟨v, hv, rfl⟩ := shifted_eq_error.mp h
    have := ih hv
    simp only [List.length_cons]
    omega
  | case6 c cs _ _ _ ih =>
    obtain ⟨v, hv, rfl⟩ := shifted_eq_error.mp h
    have := ih hv
    simp only [List.length_cons]
    omega

theorem number_error_width (h : number cs = .error (fault, width)) : width ≤ cs.length := by
  cases hhex : isHexStart cs with
  | true =>
    rw [number_hex hhex] at h
    obtain ⟨c, d, ds, rfl⟩ : ∃ c d ds, cs = c :: d :: ds := by
      unfold isHexStart at hhex
      split at hhex
      · exact ⟨_, _, _, rfl⟩
      · simp at hhex
    have hle := (List.takeWhile_prefix isHexRun (l := ds)).length_le
    simp only [hexNumber, List.drop_succ_cons, List.drop_zero] at h
    split at h
    · simp at h
    · simp only [Except.error.injEq, Prod.mk.injEq] at h
      simp only [List.length_cons]
      omega
  | false =>
    rw [number_decimal hhex, DecimalParts.decimalNumber_eq] at h
    have hle := DecimalParts.width_le cs
    unfold DecimalParts.kind at h
    split at h
    · split at h <;> simp at h
      omega
    · simp at h

/-- A fault of a word takes no more than the source holds. -/
theorem lexeme_error_width {c : Char} (h : lexeme c cs = .error (fault, width)) :
    width ≤ cs.length + 1 := by
  unfold lexeme at h
  split at h
  · split at h
    · simp at h
    next v hv =>
      simp only [Except.error.injEq, Prod.mk.injEq] at h
      have := quoted_error_width hv
      omega
  split at h
  · exact number_error_width h
  split at h
  · simp at h
  split at h
  · simp at h
  · simp only [Except.error.injEq, Prod.mk.injEq] at h
    omega

theorem scanFrom_error {depth skip : Nat} {p : Place} {e : ScanError}
    (h : scanFrom depth skip p cs = .error e) :
    ∃ us vs width, cs = us ++ vs ∧ e.span = (p.over us).span width ∧ width ≤ vs.length := by
  induction cs generalizing depth skip p with
  | nil => simp [scanFrom] at h
  | cons c cs ih =>
    -- a fault behind the first character
    have hbehind {d n : Nat} (hcs : scanFrom d n (p.next c) cs = .error e) :
        ∃ us vs width, c :: cs = us ++ vs ∧ e.span = (p.over us).span width ∧
          width ≤ vs.length := by
      obtain ⟨us, vs, width, rfl, hspan, hwidth⟩ := ih hcs
      exact ⟨c :: us, vs, width, rfl, hspan, hwidth⟩
    have hmap {d n : Nat} {t : Token}
        (hcs : (scanFrom d n (p.next c) cs).map (t :: ·) = .error e) :
        scanFrom d n (p.next c) cs = .error e := by
      cases hscan : scanFrom d n (p.next c) cs with
      | error e' => simpa [hscan, Except.map] using hcs
      | ok us => simp [hscan, Except.map] at hcs
    cases skip with
    | succ skip => exact hbehind h
    | zero =>
      rw [scanFrom] at h
      split at h
      · exact hbehind h
      split at h
      · exact hbehind (hmap h)
      split at h
      next fault width hword =>
        obtain rfl := Except.error.inj h
        exact ⟨[], c :: cs, width, rfl, rfl, lexeme_error_width hword⟩
      next => exact hbehind (hmap h)

theorem liesIn_of_scan_error {e : ScanError} (h : scan source = .error e) :
    e.span.LiesIn source := by
  obtain ⟨us, vs, width, rfl, hspan, hwidth⟩ := scanFrom_error h
  rw [hspan]
  exact Place.liesIn_over hwidth

end Token

/-! Faults of the readers -/

section

open Token Parse

variable {source : String} {ts : List Token} {e : ParseError}

theorem Parse.FailsIn.liesIn {source : List Char} (h : FailsIn ts e)
    (hts : ∀ t ∈ ts, t.span.LiesIn source) : e.span.LiesIn source := by
  obtain ⟨-, t, ht, u, hu, hspan⟩ := h
  rw [hspan]
  exact (hts t ht).merge (hts u hu)

theorem Parse.Ended.filter {p : Token → Bool} (h : Ended ts)
    (hp : ∀ t, t.kind = .eof → p t = true) : Ended (ts.filter p) := by
  obtain ⟨us, last, rfl, hlast⟩ := h
  exact ⟨us.filter p, last, by simp [List.filter_append, hp last hlast], hlast⟩

theorem Comprehension.liesIn_of_parse_error (h : parse source = .error e) :
    e.span.LiesIn source.toList := by
  unfold parse at h
  split at h
  next e' hscan =>
    obtain rfl := Except.error.inj h
    exact liesIn_of_scan_error hscan
  next ts hscan =>
    have hread : Settles _ ts (statement source.toList ts) :=
      statement_settles (stream_of_scan hscan).ended
    rw [h] at hread
    exact FailsIn.liesIn hread (liesIn_of_scan hscan)

theorem Expr.liesIn_of_parse_error (h : parse source = .error e) :
    e.span.LiesIn source.toList := by
  unfold parse at h
  split at h
  next e' hscan =>
    obtain rfl := Except.error.inj h
    exact liesIn_of_scan_error hscan
  next ts hscan =>
    have hended : Ended (ts.filter (·.kind != .newline)) :=
      (Comprehension.stream_of_scan hscan).ended.filter fun t ht => by simp [ht]
    have hread := ofTokens_settles hended
    rw [h] at hread
    exact FailsIn.liesIn hread fun t ht => liesIn_of_scan hscan t (List.mem_filter.mp ht).1

end

/-- Every position that is reported is one in the source: that of a token, of a fault of the
scanner, and of a fault in a comprehension or in an expression. The lines and columns of a source
with fewer than `2 ^ 32 - 1` characters are numbers of 32 bits. -/
theorem reported_liesIn (source : String) :
    (∀ ts, Token.scan source.toList = .ok ts → ∀ t ∈ ts, t.span.LiesIn source.toList) ∧
    (∀ e, Token.scan source.toList = .error e →
      e.span.LiesIn source.toList ∧ e.span ≠ Span.nowhere) ∧
    (∀ e, Comprehension.parse source = .error e →
      e.span.LiesIn source.toList ∧ e.span ≠ Span.nowhere) ∧
    (∀ e, Expr.parse source = .error e →
      e.span.LiesIn source.toList ∧ e.span ≠ Span.nowhere) ∧
    (source.toList.length + 1 < 0x100000000 → ∀ offset,
      ∃ l c, Place.counted? 1 1 (source.toList.take offset) = some (l, c) ∧
        lineAt source.toList offset = l.toNat ∧ colAt source.toList offset = c.toNat) := by
  refine ⟨fun ts h => Token.liesIn_of_scan h, fun e h => ?_, fun e h => ?_, fun e h => ?_,
    Place.exists_counted⟩
  · have hlies := Token.liesIn_of_scan_error h
    exact ⟨hlies, hlies.ne_nowhere⟩
  · have hlies := Comprehension.liesIn_of_parse_error h
    exact ⟨hlies, hlies.ne_nowhere⟩
  · have hlies := Expr.liesIn_of_parse_error h
    exact ⟨hlies, hlies.ne_nowhere⟩

theorem reported_liesIn_later_lines :
    (Token.scan "a\n 'b\\\nc".toList = .error ⟨.unterminatedString, ⟨3, 8, 2, 2⟩⟩ ∧
      Span.LiesIn "a\n 'b\\\nc".toList ⟨3, 8, 2, 2⟩) ∧
    (Comprehension.parse "[x\n for x in\n range(1, 2, 0)]" = .error ⟨.rangeStep, ⟨14, 28, 3, 2⟩⟩ ∧
      Span.LiesIn "[x\n for x in\n range(1, 2, 0)]".toList ⟨14, 28, 3, 2⟩) ∧
    Expr.parse "a\n+ 'b\\\nc' d" = .error ⟨.afterExpression (.ident "d"), ⟨11, 12, 3, 4⟩⟩ ∧
      Span.LiesIn "a\n+ 'b\\\nc' d".toList ⟨11, 12, 3, 4⟩ := by
  have hscan : Token.scan "a\n 'b\\\nc".toList =
      .error ⟨.unterminatedString, ⟨3, 8, 2, 2⟩⟩ := by cbv
  have hparse : Comprehension.parse "[x\n for x in\n range(1, 2, 0)]" =
      .error ⟨.rangeStep, ⟨14, 28, 3, 2⟩⟩ := by cbv
  have hexpr : Expr.parse "a\n+ 'b\\\nc' d" =
      .error ⟨.afterExpression (.ident "d"), ⟨11, 12, 3, 4⟩⟩ := by cbv
  exact ⟨⟨hscan, ((reported_liesIn _).2.1 _ hscan).1⟩,
    ⟨hparse, ((reported_liesIn _).2.2.1 _ hparse).1⟩,
    hexpr, ((reported_liesIn _).2.2.2.1 _ hexpr).1⟩

end Comprehend
