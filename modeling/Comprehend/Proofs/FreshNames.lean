import Comprehend.FreshName

/-! Names that are made up do not repeat. The number alone does not tell two names apart, because a
stem may bring digits of its own; where no stem ends in a digit, a name is cut in one way only. -/
namespace Comprehend

namespace NameSource

def endsInDigit (s : String) : Bool :=
  s.toList.getLast?.any Char.isDigit

/-! Cutting a name into its stem and its number -/

theorem isDigit_of_mem_toString {n : Nat} {c : Char} (h : c ∈ (toString n).toList) :
    c.isDigit = true := by
  rw [Nat.toString_eq_repr, Nat.toList_repr] at h
  exact Nat.isDigit_of_mem_toDigits (by decide) (by decide) h

theorem toString_inj {m n : Nat} (h : (toString m).toList = (toString n).toList) : m = n := by
  rw [Nat.toString_eq_repr, Nat.toString_eq_repr, Nat.toList_repr, Nat.toList_repr] at h
  rw [← Nat.ofDigitChars_toDigits (b := 10) (n := m) (by decide) (by decide), h,
    Nat.ofDigitChars_toDigits (by decide) (by decide)]

/-- Digits at the end of a stem would be a part of it. -/
theorem eq_nil_of_digits {s t : String} {ds : List Char} (ht : endsInDigit t = false)
    (h : t.toList = s.toList ++ ds) (hds : ∀ c ∈ ds, c.isDigit = true) : ds = [] := by
  refine Classical.byContradiction fun hne => ?_
  obtain ⟨cs, c, rfl⟩ := List.eq_nil_or_concat ds |>.resolve_left hne
  simp [endsInDigit, h, hds] at ht

theorem numbered_inj {s t : String} {m n : Nat} (hs : endsInDigit s = false)
    (ht : endsInDigit t = false) (h : s ++ toString m = t ++ toString n) : m = n := by
  have hchars := congrArg String.toList h
  rw [String.toList_append, String.toList_append] at hchars
  -- one of the two stems continues the other, by characters of the other's number
  rcases List.append_eq_append_iff.mp hchars with ⟨ds, hstem, hnumber⟩ | ⟨ds, hstem, hnumber⟩
  · have hds : ∀ c ∈ ds, c.isDigit = true := fun c hc =>
      isDigit_of_mem_toString (hnumber ▸ List.mem_append_left _ hc)
    obtain rfl := eq_nil_of_digits ht hstem hds
    exact toString_inj hnumber
  · have hds : ∀ c ∈ ds, c.isDigit = true := fun c hc =>
      isDigit_of_mem_toString (hnumber ▸ List.mem_append_left _ hc)
    obtain rfl := eq_nil_of_digits hs hstem hds
    exact toString_inj hnumber.symm

/-! Names in turn -/

variable {source : NameSource} {stem name : String} {stems : List String}

/-- Each name that was given out has a number up to the number of names. -/
def Numbered (source : NameSource) : Prop :=
  ∀ name ∈ source.given, ∃ stem n, endsInDigit stem = false ∧ n ≤ source.given.length ∧
    name = stem ++ toString n

theorem Numbered.fresh (h : Numbered source) (hstem : endsInDigit stem = false) :
    Numbered (source.fresh stem).2 := by
  intro name hname
  rcases List.mem_cons.mp hname with rfl | hname
  · exact ⟨stem, source.given.length + 1, hstem, by simp [NameSource.fresh], rfl⟩
  · obtain ⟨s, n, hs, hn, rfl⟩ := h name hname
    exact ⟨s, n, hs, Nat.le_succ_of_le hn, rfl⟩

theorem Numbered.fresh_notMem (h : Numbered source) (hstem : endsInDigit stem = false) :
    (source.fresh stem).1 ∉ source.given := by
  intro hmem
  obtain ⟨s, n, hs, hn, heq⟩ := h _ hmem
  have hnumber : source.given.length + 1 = n := numbered_inj hstem hs heq
  omega

theorem Numbered.freshAll (h : Numbered source) (hstems : ∀ s ∈ stems, endsInDigit s = false) :
    (source.freshAll stems).Nodup ∧ ∀ name ∈ source.freshAll stems, name ∉ source.given := by
  induction stems generalizing source with
  | nil => exact ⟨List.nodup_nil, by simp [NameSource.freshAll]⟩
  | cons stem stems ih =>
    obtain ⟨hstem, hrest⟩ := List.forall_mem_cons.mp hstems
    obtain ⟨hnodup, hnew⟩ := ih (h.fresh hstem) hrest
    refine ⟨List.nodup_cons.mpr ⟨fun hmem => hnew _ hmem List.mem_cons_self, hnodup⟩, ?_⟩
    refine List.forall_mem_cons.mpr ⟨h.fresh_notMem hstem, fun name hname => ?_⟩
    exact fun hgiven => hnew name hname (List.mem_cons_of_mem _ hgiven)

/-! The running number in 32 bits -/

/-- The names with a running number of 32 bits, unless that overflows. -/
def counted? (count : UInt32) : List String → Option (List String)
  | [] => some []
  | stem :: stems =>
    if count.toNat + 1 < 0x100000000 then
      (counted? (count + 1) stems).map ((stem ++ toString (count + 1).toNat) :: ·)
    else none

theorem counted?_eq {count : UInt32} (hcount : source.given.length = count.toNat)
    (hroom : count.toNat + stems.length < 0x100000000) :
    counted? count stems = some (source.freshAll stems) := by
  induction stems generalizing source count with
  | nil => rfl
  | cons stem stems ih =>
    rw [List.length_cons] at hroom
    have hnext : (count + 1).toNat = count.toNat + 1 := by
      rw [UInt32.toNat_add]
      exact Nat.mod_eq_of_lt (by simp; omega)
    have hgiven : (source.fresh stem).2.given.length = (count + 1).toNat := by
      rw [hnext, ← hcount]
      rfl
    rw [counted?, if_pos (by omega), ih hgiven (by omega), hnext, ← hcount]
    rfl

/-- Names for fewer than `2 ^ 32` stems are made without an overflow of their running number, and
if no stem ends in a digit, no two of them are the same. -/
theorem freshAll_nodup (hcount : stems.length < 0x100000000)
    (hstems : ∀ s ∈ stems, endsInDigit s = false) :
    counted? 0 stems = some (freshAll {} stems) ∧ (freshAll {} stems).Nodup :=
  ⟨counted?_eq rfl (by simpa using hcount),
    (Numbered.freshAll (fun name hname => by cases hname) hstems).1⟩

theorem freshAll_nodup_dozen :
    freshAll {} ("" :: "x1_" :: List.replicate 10 "x") =
        ["1", "x1_2", "x3", "x4", "x5", "x6", "x7", "x8", "x9", "x10", "x11", "x12"] ∧
      counted? 0 ("" :: "x1_" :: List.replicate 10 "x") =
        some (freshAll {} ("" :: "x1_" :: List.replicate 10 "x")) ∧
      (freshAll {} ("" :: "x1_" :: List.replicate 10 "x")).Nodup :=
  ⟨by decide, freshAll_nodup (by decide) (by decide)⟩

-- a stem that ends in a digit gives the name of a later stem without it
example : freshAll {} ("x1" :: List.replicate 10 "x") =
    ["x11", "x2", "x3", "x4", "x5", "x6", "x7", "x8", "x9", "x10", "x11"] := by decide

end NameSource

end Comprehend
