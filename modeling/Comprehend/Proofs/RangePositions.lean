import Comprehend.Proofs.TargetText
import Comprehend.Proofs.RangeNumbers
import Comprehend.Target.Walk

/-! Positions in a range. Workers share the positions in chunks of one size, the last of which may
be short or empty; the value at a position is a short text with the position in it, and that text is
read with the usual precedences. -/
namespace Comprehend

open Target Target.Term

/-! Chunks of positions -/

/-- The positions of a worker, if each of them takes `chunk` of `n` positions. -/
def chunkOf (n chunk worker : Nat) : List Nat :=
  List.range' (worker * chunk) (min n ((worker + 1) * chunk) - worker * chunk)

def chunkSize (n workers : Nat) : Nat :=
  (n + workers - 1) / workers

theorem flatMap_chunkOf (n chunk workers : Nat) :
    (List.range workers).flatMap (chunkOf n chunk) = List.range (min n (workers * chunk)) := by
  induction workers with
  | zero => simp
  | succ w ih =>
    have hnext : (w + 1) * chunk = w * chunk + chunk := Nat.succ_mul w chunk
    rw [List.range_succ, List.flatMap_append, ih, List.flatMap_singleton, chunkOf, hnext]
    by_cases hpast : n ≤ w * chunk
    · have hnone : min n (w * chunk + chunk) - w * chunk = 0 := by omega
      rw [hnone, List.range'_zero, List.append_nil, Nat.min_eq_left hpast,
        Nat.min_eq_left (by omega)]
    · rw [Nat.min_eq_right (by omega), List.range_eq_range', List.range_eq_range']
      have hjoin := List.range'_append_1 (s := 0) (m := w * chunk)
        (n := min n (w * chunk + chunk) - w * chunk)
      rw [Nat.zero_add] at hjoin
      rw [hjoin]
      congr 1
      omega

/-- Chunks of this size leave no position out. -/
theorem flatMap_chunkOf_chunkSize (n : Nat) {workers : Nat} (hw : 0 < workers) :
    (List.range workers).flatMap (chunkOf n (chunkSize n workers)) = List.range n := by
  have henough : n ≤ workers * chunkSize n workers := by
    have hmod := Nat.div_add_mod (n + workers - 1) workers
    have hlt := Nat.mod_lt (n + workers - 1) hw
    unfold chunkSize
    omega
  rw [flatMap_chunkOf, Nat.min_eq_left henough]

/-! The value at a position -/

namespace Target

/-- The text is a term with these values wherever no term can go on behind it. -/
def Means (text : String) (x : List (String × Int) → Option Int) : Prop :=
  ∃ t : Term, ReadsSum (symbols text) t ∧ ∀ env, t.value env = x env

variable {r : Range}

theorem means_toString (n : Nat) : Means (toString n) fun _ => some (n : Int) := by
  refine ⟨ofInt n, ?_, fun env => value_ofInt env n⟩
  rw [symbols_toString_nat]
  exact (readsFactor_numeral n).product.sum

/-- The text times a number; a factor of one is not written. -/
def scaled (text : String) (n : Nat) : String :=
  if n = 1 then text else text ++ " * " ++ toString n

theorem append_scaled (s text : String) (n : Nat) : s ++ scaled text n = scaled (s ++ text) n := by
  unfold scaled
  split
  next => rfl
  next => simp only [String.append_assoc]

theorem readsProduct_scaled {text : String} {u : Term} (h : ReadsFactor (symbols text) u) (n : Nat) :
    ∃ t, ReadsProduct (symbols (scaled text n)) t ∧
      ∀ env, t.value env = (u.value env).map (· * (n : Int)) := by
  unfold scaled
  split
  next hone =>
    refine ⟨u, h.product, fun env => ?_⟩
    simp [hone]
  next =>
    refine ⟨.mul u (ofInt n), ?_, fun env => ?_⟩
    · rw [symbols_around rfl, symbols_toString_nat, List.append_assoc]
      exact h.product.mul (readsFactor_numeral n)
    · cases hu : u.value env <;> simp [value, hu]

theorem means_add {text : String} {t : Term} (h : ReadsProduct (symbols text) t) (n : Int) :
    Means (toString n ++ " + " ++ text) fun env => (t.value env).map (n + ·) := by
  refine ⟨.add (ofInt n) t, ?_, fun env => ?_⟩
  · rw [symbols_around rfl, symbols_toString, List.append_assoc]
    exact (readsFactor_numeral n).product.sum.add h
  · cases ht : t.value env <;> simp [value, ht]

theorem means_sub {text : String} {t : Term} (h : ReadsProduct (symbols text) t) (n : Int) :
    Means (toString n ++ " - " ++ text) fun env => (t.value env).map (n - ·) := by
  refine ⟨.sub (ofInt n) t, ?_, fun env => ?_⟩
  · rw [symbols_around rfl, symbols_toString, List.append_assoc]
    exact (readsFactor_numeral n).product.sum.sub h
  · cases ht : t.value env <;> simp [value, ht]

theorem Means.congr {text : String} {x y : List (String × Int) → Option Int} (h : Means text x)
    (hxy : ∀ env, x env = y env) : Means text y := by
  obtain ⟨t, ht, hvalue⟩ := h
  exact ⟨t, ht, fun env => (hvalue env).trans (hxy env)⟩

def grouped (index : String) : String :=
  if ' ' ∈ index.toList then "(" ++ index ++ ")" else index

theorem affine_of_neg (h : r.step < 0) (index : String) :
    r.affine index =
      if r.start = 0 then "-" ++ scaled (grouped index) r.stride
      else toString r.start.toInt ++ " - " ++ scaled (grouped index) r.stride := by
  unfold Range.affine scaled grouped
  rw [if_pos h]
  by_cases hone : r.stride = 1
  · simp only [if_pos hone]
  · simp only [if_neg hone]

theorem affine_of_not_neg (h : ¬r.step < 0) (index : String) :
    r.affine index =
      if r.start = 0 then (if r.stride = 1 then index else scaled (grouped index) r.stride)
      else toString r.start.toInt ++ " + " ++
        if r.stride = 1 then index else scaled (grouped index) r.stride := by
  unfold Range.affine scaled grouped
  rw [if_neg h]
  by_cases hone : r.stride = 1
  · simp only [if_pos hone]
  · simp only [if_neg hone]

theorem toInt_step_of_neg (h : r.step < 0) : r.step.toInt = -(r.stride : Int) := by
  rw [Int64.lt_iff_toInt_lt, Int64.toInt_zero] at h
  unfold Range.stride
  omega

theorem toInt_step_of_not_neg (h : ¬r.step < 0) : r.step.toInt = r.stride := by
  rw [Int64.lt_iff_toInt_lt, Int64.toInt_zero] at h
  unfold Range.stride
  omega

section Affine

variable {index : String} {u : Term} (hfactor : ReadsFactor (symbols (grouped index)) u)

include hfactor

/-- The first value is left out where it is zero, and the sign of the step stays. -/
theorem means_affine_of_neg (h : r.step < 0) :
    Means (r.affine index) fun env =>
      (u.value env).map fun i => r.start.toInt + i * r.step.toInt := by
  rw [affine_of_neg h, toInt_step_of_neg h]
  split
  next hzero =>
    have hneg : ReadsFactor (symbols ("-" ++ grouped index)) (.neg u) := by
      rw [symbols_append_left rfl]
      exact hfactor.neg
    obtain ⟨t, ht, hvalue⟩ := readsProduct_scaled hneg r.stride
    rw [append_scaled]
    refine ⟨t, ht.sum, fun env => ?_⟩
    have hproduct (i : Int) : -i * r.stride = r.start.toInt + i * -(r.stride : Int) := by
      rw [hzero, Int64.toInt_zero, Int.neg_mul, Int.mul_neg, Int.zero_add]
    rw [hvalue, value]
    dsimp only
    cases u.value env with
    | none => rfl
    | some i => exact congrArg some (hproduct i)
  next =>
    obtain ⟨t, ht, hvalue⟩ := readsProduct_scaled hfactor r.stride
    refine (means_sub ht r.start.toInt).congr fun env => ?_
    have hproduct (i : Int) :
        r.start.toInt - i * r.stride = r.start.toInt + i * -(r.stride : Int) := by
      rw [Int.mul_neg, Int.sub_eq_add_neg]
    rw [hvalue]
    cases u.value env with
    | none => rfl
    | some i => exact congrArg some (hproduct i)

/-- Where the step is one as well, the index is written as it is, without brackets. -/
theorem means_affine_of_not_neg (halone : ReadsSum (symbols index) u)
    (hbehind : ∀ n : Int, Means (toString n ++ " + " ++ index) fun env =>
      (u.value env).map (n + ·)) (h : ¬r.step < 0) :
    Means (r.affine index) fun env =>
      (u.value env).map fun i => r.start.toInt + i * r.step.toInt := by
  have hstart (hzero : r.start = 0) : r.start.toInt = 0 := by rw [hzero, Int64.toInt_zero]
  rw [affine_of_not_neg h, toInt_step_of_not_neg h]
  by_cases hone : r.stride = 1
  · simp only [hone, Int.natCast_one, Int.mul_one, ↓reduceIte]
    split
    next hzero => exact ⟨u, halone, fun env => by simp [hstart hzero]⟩
    next => exact hbehind _
  · obtain ⟨t, ht, hvalue⟩ := readsProduct_scaled hfactor r.stride
    simp only [hone, ↓reduceIte]
    split
    next hzero => exact ⟨t, ht.sum, fun env => by simp [hvalue, hstart hzero]⟩
    next =>
      refine (means_add ht r.start.toInt).congr fun env => ?_
      rw [hvalue, Option.map_map]
      rfl

/-- The value at a position, from what the index means alone, behind a number and as a factor. -/
theorem means_affine (halone : ReadsSum (symbols index) u)
    (hbehind : ∀ n : Int, Means (toString n ++ " + " ++ index) fun env =>
      (u.value env).map (n + ·)) :
    Means (r.affine index) fun env =>
      (u.value env).map fun i => r.start.toInt + i * r.step.toInt := by
  by_cases h : r.step < 0
  · exact means_affine_of_neg hfactor h
  · exact means_affine_of_not_neg hfactor halone hbehind h

end Affine

/-- An index that is a name. -/
theorem means_affine_name {name : String} (hname : ReadsFactor (symbols name) (.name name))
    (hblank : ' ' ∉ name.toList) :
    Means (r.affine name) fun env =>
      (env.lookup name).map fun i => r.start.toInt + i * r.step.toInt := by
  have hgrouped : ReadsFactor (symbols (grouped name)) (.name name) := by
    rwa [grouped, if_neg hblank]
  exact means_affine hgrouped hname.product.sum (means_add hname.product)

/-- An index that is a position within a chunk behind the start of the chunk. -/
theorem means_affine_offset :
    Means (r.affine "lo + k") fun env => do
      return r.start.toInt + ((← env.lookup "lo") + (← env.lookup "k")) * r.step.toInt := by
  have hlo : ReadsFactor [.word "lo"] (.name "lo") := fun fuel rest => rfl
  have hk : ReadsFactor [.word "k"] (.name "k") := fun fuel rest => rfl
  have hsum := hlo.product.sum.add hk.product
  have hindex : symbols "lo + k" = [.word "lo"] ++ .mark '+' :: [.word "k"] := by decide +kernel
  have hgrouped : symbols (grouped "lo + k") =
      .mark '(' :: ([.word "lo"] ++ .mark '+' :: [.word "k"] ++ [.mark ')']) := by decide +kernel
  have hbehind (n : Int) : Means (toString n ++ " + " ++ "lo + k") fun env =>
      ((Term.add (.name "lo") (.name "k")).value env).map (n + ·) := by
    refine ⟨.add (.add (ofInt n) (.name "lo")) (.name "k"), ?_, fun env => ?_⟩
    · have hthree := ((readsFactor_numeral n).product.sum.add hlo.product).add hk.product
      rw [List.append_assoc] at hthree
      rw [symbols_around rfl, symbols_toString, hindex, List.append_assoc]
      exact hthree
    · cases hl : env.lookup "lo" <;> cases hk : env.lookup "k" <;>
        simp [value, hl, hk, Int.add_assoc]
  obtain ⟨t, ht, hvalue⟩ := means_affine (r := r) (hgrouped ▸ hsum.brackets) (hindex ▸ hsum) hbehind
  refine ⟨t, ht, fun env => ?_⟩
  rw [hvalue]
  cases hl : env.lookup "lo" <;> cases hk : env.lookup "k" <;> simp [value, hl, hk]

end Target

end Comprehend
