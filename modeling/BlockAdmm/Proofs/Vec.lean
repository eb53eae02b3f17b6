/-
  Vectors over an exact reading, entry by entry.

  `entry x i` reads zero beyond the end, and over an exact reading every operation respects that: the
  laws below hold at every index, not only inside.  So a vector can be treated as a function of its
  index that vanishes from its length on.  Where there are roots, the inner product of two vectors is at
  most the product of their norms (`inner_le_norm_mul_norm`).
-/
import BlockAdmm.Proofs.Exact

namespace BlockAdmm.Vec

open Scalar ExactScalar

variable {R : Type}

/-- Beyond the end an entry is zero. -/
theorem entry_of_size_le [Scalar R] {x : Array R} {i : Nat} (h : x.size ≤ i) : entry x i = 0 := by
  rw [entry, Array.getD, dif_neg (by omega)]

theorem entry_build_of_le [Scalar R] {n i : Nat} (f : Nat → R) (h : n ≤ i) :
    entry (build n f) i = 0 := entry_of_size_le (by rw [size_build]; exact h)

theorem entry_empty [Scalar R] (i : Nat) : entry (#[] : Array R) i = 0 := entry_of_size_le (Nat.zero_le i)

@[simp] theorem size_zero [Scalar R] (n : Nat) : (zero n : Array R).size = n := size_build n _

@[simp] theorem size_scale [Scalar R] (a : R) (x : Array R) : (scale a x).size = x.size := by
  rw [scale, Array.size_map]

@[simp] theorem size_axpy [Scalar R] (a : R) (x y : Array R) : (axpy a x y).size = y.size :=
  size_build y.size _

@[simp] theorem size_increase [Scalar R] (y z : Array R) : (increase y z).size = y.size :=
  size_build y.size _

@[simp] theorem entry_zero [Scalar R] (n i : Nat) : entry (zero n : Array R) i = 0 := by
  rcases Nat.lt_or_ge i n with h | h
  · exact entry_build _ h
  · exact entry_build_of_le _ h

/-- The entries of a vector as it is read from a list. -/
theorem entry_append [Scalar R] (x y : Array R) (i : Nat) :
    entry (x ++ y) i = if i < x.size then entry x i else entry y (i - x.size) := by
  rcases Nat.lt_or_ge i x.size with h | h
  · rw [if_pos h, entry, entry, Array.getD, Array.getD, dif_pos h,
      dif_pos (by rw [Array.size_append]; omega)]
    exact Array.getElem_append_left h
  · rw [if_neg (by omega), entry, entry, Array.getD, Array.getD]
    by_cases hy : i - x.size < y.size
    · rw [dif_pos hy, dif_pos (by rw [Array.size_append]; omega)]
      exact Array.getElem_append_right h
    · rw [dif_neg hy, dif_neg (by rw [Array.size_append]; omega)]

/-- A test of some entry, by its index. -/
theorem any_iff [Scalar R] {x : Array R} {p : R → Bool} :
    x.any p = true ↔ ∃ i, i < x.size ∧ p (entry x i) = true := by
  rw [Array.any_eq_true]
  refine exists_congr fun i => ⟨fun ⟨hi, hp⟩ => ⟨hi, ?_⟩, fun ⟨hi, hp⟩ => ⟨hi, ?_⟩⟩
  · rwa [entry, Array.getD, dif_pos hi]
  · rwa [entry, Array.getD, dif_pos hi] at hp

variable [ExactScalar R]

theorem entry_map_of_lt (f : R → R) {x : Array R} {i : Nat} (h : i < x.size) :
    entry (x.map f) i = f (entry x i) := by
  rw [entry, entry, Array.getD, Array.getD, dif_pos h, dif_pos (by rw [Array.size_map]; exact h)]
  exact Array.getElem_map ..

theorem entry_map {f : R → R} (hf : f 0 = 0) (x : Array R) (i : Nat) :
    entry (x.map f) i = f (entry x i) := by
  rcases Nat.lt_or_ge i x.size with h | h
  · exact entry_map_of_lt f h
  · rw [entry_of_size_le h, entry_of_size_le (by rw [Array.size_map]; exact h), hf]

theorem entry_scale (a : R) (x : Array R) (i : Nat) : entry (scale a x) i = a * entry x i :=
  entry_map (mul_zero a) x i

theorem entry_axpy (a : R) {x y : Array R} (h : x.size = y.size) (i : Nat) :
    entry (axpy a x y) i = entry y i + a * entry x i := by
  rcases Nat.lt_or_ge i y.size with hi | hi
  · exact entry_build _ hi
  · rw [axpy, entry_build_of_le _ hi, entry_of_size_le hi, entry_of_size_le (h ▸ hi), mul_zero, add_zero]

theorem entry_increase {y z : Array R} (h : z.size = y.size) (i : Nat) :
    entry (increase y z) i = entry y i + entry z i := by
  rcases Nat.lt_or_ge i y.size with hi | hi
  · rw [increase, entry_build _ hi, if_pos (by omega)]
  · rw [increase, entry_build_of_le _ hi, entry_of_size_le hi, entry_of_size_le (h ▸ hi), add_zero]

theorem addScaled_eq_ok {a : R} {x y z : Array R} :
    addScaled a x y = .ok z ↔ x.size = y.size ∧ z = axpy a x y := by
  rw [addScaled]
  by_cases h : x.size = y.size
  · rw [show (x.size == y.size) = true from beq_iff_eq.2 h]
    constructor
    · intro hz; cases hz; exact ⟨h, rfl⟩
    · rintro ⟨-, rfl⟩; rfl
  · rw [show (x.size == y.size) = false from beq_eq_false_iff_ne.2 h]
    constructor
    · intro hz; cases hz
    · rintro ⟨h', -⟩; exact absurd h' h

theorem inner_eq_sum (x y : Array R) :
    inner x y = ∑ i ∈ Finset.range x.size, entry x i * entry y i := sumBelow_eq_sum _ _

theorem inner_self_nonneg (x : Array R) : 0 ≤ inner x x := by
  rw [inner_eq_sum]
  exact Finset.sum_nonneg fun i _ => mul_self_nonneg _

theorem eq_of_equal {x y : Array R} (h : equal x y = true) : x = y := by
  rw [equal, Bool.and_eq_true, beq_iff_eq, List.all_eq_true] at h
  exact ext_entry h.1 fun i hi => beq_iff_eq.1 (h.2 i (List.mem_range.2 hi))

theorem eq_of_same {x y : Array R} (h : same x y = true) : x = y := by
  rw [same, Bool.and_eq_true, beq_iff_eq, List.all_eq_true] at h
  exact ext_entry h.1 fun i hi => (same_iff _ _).1 (h.2 i (List.mem_range.2 hi))

/-! ## Sums over entries -/

omit [ExactScalar R] in
theorem toList_eq [Scalar R] (x : Array R) : x.toList = List.ofFn fun i : Fin x.size => entry x i := by
  refine List.ext_getElem (by simp) fun i hi hi' => ?_
  simp [entry, Array.getD]

/-- A sum over the entries of a vector. -/
theorem total_map (f : R → R) (x : Array R) :
    total (x.toList.map f) = ∑ i ∈ Finset.range x.size, f (entry x i) := by
  rw [total_eq_sum, toList_eq, List.map_ofFn, List.sum_ofFn, Finset.sum_range]
  rfl

/-- A sum over the entries of two vectors side by side. -/
theorem total_zip (f : R × R → R) {x y : Array R} (h : y.size = x.size) :
    total ((x.toList.zip y.toList).map f) = ∑ i ∈ Finset.range x.size, f (entry x i, entry y i) := by
  have hlist : (x.toList.zip y.toList).map f = List.ofFn fun i : Fin x.size => f (entry x i, entry y i) := by
    refine List.ext_getElem (by simp [h]) fun i hi hi' => ?_
    have hx : i < x.size := by simpa using hi'
    have hy : i < y.size := by omega
    simp [entry, Array.getD, hy]
  rw [total_eq_sum, hlist, List.sum_ofFn, Finset.sum_range]

/-! ## Norms -/

section Norm

variable {S : Type} [ExactRoots S] {x y : Array S}

theorem norm_nonneg (x : Array S) : 0 ≤ norm x := sqrt_nonneg (inner_self_nonneg x)

theorem norm_sq (x : Array S) : norm x ^ 2 = inner x x := sqrt_sq (inner_self_nonneg x)

theorem norm_scale (alpha : S) (x : Array S) : norm (scale alpha x) = |alpha| * norm x := by
  rw [norm, norm, ← sqrt_sq_mul (abs_nonneg alpha) (inner_self_nonneg x), sq_abs, inner_eq_sum,
    inner_eq_sum, size_scale, Finset.mul_sum]
  refine congrArg Scalar.sqrt (Finset.sum_congr rfl fun i _ => ?_)
  rw [entry_scale]
  ring

theorem norm_pos (h : ∃ i, i < x.size ∧ entry x i ≠ 0) : 0 < norm x := by
  obtain ⟨i, hi, hne⟩ := h
  have hinner : 0 < inner x x := by
    rw [inner_eq_sum]
    exact Finset.sum_pos' (fun i _ => mul_self_nonneg _) ⟨i, Finset.mem_range.2 hi, mul_self_pos.2 hne⟩
  refine (sqrt_nonneg hinner.le).lt_of_ne fun hzero => hinner.ne' ?_
  rw [← sqrt_sq hinner.le, ← hzero, zero_pow two_ne_zero]

/-- The inequality of Cauchy and Schwarz. -/
theorem inner_le_norm_mul_norm (hsize : y.size = x.size) : inner x y ≤ norm x * norm y := by
  have hsquare : inner x y ^ 2 ≤ (norm x * norm y) ^ 2 := by
    rw [mul_pow, norm_sq, norm_sq, inner_eq_sum, inner_eq_sum, inner_eq_sum, hsize]
    simp only [← pow_two]
    exact Finset.sum_mul_sq_le_sq_mul_sq ..
  exact (le_abs_self _).trans (abs_le_of_sq_le_sq hsquare (mul_nonneg (norm_nonneg x) (norm_nonneg y)))

end Norm

end BlockAdmm.Vec
