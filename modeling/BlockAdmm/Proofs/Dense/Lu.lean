/-
  The factorization with partial pivoting is right.

  A factored matrix holds two triangles in one.  `upper m k` reads the second of them after `k` columns,
  with zeros in place of the multipliers, and `exchanges` is the permutation of the rows that the pivots
  stand for.  The invariant of the factorization (`Factored`) says that, row for row, the matrix that was
  given is the product of the triangles with its rows exchanged.  One column keeps it (`Factored.step`), so
  it holds when the factorization ends, with all of its pivots or without one (`Factored.of_go`,
  `Factored.of_stuck`).

  The two substitutions undo the two triangles (`forward_spec`, `backward_spec`), so what they make of a
  right-hand side solves the system.  A column without a pivot above zero gives a vector that the matrix
  takes to zero, and there is none if every system has a solution (`factor_correct`).
-/
import BlockAdmm.Proofs.LinearMap.Basic

namespace BlockAdmm

open Scalar ExactScalar

/-! ## Sizes -/

namespace Lu

variable {R : Type} [Scalar R] {lu : Lu R} {eps : R}

theorem n_of_go {todo k : Nat} {a : Dense R} {pivots : List Nat}
    (h : go eps todo k a pivots = .ok lu) : lu.n = k + todo := by
  induction todo generalizing k a pivots with
  | zero =>
    cases h
    rfl
  | succ todo ih =>
    rw [go] at h
    split at h
    · cases h
    · rw [ih h]
      omega

/-- Only a square matrix has a factorization. -/
theorem of?_eq_some_iff {a : Dense R} : of? a eps = some lu ↔ a.m = a.n ∧ factor a eps = .ok lu := by
  rw [of?]
  split
  · rename_i hsquare
    cases factor a eps with
    | error s => exact ⟨nofun, nofun⟩
    | ok lu' =>
      exact ⟨fun h => ⟨hsquare, congrArg Except.ok (Option.some.inj h)⟩,
        fun h => congrArg some (Except.ok.inj h.2)⟩
  · rename_i hsquare
    exact ⟨nofun, fun h => absurd h.1 hsquare⟩

/-- Where a square matrix has no factorization, it stopped somewhere. -/
theorem exists_stuck_of_of? {a : Dense R} (hsquare : a.m = a.n) (h : of? a eps = none) :
    ∃ s, factor a eps = .error s := by
  cases hfactor : factor a eps with
  | error s => exact ⟨s, rfl⟩
  | ok lu =>
    rw [of?_eq_some_iff.2 ⟨hsquare, hfactor⟩] at h
    cases h

/-- A factored matrix has as many rows as before. -/
theorem n_of_of? {a : Dense R} (h : of? a eps = some lu) : lu.n = a.m :=
  (n_of_go (of?_eq_some_iff.1 h).2).trans (Nat.zero_add _)

theorem size_permute (pivots : List Nat) (k : Nat) (b : Array R) : (permute pivots k b).size = b.size := by
  induction pivots generalizing k b with
  | nil => rfl
  | cons p ps ih => rw [permute, ih, swap, Vec.size_build]

theorem size_forward (a : Dense R) (todo k : Nat) (b : Array R) : (forward a todo k b).size = b.size := by
  induction todo generalizing k b with
  | zero => rfl
  | succ todo ih => rw [forward, ih, Vec.size_build]

theorem size_backward (a : Dense R) (k : Nat) (b : Array R) : (backward a k b).size = b.size := by
  induction k generalizing b with
  | zero => rfl
  | succ k ih => rw [backward, ih, Vec.size_build]

theorem size_substitute (f : Lu R) (b : Array R) : (f.substitute b).size = b.size := by
  rw [substitute, size_backward, size_forward, size_permute]

/-! ## Exchanges of rows -/

/-- `exchanges pivots k`: the permutation of the rows by which the exchanges from step `k` on read. -/
def exchanges : List Nat → Nat → Equiv.Perm Nat
  | [], _ => 1
  | p :: ps, k => Equiv.swap k p * exchanges ps (k + 1)

theorem exchanges_concat (ps : List Nat) (p k : Nat) :
    exchanges (ps ++ [p]) k = exchanges ps k * Equiv.swap (k + ps.length) p := by
  induction ps generalizing k with
  | nil => rw [List.nil_append, exchanges, exchanges, exchanges, mul_one, one_mul, List.length_nil, Nat.add_zero]
  | cons q ps ih =>
    rw [List.cons_append, exchanges, exchanges, ih, mul_assoc, List.length_cons]
    congr 3
    omega

theorem swap_lt_iff {k p n : Nat} (hk : k < n) (hp : p < n) (i : Nat) : Equiv.swap k p i < n ↔ i < n := by
  rw [Equiv.swap_apply_def]
  split
  · omega
  · split <;> omega

/-- Exchanges inside a range stay inside. -/
theorem exchanges_lt_iff {ps : List Nat} {k n : Nat} (hps : ∀ p ∈ ps, p < n) (hk : k + ps.length ≤ n)
    (i : Nat) : exchanges ps k i < n ↔ i < n := by
  induction ps generalizing k with
  | nil => exact Iff.rfl
  | cons p ps ih =>
    rw [List.length_cons] at hk
    rw [exchanges, Equiv.Perm.mul_apply, swap_lt_iff (by omega) (hps p List.mem_cons_self)]
    exact ih (fun q hq => hps q (List.mem_cons_of_mem p hq)) (by omega)

theorem entry_swap {k p : Nat} {b : Array R} {i : Nat} (hi : i < b.size) :
    Vec.entry (swap k p b) i = Vec.entry b (Equiv.swap k p i) := by
  rw [swap, Vec.entry_build _ hi, Equiv.swap_apply_def]

theorem entry_permute {ps : List Nat} {k : Nat} {b : Array R} (hps : ∀ p ∈ ps, p < b.size)
    (hk : k + ps.length ≤ b.size) {i : Nat} (hi : i < b.size) :
    Vec.entry (permute ps k b) i = Vec.entry b (exchanges ps k i) := by
  induction ps generalizing k b with
  | nil => rfl
  | cons p ps ih =>
    rw [List.length_cons] at hk
    have hsize : (swap k p b).size = b.size := by rw [swap, Vec.size_build]
    have hrest : ∀ q ∈ ps, q < b.size := fun q hq => hps q (List.mem_cons_of_mem p hq)
    rw [permute, ih (by rwa [hsize]) (by rw [hsize]; omega) (by rwa [hsize]), exchanges,
      Equiv.Perm.mul_apply, entry_swap]
    exact (exchanges_lt_iff hrest (by omega) i).2 hi

end Lu

/-! ## Matrices -/

variable {R : Type} [ExactScalar R] {a m : Dense R} {eps : R}

namespace Dense

/-- `a.matrix n`: the entries of the first `n` rows and columns. -/
def matrix (a : Dense R) (n : Nat) : Matrix (Fin n) (Fin n) R := Matrix.of fun i j => a.entry i j

theorem matrix_product {b : Dense R} {n : Nat} (ha : a.size = (n, n)) (hb : b.size = (n, n)) :
    (a.product b).matrix n = a.matrix n * b.matrix n := by
  ext i j
  have hm : a.m = n := congrArg Prod.fst ha
  have hn : a.n = n := congrArg Prod.snd ha
  have hbn : b.n = n := congrArg Prod.snd hb
  calc (a.product b).entry i j
      = ∑ k ∈ Finset.range n, a.entry i k * b.entry k j := by
        rw [entry_product (by omega) (by omega), hn]
    _ = ∑ k : Fin n, a.entry i k * b.entry k j := Finset.sum_range _
    _ = (a.matrix n * b.matrix n) i j := by rw [Matrix.mul_apply]; rfl

theorem matrix_identity (n : Nat) : (identity n : Dense R).matrix n = 1 := by
  ext i j
  show (identity n : Dense R).entry i j = _
  rw [entry_identity i.isLt j.isLt, Matrix.one_apply]
  simp only [Fin.ext_iff]

theorem eq_of_matrix_eq {b : Dense R} {n : Nat} (ha : a.size = (n, n)) (hb : b.size = (n, n))
    (h : a.matrix n = b.matrix n) : a = b := by
  have hm : a.m = n := congrArg Prod.fst ha
  have hn : a.n = n := congrArg Prod.snd ha
  have hbm : b.m = n := congrArg Prod.fst hb
  have hbn : b.n = n := congrArg Prod.snd hb
  refine ext_entry (by omega) (by omega) fun r c hr hc => ?_
  exact congrFun (congrFun h ⟨r, by omega⟩) ⟨c, by omega⟩

/-- The product of the matrix with a vector, row by row. -/
theorem matrix_mulVec (a : Dense R) (n : Nat) (x : Nat → R) (i : Fin n) :
    (a.matrix n).mulVec (fun j => x j) i = rowSum n a.entry x i := by
  rw [Matrix.mulVec, rowSum, Finset.sum_range]
  rfl

end Dense

namespace Lu

/-! ## The factorization -/

theorem scalarAbs_eq (x : R) : Scalar.abs x = |x| := ExactScalar.abs_eq x

/-- Above the bound there is no zero. -/
theorem ne_zero_of_above {x : R} (heps : 0 ≤ eps) (h : ¬ Scalar.abs x ≤ eps) : x ≠ 0 := by
  rintro rfl
  rw [scalarAbs_eq, abs_zero] at h
  exact h heps

/-- The row that comes up is one of those that are left, and none of them has a larger entry. -/
theorem pivotRow_spec {k : Nat} (hk : k < m.m) :
    (k ≤ pivotRow m k ∧ pivotRow m k < m.m) ∧
      ∀ i, k ≤ i → i < m.m → Scalar.abs (m.entry i k) ≤ Scalar.abs (m.entry (pivotRow m k) k) := by
  let larger (p i : Nat) : Nat := if Scalar.abs (m.entry p k) < Scalar.abs (m.entry i k) then i else p
  -- the walk goes on from any row `p`, and never to one with a smaller entry
  have hwalk (rows : List Nat) (p : Nat) :
      (rows.foldl larger p = p ∨ rows.foldl larger p ∈ rows) ∧
        ∀ i ∈ p :: rows, Scalar.abs (m.entry i k) ≤ Scalar.abs (m.entry (rows.foldl larger p) k) := by
    induction rows generalizing p with
    | nil => exact ⟨Or.inl rfl, List.forall_mem_singleton.2 le_rfl⟩
    | cons i rows ih =>
      rw [List.foldl_cons]
      obtain ⟨hmem, hall⟩ := ih (larger p i)
      have hnext : (larger p i = p ∨ larger p i = i) ∧
          Scalar.abs (m.entry p k) ≤ Scalar.abs (m.entry (larger p i) k) ∧
          Scalar.abs (m.entry i k) ≤ Scalar.abs (m.entry (larger p i) k) := by
        by_cases h : Scalar.abs (m.entry p k) < Scalar.abs (m.entry i k)
        · rw [show larger p i = i from if_pos h]
          exact ⟨Or.inr rfl, h.le, le_rfl⟩
        · rw [show larger p i = p from if_neg h]
          exact ⟨Or.inl rfl, le_rfl, not_lt.1 h⟩
      have hle := hall _ List.mem_cons_self
      refine ⟨?_, List.forall_mem_cons.2 ⟨hnext.2.1.trans hle, List.forall_mem_cons.2
        ⟨hnext.2.2.trans hle, fun j hj => hall j (List.mem_cons_of_mem _ hj)⟩⟩⟩
      rcases hmem with h | h
      · rw [h]
        rcases hnext.1 with h | h
        · exact Or.inl h
        · exact Or.inr (List.mem_cons.2 (Or.inl h))
      · exact Or.inr (List.mem_cons_of_mem i h)
  obtain ⟨hmem, hall⟩ := hwalk (List.range' (k + 1) (m.m - (k + 1))) k
  change (pivotRow m k = k ∨ pivotRow m k ∈ _) at hmem
  rw [List.mem_range'_1] at hmem
  refine ⟨by omega, fun i hki hi => hall i ?_⟩
  rcases Nat.eq_or_lt_of_le hki with rfl | hlt
  · exact List.mem_cons_self
  · exact List.mem_cons_of_mem k (List.mem_range'_1.2 (by omega))

theorem entry_swapRows {k p i j : Nat} (hi : i < m.m) (hj : j < m.n) :
    (swapRows k p m).entry i j = m.entry (Equiv.swap k p i) j := by
  rw [swapRows, Dense.entry_build _ hi hj, Equiv.swap_apply_def]

/-- Rows down to the one of the pivot stay. -/
theorem entry_eliminate_of_le {k i j : Nat} (hi : i < m.m) (hj : j < m.n) (hik : i ≤ k) :
    (eliminate k m).entry i j = m.entry i j := by
  rw [eliminate, Dense.entry_build _ hi hj, if_neg (by omega)]

/-- Columns before the one of the pivot stay. -/
theorem entry_eliminate_of_lt {k i j : Nat} (hi : i < m.m) (hj : j < m.n) (hjk : j < k) :
    (eliminate k m).entry i j = m.entry i j := by
  rw [eliminate, Dense.entry_build _ hi hj, if_neg (show ¬ j = k by omega), if_neg (show ¬ k < j by omega)]
  split <;> rfl

/-- Below the pivot stand the multipliers. -/
theorem entry_eliminate_self {k i : Nat} (hi : i < m.m) (hk : k < m.n) (hik : k < i) :
    (eliminate k m).entry i k = m.entry i k / m.entry k k := by
  rw [eliminate, Dense.entry_build _ hi hk, if_pos hik, if_pos rfl, mul_comm, recip_mul]

theorem entry_eliminate {k i j : Nat} (hi : i < m.m) (hj : j < m.n) (hik : k < i) (hjk : k < j) :
    (eliminate k m).entry i j = m.entry i j - m.entry i k / m.entry k k * m.entry k j := by
  rw [eliminate, Dense.entry_build _ hi hj, if_pos hik, if_neg (show ¬ j = k by omega), if_pos hjk,
    mul_comm (m.entry i k), recip_mul]

/-- `upper m k i j`: what is left of the matrix after `k` columns, the multipliers read as zeros. -/
def upper (m : Dense R) (k i j : Nat) : R := if j < k ∧ j < i then 0 else m.entry i j

section Step

variable {k p i j : Nat}

theorem swap_eq_of_lt (hkp : k ≤ p) (hi : i < k) : Equiv.swap k p i = i :=
  Equiv.swap_apply_of_ne_of_ne (by omega) (by omega)

theorem min_swap (hkp : k ≤ p) (i : Nat) : min k (Equiv.swap k p i) = min k i := by
  rw [Equiv.swap_apply_def]
  split
  · omega
  · split <;> omega

theorem upper_swapRows (hkp : k ≤ p) (hi : i < m.m) (hj : j < m.n) :
    upper (swapRows k p m) k i j = upper m k (Equiv.swap k p i) j := by
  have hmin := min_swap hkp i
  have hiff : j < k ∧ j < i ↔ j < k ∧ j < Equiv.swap k p i := by omega
  simp only [upper, hiff, entry_swapRows hi hj]

theorem upper_eliminate_of_le (hi : i < m.m) (hj : j < m.n) (hik : i ≤ k) :
    upper (eliminate k m) (k + 1) i j = upper m k i j := by
  have hiff : j < k + 1 ∧ j < i ↔ j < k ∧ j < i := by omega
  simp only [upper, hiff, entry_eliminate_of_le hi hj hik]

/-- What a row below the pivot loses is the multiple of the row of the pivot. -/
theorem upper_eliminate (hi : i < m.m) (hk : k < m.n) (hj : j < m.n) (hik : k < i) (hpivot : m.entry k k ≠ 0) :
    (eliminate k m).entry i k * upper m k k j + upper (eliminate k m) (k + 1) i j = upper m k i j := by
  rw [upper, upper, upper, entry_eliminate_self hi hk hik]
  rcases Nat.lt_trichotomy j k with hjk | rfl | hjk
  · rw [if_pos (by omega), if_pos (by omega), if_pos (by omega), mul_zero, add_zero]
  · rw [if_neg (by omega), if_pos (by omega), if_neg (by omega), add_zero, div_mul_cancel₀ _ hpivot]
  · rw [if_neg (by omega), if_neg (by omega), if_neg (by omega), entry_eliminate hi hj hik hjk]
    ring

end Step

/-- `Factored a k pivots m`: after `k` columns of `a` the matrix is `m`, and `pivots` came up.  A row of
    `a` is the row of what is left and the multiples that were taken from it. -/
structure Factored (a : Dense R) (k : Nat) (pivots : List Nat) (m : Dense R) : Prop where
  size : m.size = (a.m, a.m)
  length : pivots.length = k
  inside : ∀ p ∈ pivots, p < a.m
  pivot : ∀ i, i < k → m.entry i i ≠ 0
  entries : ∀ i j, i < a.m → j < a.m → a.entry (exchanges pivots 0 i) j
    = ∑ t ∈ Finset.range (min k i), m.entry i t * upper m k t j + upper m k i j

variable {k p : Nat} {pivots : List Nat}

theorem factored_start (h : a.m = a.n) : Factored a 0 [] a := by
  refine ⟨Prod.ext rfl h.symm, rfl, fun _ h => absurd h List.not_mem_nil,
    fun _ h => absurd h (Nat.not_lt_zero _), fun i j _ _ => ?_⟩
  rw [Nat.zero_min, Finset.sum_range_zero, zero_add, upper, if_neg (by omega)]
  rfl

namespace Factored

theorem rows (h : Factored a k pivots m) : m.m = a.m := congrArg Prod.fst h.size

theorem cols (h : Factored a k pivots m) : m.n = a.m := congrArg Prod.snd h.size

/-- An exchange of two rows that are left exchanges the multipliers in them too. -/
theorem entries_swapRows (h : Factored a k pivots m) (hkp : k ≤ p) (hp : p < a.m) {i j : Nat} (hi : i < a.m)
    (hj : j < a.m) : a.entry (exchanges (pivots ++ [p]) 0 i) j
      = ∑ t ∈ Finset.range (min k i), (swapRows k p m).entry i t * upper (swapRows k p m) k t j
        + upper (swapRows k p m) k i j := by
  have hm := h.rows
  have hn := h.cols
  rw [exchanges_concat, h.length, Nat.zero_add, Equiv.Perm.mul_apply,
    h.entries _ _ ((swap_lt_iff (by omega) hp i).2 hi) hj, min_swap hkp,
    upper_swapRows hkp (by omega) (by omega)]
  congr 1
  refine Finset.sum_congr rfl fun t ht => ?_
  have ht := Finset.mem_range.1 ht
  rw [entry_swapRows (by omega) (by omega), upper_swapRows hkp (by omega) (by omega),
    swap_eq_of_lt hkp (show t < k by omega)]

/-- One column of the factorization. -/
theorem step (h : Factored a k pivots m) (hkp : k ≤ p) (hp : p < a.m) (hpivot : m.entry p k ≠ 0) :
    Factored a (k + 1) (pivots ++ [p]) (eliminate k (swapRows k p m)) := by
  have hm : (swapRows k p m).m = a.m := h.rows
  have hn : (swapRows k p m).n = a.m := h.cols
  have hdiagonal : ∀ i, i ≤ k → (swapRows k p m).entry i i ≠ 0 := by
    intro i hik
    rw [entry_swapRows (by have := h.rows; omega) (by have := h.cols; omega)]
    rcases Nat.eq_or_lt_of_le hik with rfl | hlt
    · rw [Equiv.swap_apply_left]
      exact hpivot
    · rw [swap_eq_of_lt hkp hlt]
      exact h.pivot i hlt
  refine ⟨Prod.ext hm hn, by rw [List.length_append, h.length]; rfl, fun q hq => ?_, fun i hi => ?_,
    fun i j hi hj => ?_⟩
  · rcases List.mem_append.1 hq with hq | hq
    · exact h.inside q hq
    · exact List.mem_singleton.1 hq ▸ hp
  · rw [entry_eliminate_of_le (by omega) (by omega) (by omega)]
    exact hdiagonal i (by omega)
  · -- the rows above the pivot stay, and so do the multipliers that are there already
    have hupper : ∀ t, t ≤ k → upper (eliminate k (swapRows k p m)) (k + 1) t j
        = upper (swapRows k p m) k t j := fun t ht =>
      upper_eliminate_of_le (by omega) (by omega) ht
    rw [h.entries_swapRows hkp hp hi hj]
    rcases Nat.lt_or_ge k i with hik | hik
    · rw [Nat.min_eq_left (by omega), Nat.min_eq_left (by omega), Finset.sum_range_succ, hupper k le_rfl,
        add_assoc, upper_eliminate (by omega) (by omega) (by omega) hik (hdiagonal k le_rfl)]
      congr 1
      refine Finset.sum_congr rfl fun t ht => ?_
      have ht := Finset.mem_range.1 ht
      rw [hupper t (by omega), entry_eliminate_of_lt (by omega) (by omega) ht]
    · rw [Nat.min_eq_right hik, Nat.min_eq_right (by omega), hupper i hik]
      congr 1
      refine Finset.sum_congr rfl fun t ht => ?_
      have ht := Finset.mem_range.1 ht
      rw [hupper t (by omega), entry_eliminate_of_le (by omega) (by omega) hik]

/-- A factorization that goes on to its end. -/
theorem of_go {todo : Nat} {f : Lu R} (h : Factored a k pivots m) (htodo : k + todo = a.m) (heps : 0 ≤ eps)
    (hgo : go eps todo k m pivots.reverse = .ok f) : Factored a a.m f.pivots f.factors ∧ f.n = a.m := by
  induction todo generalizing k m pivots with
  | zero =>
    cases hgo
    rw [List.reverse_reverse]
    exact ⟨htodo ▸ h, htodo⟩
  | succ todo ih =>
    rw [go] at hgo
    split at hgo
    · cases hgo
    · rename_i habove
      obtain ⟨⟨hkp, hp⟩, -⟩ := pivotRow_spec (m := m) (k := k) (by have := h.rows; omega)
      rw [h.rows] at hp
      rw [← List.reverse_concat] at hgo
      exact ih (h.step hkp hp (ne_zero_of_above heps habove)) (by omega) hgo

/-- A factorization that stops at a column has no entry above the bound there, from the diagonal on. -/
theorem of_stuck {todo : Nat} {s : Stuck R} (h : Factored a k pivots m) (htodo : k + todo = a.m)
    (heps : 0 ≤ eps) (hgo : go eps todo k m pivots.reverse = .error s) :
    s.column < a.m ∧ (∃ pivots, Factored a s.column pivots s.matrix) ∧
      ∀ i, s.column ≤ i → i < a.m → Scalar.abs (s.matrix.entry i s.column) ≤ eps := by
  induction todo generalizing k m pivots with
  | zero => cases hgo
  | succ todo ih =>
    rw [go] at hgo
    obtain ⟨⟨hkp, hp⟩, hall⟩ := pivotRow_spec (m := m) (k := k) (by have := h.rows; omega)
    rw [h.rows] at hp hall
    split at hgo
    · rename_i hbelow
      cases hgo
      exact ⟨show k < a.m by omega, ⟨pivots, h⟩, fun i hki hi => (hall i hki hi).trans hbelow⟩
    · rename_i habove
      rw [← List.reverse_concat] at hgo
      exact ih (h.step hkp hp (ne_zero_of_above heps habove)) (by omega) hgo

end Factored

/-! ## The substitutions -/

/-- The lower triangle, whose diagonal is one, from column `k` on. -/
theorem forward_spec (todo k : Nat) (b : Array R) {i : Nat} (hi : i < b.size) :
    Vec.entry (forward a todo k b) i
      + ∑ t ∈ Finset.Ico k (min i (k + todo)), a.entry i t * Vec.entry (forward a todo k b) t
        = Vec.entry b i := by
  induction todo generalizing k b i with
  | zero => rw [Finset.Ico_eq_empty (by omega), Finset.sum_empty, add_zero, forward]
  | succ todo ih =>
    rw [forward]
    -- the right-hand side after column `k`
    generalize hb' : (Vec.build b.size fun i =>
      if k < i then Vec.entry b i - a.entry i k * Vec.entry b k else Vec.entry b i) = b'
    have hsize : b'.size = b.size := by rw [← hb', Vec.size_build]
    have hentry {i : Nat} (hi : i < b.size) : Vec.entry b' i
        = if k < i then Vec.entry b i - a.entry i k * Vec.entry b k else Vec.entry b i := by
      rw [← hb', Vec.entry_build _ hi]
    have hrow := ih (k + 1) b' (hsize.symm ▸ hi)
    rw [hentry hi] at hrow
    rcases Nat.lt_or_ge k i with hki | hik
    · have hk := ih (k + 1) b' (i := k) (by omega)
      rw [Finset.Ico_eq_empty (by omega), Finset.sum_empty, add_zero, hentry (by omega), if_neg (by omega)] at hk
      rw [if_pos hki] at hrow
      rw [show k + (todo + 1) = k + 1 + todo by omega, Finset.sum_eq_sum_Ico_succ_bot (by omega), hk]
      linear_combination hrow
    · rw [Finset.Ico_eq_empty (by omega), Finset.sum_empty, add_zero, if_neg (by omega)] at hrow
      rw [Finset.Ico_eq_empty (by omega), Finset.sum_empty, add_zero, hrow]

/-- The upper triangle, from row `k - 1` up; what stands from row `k` on stays. -/
theorem backward_spec (k : Nat) (b : Array R) (hk : k ≤ b.size) (hdiagonal : ∀ i, i < k → a.entry i i ≠ 0) :
    (∀ i, k ≤ i → i < b.size → Vec.entry (backward a k b) i = Vec.entry b i) ∧
      ∀ i, i < k → ∑ t ∈ Finset.Ico i k, a.entry i t * Vec.entry (backward a k b) t = Vec.entry b i := by
  induction k generalizing b with
  | zero => exact ⟨fun _ _ _ => rfl, fun _ h => absurd h (Nat.not_lt_zero _)⟩
  | succ k ih =>
    rw [backward]
    -- the right-hand side after row `k`
    generalize hb' : (Vec.build b.size fun i =>
      if i = k then Vec.entry b k / a.entry k k
      else if i < k then Vec.entry b i - a.entry i k * (Vec.entry b k / a.entry k k) else Vec.entry b i) = b'
    have hsize : b'.size = b.size := by rw [← hb', Vec.size_build]
    have hentry {i : Nat} (hi : i < b.size) : Vec.entry b' i = if i = k then Vec.entry b k / a.entry k k
        else if i < k then Vec.entry b i - a.entry i k * (Vec.entry b k / a.entry k k) else Vec.entry b i := by
      rw [← hb', Vec.entry_build _ hi]
    obtain ⟨hstay, hsum⟩ := ih b' (by omega) fun i hi => hdiagonal i (by omega)
    have hself : Vec.entry (backward a k b') k = Vec.entry b k / a.entry k k := by
      rw [hstay k le_rfl (by omega), hentry (by omega), if_pos rfl]
    refine ⟨fun i hi hib => ?_, fun i hi => ?_⟩
    · rw [hstay i (by omega) (by omega), hentry hib, if_neg (by omega), if_neg (by omega)]
    · rw [Finset.sum_Ico_succ_top (by omega), hself]
      rcases Nat.lt_or_eq_of_le (Nat.le_of_lt_succ hi) with hik | rfl
      · rw [hsum i hik, hentry (by omega), if_neg (by omega), if_pos hik, sub_add_cancel]
      · rw [Finset.Ico_self, Finset.sum_empty, zero_add, mul_div_cancel₀ _ (hdiagonal i hi)]

/-! ## Systems -/

namespace Factored

variable {x b y : Array R}

/-- What is left of a row, on a vector, starts at the diagonal. -/
theorem sum_upper (m : Dense R) (k n i : Nat) (x : Nat → R) :
    ∑ j ∈ Finset.range n, upper m k i j * x j = ∑ j ∈ Finset.Ico (min i k) n, m.entry i j * x j := by
  rw [Finset.range_eq_Ico]
  refine (Finset.sum_subset (Finset.Ico_subset_Ico_left (Nat.zero_le _)) fun j _ hj => ?_).symm.trans
    (Finset.sum_congr rfl fun j hj => ?_)
  · rw [Finset.mem_Ico] at *
    rw [upper, if_pos (by omega), zero_mul]
  · rw [Finset.mem_Ico] at hj
    rw [upper, if_neg (by omega)]

/-- The product of the matrix with a vector, from what is left of the rows. -/
theorem rowSum_eq (h : Factored a k pivots m) (hsquare : a.m = a.n) {s : Nat → R} {i : Nat} (hi : i < a.m)
    (hs : ∀ t, t < a.m → ∑ j ∈ Finset.Ico (min t k) a.m, m.entry t j * Vec.entry x j = s t) :
    rowSum a.n a.entry (Vec.entry x) (exchanges pivots 0 i)
      = s i + ∑ t ∈ Finset.Ico 0 (min i k), m.entry i t * s t := by
  calc rowSum a.n a.entry (Vec.entry x) (exchanges pivots 0 i)
      = ∑ j ∈ Finset.range a.m, (∑ t ∈ Finset.range (min k i), m.entry i t * (upper m k t j * Vec.entry x j)
          + upper m k i j * Vec.entry x j) := by
        rw [rowSum, ← hsquare]
        refine Finset.sum_congr rfl fun j hj => ?_
        rw [h.entries i j hi (Finset.mem_range.1 hj), add_mul, Finset.sum_mul]
        simp only [mul_assoc]
    _ = ∑ t ∈ Finset.range (min k i), m.entry i t * s t + s i := by
        rw [Finset.sum_add_distrib, Finset.sum_comm, sum_upper, hs i hi]
        congr 1
        refine Finset.sum_congr rfl fun t ht => ?_
        have ht := Finset.mem_range.1 ht
        rw [← Finset.mul_sum, sum_upper, hs t (by omega)]
    _ = s i + ∑ t ∈ Finset.Ico 0 (min i k), m.entry i t * s t := by
        rw [add_comm, Finset.range_eq_Ico, Nat.min_comm]

/-- Every row is where an exchange took it. -/
theorem forall_rows (h : Factored a k pivots m) (hk : k ≤ a.m) {P : Nat → Prop}
    (hP : ∀ i, i < a.m → P (exchanges pivots 0 i)) {i : Nat} (hi : i < a.m) : P i := by
  have hlt := exchanges_lt_iff h.inside (k := 0) (by rw [h.length]; omega) ((exchanges pivots 0).symm i)
  rw [Equiv.apply_symm_apply] at hlt
  have hrow := hP _ (hlt.1 hi)
  rwa [Equiv.apply_symm_apply] at hrow

/-- With all of its pivots a factorization solves every system. -/
theorem rowSum_substitute {f : Lu R} (h : Factored a a.m f.pivots f.factors) (hn : f.n = a.m)
    (hsquare : a.m = a.n) (hb : b.size = a.m) {i : Nat} (hi : i < a.m) :
    rowSum a.n a.entry (Vec.entry (f.substitute b)) i = Vec.entry b i := by
  have hpermute : (permute f.pivots 0 b).size = a.m := (size_permute ..).trans hb
  have hforward : (forward f.factors f.n 0 (permute f.pivots 0 b)).size = a.m :=
    (size_forward ..).trans hpermute
  obtain ⟨-, hupper⟩ := backward_spec (a := f.factors) f.n (forward f.factors f.n 0 (permute f.pivots 0 b))
    (by omega) fun i hi => h.pivot i (by omega)
  refine h.forall_rows le_rfl (P := fun i => rowSum a.n a.entry (Vec.entry (f.substitute b)) i = Vec.entry b i)
    (fun i hi => ?_) hi
  have hlower := forward_spec (a := f.factors) f.n 0 (permute f.pivots 0 b) (i := i) (by omega)
  rw [entry_permute (by rw [hb]; exact h.inside) (by rw [h.length]; omega) (by omega), Nat.zero_add, hn] at hlower
  rw [← hlower]
  refine h.rowSum_eq hsquare hi fun t ht => ?_
  rw [Nat.min_eq_left (by omega)]
  rw [hn] at hupper
  rw [substitute, hn]
  exact hupper t ht

/-- A column without a pivot gives a vector that the matrix takes to zero. -/
theorem exists_kernel (h : Factored a k pivots m) (hsquare : a.m = a.n) (hk : k < a.m)
    (hzero : ∀ i, k ≤ i → i < a.m → m.entry i k = 0) :
    ∃ x : Array R, Vec.entry x k ≠ 0 ∧ ∀ i, i < a.m → rowSum a.n a.entry (Vec.entry x) i = 0 := by
  -- the column itself, one in the place of the pivot, and zeros below
  let b : Array R := Vec.build a.m fun i => if i < k then - m.entry i k else if i = k then 1 else 0
  have hb : b.size = a.m := Vec.size_build ..
  have hentry {i : Nat} (hi : i < a.m) : Vec.entry b i = if i < k then - m.entry i k else if i = k then 1 else 0 :=
    Vec.entry_build _ hi
  obtain ⟨hstay, hupper⟩ := backward_spec (a := m) k b (by omega) h.pivot
  have hself : Vec.entry (backward m k b) k = 1 := by
    rw [hstay k le_rfl (by omega), hentry hk, if_neg (by omega), if_pos rfl]
  -- of the columns from the pivot on, only that one counts
  have htail (i : Nat) : ∑ j ∈ Finset.Ico k a.m, m.entry i j * Vec.entry (backward m k b) j = m.entry i k := by
    rw [Finset.sum_eq_sum_Ico_succ_bot hk, hself, mul_one, add_eq_left]
    refine Finset.sum_eq_zero fun j hj => ?_
    rw [Finset.mem_Ico] at hj
    rw [hstay j (by omega) (by omega), hentry (by omega), if_neg (by omega), if_neg (by omega), mul_zero]
  have hleft : ∀ t, t < a.m →
      ∑ j ∈ Finset.Ico (min t k) a.m, m.entry t j * Vec.entry (backward m k b) j = 0 := by
    intro t ht
    rcases Nat.lt_or_ge t k with htk | hkt
    · rw [Nat.min_eq_left (by omega), ← Finset.sum_Ico_consecutive _ htk.le hk.le, htail, hupper t htk,
        hentry (by omega), if_pos htk, neg_add_cancel]
    · rw [Nat.min_eq_right hkt, htail, hzero t hkt ht]
  refine ⟨backward m k b, by rw [hself]; exact one_ne_zero, fun i hi => ?_⟩
  refine h.forall_rows hk.le (P := fun i => rowSum a.n a.entry (Vec.entry (backward m k b)) i = 0)
    (fun i hi => ?_) hi
  rw [h.rowSum_eq hsquare hi (s := fun _ => 0) hleft]
  simp only [mul_zero, Finset.sum_const_zero, add_zero]

end Factored

/-! ## Solutions and inverses -/

theorem size_inverse (f : Lu R) : f.inverse.size = (f.n, f.n) := rfl

/-- The columns of the inverse solve the unit vectors. -/
theorem entry_inverse (f : Lu R) {r c : Nat} (hr : r < f.n) (hc : c < f.n) :
    f.inverse.entry r c = Vec.entry (f.substitute (Vec.build f.n fun i => if i = c then 1 else 0)) r := by
  rw [inverse, Dense.entry_build _ hr hc]
  congr 1
  rw [List.getD_eq_getElem?_getD, List.getElem?_map, List.getElem?_range hc, Option.map_some, Option.getD_some]

/-- `f.Inverts a`: the factorization solves every system with the square matrix `a`, without leaving the
    factors or dividing by zero, and its inverse is one on both sides. -/
structure Inverts (f : Lu R) (a : Dense R) : Prop where
  n : f.n = a.m
  size : f.factors.size = (a.m, a.m)
  length : f.pivots.length = a.m
  inside : ∀ p ∈ f.pivots, p < a.m
  divisor : ∀ k, k < a.m → f.factors.entry k k ≠ 0
  solve : ∀ b, b.size = a.m → ∃ x, f.solve b = .ok x ∧ x.size = a.m ∧
    ∀ i, i < a.m → rowSum a.n a.entry (Vec.entry x) i = Vec.entry b i
  product_inverse : a.product f.inverse = Dense.identity a.m
  inverse_product : f.inverse.product a = Dense.identity a.m

variable {f : Lu R}

theorem matrix_mul_inverse (h : Factored a a.m f.pivots f.factors) (hn : f.n = a.m) (hsquare : a.m = a.n) :
    a.matrix a.m * f.inverse.matrix a.m = 1 := by
  have hsize : a.size = (a.m, a.m) := Prod.ext rfl hsquare.symm
  have hinverse : f.inverse.size = (a.m, a.m) := hn ▸ f.size_inverse
  rw [← Dense.matrix_product hsize hinverse]
  ext i j
  calc (a.product f.inverse).entry i j
      = rowSum a.n a.entry (Vec.entry (f.substitute (Vec.build f.n fun t => if t = j then 1 else 0))) i := by
        rw [Dense.entry_product i.isLt (show (j : Nat) < f.n by omega)]
        refine Finset.sum_congr rfl fun t ht => ?_
        have ht := Finset.mem_range.1 ht
        rw [entry_inverse f (by omega) (by omega)]
    _ = if (i : Nat) = j then 1 else 0 := by
        rw [h.rowSum_substitute hn hsquare (by rw [Vec.size_build, hn]) i.isLt, Vec.entry_build _ (by omega)]
    _ = (1 : Matrix (Fin a.m) (Fin a.m) R) i j := by
        rw [Matrix.one_apply]
        simp only [Fin.ext_iff]

theorem inverts_of_factor (hsquare : a.m = a.n) (heps : 0 ≤ eps) (h : factor a eps = .ok f) : f.Inverts a := by
  obtain ⟨hf, hn⟩ := (factored_start hsquare).of_go (by omega) heps h
  have hsize : a.size = (a.m, a.m) := Prod.ext rfl hsquare.symm
  have hinverse : f.inverse.size = (a.m, a.m) := hn ▸ f.size_inverse
  have hproduct : (a.product f.inverse).size = (a.m, a.m) := Prod.ext rfl hn
  have hproduct' : (f.inverse.product a).size = (a.m, a.m) := Prod.ext hn hsquare.symm
  have hidentity : (Dense.identity a.m : Dense R).size = (a.m, a.m) := rfl
  have hmul := matrix_mul_inverse hf hn hsquare
  refine ⟨hn, hf.size, hf.length, hf.inside, hf.pivot, fun b hb => ?_, ?_, ?_⟩
  · refine ⟨f.substitute b, ?_, (size_substitute f b).trans hb, fun i hi =>
      hf.rowSum_substitute hn hsquare hb hi⟩
    rw [Lu.solve, bind_eq_ok]
    exact ⟨(), promise_eq_ok.2 (beq_iff_eq.2 (hb.trans hn.symm)), rfl⟩
  · refine Dense.eq_of_matrix_eq hproduct hidentity ?_
    rw [Dense.matrix_product hsize hinverse, hmul, Dense.matrix_identity]
  · refine Dense.eq_of_matrix_eq hproduct' hidentity ?_
    rw [Dense.matrix_product hinverse hsize, mul_eq_one_comm.1 hmul, Dense.matrix_identity]

theorem det_ne_zero_of_factor (hsquare : a.m = a.n) (heps : 0 ≤ eps) (h : factor a eps = .ok f) :
    (a.matrix a.m).det ≠ 0 := by
  obtain ⟨hf, hn⟩ := (factored_start hsquare).of_go (by omega) heps h
  exact Matrix.det_ne_zero_of_right_inverse (matrix_mul_inverse hf hn hsquare)

/-- A column of zeros from the pivot on makes the matrix singular. -/
theorem Factored.det_eq_zero {k : Nat} {pivots : List Nat} (h : Factored a k pivots m) (hsquare : a.m = a.n)
    (hk : k < a.m) (hzero : ∀ i, k ≤ i → i < a.m → m.entry i k = 0) : (a.matrix a.m).det = 0 := by
  obtain ⟨x, hx, hkernel⟩ := h.exists_kernel hsquare hk hzero
  refine Matrix.exists_mulVec_eq_zero_iff.1 ⟨fun j => Vec.entry x j, fun h0 => hx ?_, ?_⟩
  · exact congrFun h0 ⟨k, hk⟩
  · ext i
    have hrow := hkernel i i.isLt
    rw [← hsquare] at hrow
    exact (a.matrix_mulVec a.m (Vec.entry x) i).trans hrow

/-- Where a factorization stops with the bound at zero, the matrix is singular. -/
theorem det_eq_zero_of_stuck {s : Stuck R} (hsquare : a.m = a.n) (h : factor a 0 = .error s) :
    (a.matrix a.m).det = 0 := by
  obtain ⟨hk, ⟨pivots, hf⟩, hall⟩ := (factored_start hsquare).of_stuck (by omega) le_rfl h
  refine hf.det_eq_zero hsquare hk fun i hki hi => ?_
  have habs := hall i hki hi
  rwa [scalarAbs_eq, abs_nonpos_iff] at habs

/-- A factorization with its pivots above a bound of at least zero solves every system and inverts the
    matrix; with the bound at zero, just the singular matrices have none. -/
theorem factor_correct (a : Dense R) (hsquare : a.m = a.n) :
    (∀ (eps : R) (f : Lu R), 0 ≤ eps → factor a eps = .ok f → f.Inverts a) ∧
      ((∃ s, factor a 0 = .error s) ↔ (a.matrix a.m).det = 0) := by
  refine ⟨fun eps f heps h => inverts_of_factor hsquare heps h, fun ⟨s, h⟩ => det_eq_zero_of_stuck hsquare h,
    fun hdet => ?_⟩
  cases h : factor a 0 with
  | error s => exact ⟨s, rfl⟩
  | ok f => exact absurd hdet (det_ne_zero_of_factor hsquare le_rfl h)

/-- A matrix with a zero in the corner. -/
def cornered : Dense ℚ := ⟨2, 2, #[0, 2, 2, 3], rfl⟩

theorem factor_correct_cornered : ∃ f : Lu ℚ, factor cornered 0 = .ok f ∧ f.pivots = [1, 1] ∧
    f.substitute #[2, 5] = #[1, 1] ∧ f.Inverts cornered := by
  have hpivots : (factor cornered 0).toOption.map (·.pivots) = some [1, 1] := by decide +kernel
  have hsolution : (factor cornered 0).toOption.map (·.substitute #[2, 5]) = some #[1, 1] := by decide +kernel
  cases h : factor cornered 0 with
  | error s =>
    rw [h] at hpivots
    cases hpivots
  | ok f =>
    rw [h] at hpivots hsolution
    exact ⟨f, rfl, Option.some.inj hpivots, Option.some.inj hsolution,
      (factor_correct cornered rfl).1 0 f le_rfl h⟩

end Lu

end BlockAdmm
