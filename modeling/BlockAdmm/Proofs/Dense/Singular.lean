/-
  The singular value map is right.

  The one-sided method turns columns, and so turns the matrix of their inner products (`gram_mul_turn`), of
  which it never keeps more than the three entries that it looks at.  What the two-sided method keeps of its
  matrix is kept of this one: the columns are those of the given matrix in an orthonormal basis, and the
  products of different columns lose at least `2 * eps⁴` with each turn (`Rotated.visit`).  So the sweeps
  settle, and then all columns are nearly orthogonal (`exists_rotated`).

  The result is put together from the columns that are longer than `eps`.  An orthonormal basis keeps sums of
  squares, so what the others amount to is at most `eps²` for each of them (`squares_kept_sub_le`).
-/
import BlockAdmm.Proofs.Dense.Eigen

namespace BlockAdmm.Singular

open Scalar ExactScalar Matrix

/-! ## Inner products of columns -/

section Gram

variable {R : Type} [ExactScalar R] {m n : Nat}

/-- `gram x`: the inner products of the columns. -/
def gram (x : Matrix (Fin m) (Fin n) R) : Matrix (Fin n) (Fin n) R := xᵀ * x

theorem gram_apply (x : Matrix (Fin m) (Fin n) R) (i j : Fin n) : gram x i j = x.col i ⬝ᵥ x.col j := rfl

theorem isSymm_gram (x : Matrix (Fin m) (Fin n) R) : (gram x).IsSymm := by
  rw [Matrix.IsSymm, gram, Matrix.transpose_mul, Matrix.transpose_transpose]

/-- A turn of the columns turns their inner products. -/
theorem gram_mul_turn (x : Matrix (Fin m) (Fin n) R) (p q : Fin n) (g : Eigen.Angle R) :
    gram (x * turn p q g) = turned p q g (gram x) := by
  rw [gram, gram, turned, Matrix.transpose_mul]
  simp only [Matrix.mul_assoc]

theorem columnProduct_eq {x : Dense R} (hm : x.m = m) (i j : Fin n) :
    columnProduct x i j = gram (x.table m n) i j := by
  rw [columnProduct, sumBelow_eq_sum, hm, Finset.sum_range]
  rfl

theorem pairProducts_eq {x : Dense R} (hsize : x.size = (m, n)) :
    pairProducts x = offMass (gram (x.table m n)) := by
  have hm : x.m = m := congrArg Prod.fst hsize
  have hn : x.n = n := congrArg Prod.snd hsize
  rw [pairProducts, sumBelow_eq_sum, hn, Finset.sum_range, offMass]
  refine Finset.sum_congr rfl fun i _ => ?_
  rw [sumBelow_eq_sum, Finset.sum_range]
  refine Finset.sum_congr rfl fun j _ => ?_
  rw [columnProduct_eq hm, ← pow_two]
  simp only [Fin.val_inj]

end Gram

section Rotated

variable {R : Type} [ExactRoots R] {m n : Nat} {a : Matrix (Fin m) (Fin n) R} {eps : R} {st : State R}

/-! ## One visit -/

/-- The angle makes the columns orthogonal that it is taken from. -/
theorem annuls_angle {x y d : R} (hd : d ≠ 0) : (angle x y d).Annuls x y d := by
  by_cases h : 0 < (y - x) / ((1 + 1) * d)
  · refine annuls_of_root (root_of_sign hd rfl (one_pow 2) ?_ ?_)
    · rw [one_mul, abs_of_pos h]
    · rw [if_pos h, abs_of_pos h]
  · have hneg := not_lt.1 h
    refine annuls_of_root (root_of_sign hd rfl neg_one_sq ?_ ?_)
    · rw [neg_one_mul, abs_of_nonpos hneg]
    · rw [if_neg h, abs_of_nonpos hneg]

/-- What a visit turns. -/
theorem skewed_iff {x y d : R} : skewed eps x y d = true ↔ eps ^ 2 * x * y < d ^ 2 ∧ eps ^ 2 < |d| := by
  rw [skewed, Bool.and_eq_true, decide_eq_true_iff, decide_eq_true_iff, Lu.scalarAbs_eq, pow_two, pow_two]

theorem visit_eq (eps : R) (st : State R) (i j : Nat) : visit eps st (i, j)
    = if skewed eps (columnProduct st.a i i) (columnProduct st.a j j) (columnProduct st.a i j) then
        let g := angle (columnProduct st.a i i) (columnProduct st.a j j) (columnProduct st.a i j)
        ⟨Eigen.turnColumns st.a i j g, Eigen.turnColumns st.v i j g, st.turns + 1⟩
      else st := rfl

theorem counts_visit (eps : R) : Counts State.turns (visit eps) := by
  rintro st ⟨i, j⟩
  rw [visit_eq]
  split_ifs
  · exact Or.inr rfl
  · exact Or.inl rfl

/-- A visit that changes nothing is one to columns that are nearly orthogonal. -/
theorem not_skewed_of_visit {i j : Nat} (h : visit eps st (i, j) = st) :
    ¬ skewed eps (columnProduct st.a i i) (columnProduct st.a j j) (columnProduct st.a i j) = true := by
  intro hskewed
  rw [visit_eq, if_pos hskewed] at h
  exact absurd (congrArg State.turns h) (Nat.succ_ne_self _)

/-! ## What the rotations keep -/

/-- `Rotated m n a eps st`: the columns of the state are those of `a` in the orthonormal basis of its other
    matrix, and every turn has taken `2 * eps⁴` from the products of different columns. -/
structure Rotated (m n : Nat) (a : Matrix (Fin m) (Fin n) R) (eps : R) (st : State R) : Prop where
  size_a : st.a.size = (m, n)
  size_v : st.v.size = (n, n)
  orthogonal : st.v.matrix n * (st.v.matrix n)ᵀ = 1
  columns : st.a.table m n = a * st.v.matrix n
  mass : offMass (gram (st.a.table m n)) + st.turns * (2 * eps ^ 4) ≤ offMass (gram a)

namespace Rotated

theorem start {x : Dense R} (hsize : x.size = (m, n)) (eps : R) :
    Rotated m n (x.table m n) eps ⟨x, Dense.identity x.n, 0⟩ := by
  have hn : x.n = n := congrArg Prod.snd hsize
  rw [hn]
  refine ⟨hsize, rfl, ?_, ?_, ?_⟩
  · rw [Dense.matrix_identity, Matrix.transpose_one, Matrix.one_mul]
  · rw [Dense.matrix_identity, Matrix.mul_one]
  · rw [Nat.cast_zero, zero_mul, add_zero]

/-- A visit keeps the invariant. -/
theorem visit (h : Rotated m n a eps st) {p q : Nat} (hpq : p < q) (hq : q < n) :
    Rotated m n a eps (Singular.visit eps st (p, q)) := by
  -- the two columns as indices of the matrices
  obtain ⟨i, rfl⟩ : ∃ i : Fin n, i.val = p := ⟨⟨p, by omega⟩, rfl⟩
  obtain ⟨j, rfl⟩ : ∃ j : Fin n, j.val = q := ⟨⟨q, hq⟩, rfl⟩
  have hij : i ≠ j := Fin.ne_of_lt hpq
  have hm : st.a.m = m := congrArg Prod.fst h.size_a
  rw [visit_eq, columnProduct_eq hm, columnProduct_eq hm, columnProduct_eq hm]
  split_ifs with hskewed
  · obtain ⟨-, hlarge⟩ := skewed_iff.1 hskewed
    have hd : gram (st.a.table m n) i j ≠ 0 := abs_pos.1 ((sq_nonneg eps).trans_lt hlarge)
    have hsq : eps ^ 4 < gram (st.a.table m n) i j ^ 2 := by
      rw [← sq_abs, show eps ^ 4 = (eps ^ 2) ^ 2 by ring]
      exact pow_lt_pow_left₀ hlarge (sq_nonneg eps) two_ne_zero
    have hg := annuls_angle (x := gram (st.a.table m n) i i) (y := gram (st.a.table m n) j j) hd
    generalize angle (gram (st.a.table m n) i i) (gram (st.a.table m n) j j) (gram (st.a.table m n) i j) = g at hg
    have ha : (Eigen.turnColumns st.a i j g).table m n = st.a.table m n * turn i j g :=
      table_turnColumns h.size_a hij
    have hv : (Eigen.turnColumns st.v i j g).matrix n = st.v.matrix n * turn i j g :=
      table_turnColumns h.size_v hij
    refine ⟨h.size_a, h.size_v, ?_, ?_, ?_⟩
    · rw [hv]
      exact mul_turn_orthogonal h.orthogonal hij hg.unit
    · rw [ha, hv, h.columns, Matrix.mul_assoc]
    · have hmass := h.mass
      rw [ha, gram_mul_turn, offMass_turned hij (isSymm_gram _) hg, Nat.cast_succ]
      linarith
  · exact h

theorem turns_le (h : Rotated m n a eps st) (heps : 0 < eps) :
    (st.turns : R) ≤ offMass (gram a) / (2 * eps ^ 4) := by
  rw [le_div_iff₀ (mul_pos two_pos (pow_pos heps 4))]
  exact (le_add_of_nonneg_left (offMass_nonneg _)).trans h.mass

end Rotated

end Rotated

/-! ## The whole run -/

section Run

variable {m n : Nat} {eps : ℝ}

/-- `NearlyOrthogonal eps w`: the inner product of any two columns is small beside their lengths, or in
    itself. -/
def NearlyOrthogonal (eps : ℝ) (w : Matrix (Fin m) (Fin n) ℝ) : Prop :=
  ∀ i j, i < j → (w.col i ⬝ᵥ w.col j) ^ 2 ≤ eps ^ 2 * (w.col i ⬝ᵥ w.col i) * (w.col j ⬝ᵥ w.col j) ∨
    |w.col i ⬝ᵥ w.col j| ≤ eps ^ 2

/-- The sweeps over the columns settle, with nothing left to turn away. -/
theorem exists_rotated {x : Dense ℝ} (hsize : x.size = (m, n)) (heps : 0 < eps) :
    ∃ st, Rotated m n (x.table m n) eps st ∧ NearlyOrthogonal eps (st.a.table m n) ∧
      ∀ rounds : Nat, offMass (gram (x.table m n)) / (2 * eps ^ 4) < rounds →
        sweeps eps rounds ⟨x, Dense.identity x.n, 0⟩ = .ok st := by
  have hpairs (st : State ℝ) (h : Rotated m n (x.table m n) eps st) : pairsBelow st.a.n = pairsBelow n :=
    congrArg (fun size : Size => pairsBelow size.2) h.size_a
  obtain ⟨st, hst, hidle, hrun⟩ := exists_settled_below (counts_visit eps) hpairs
    (fun st h ij hij => h.visit (mem_pairsBelow.1 hij).1 (mem_pairsBelow.1 hij).2)
    (fun st h => h.turns_le heps) (Rotated.start hsize eps) rfl
  refine ⟨st, hst, fun i j hij => ?_, fun rounds hrounds => ?_⟩
  · have hm : st.a.m = m := congrArg Prod.fst hst.size_a
    have hvisit := not_skewed_of_visit (hidle (i, j) (mem_pairsBelow.2 ⟨hij, j.isLt⟩))
    simp only [skewed_iff, columnProduct_eq hm, gram_apply, not_and_or, not_lt] at hvisit
    exact hvisit
  · rw [sweeps_eq_settle]
    exact hrun rounds hrounds

theorem decompose_eq_sweeps {x : Dense ℝ} (hsize : x.size = (m, n)) (eps : ℝ) :
    ∃ rounds : Nat, offMass (gram (x.table m n)) / (2 * eps ^ 4) < rounds ∧
      decompose x eps = sweeps eps rounds ⟨x, Dense.identity x.n, 0⟩ := by
  refine ⟨_, ?_, rfl⟩
  rw [pairProducts_eq hsize, one_add_one_eq_two, show eps * eps * (eps * eps) = eps ^ 4 by ring]
  exact lt_roundsFor _

end Run

/-! ## The result -/

section Recompose

variable {m n : Nat} {eps : ℝ}

/-- `columnLength w j`: the length of a column. -/
noncomputable def columnLength (w : Matrix (Fin m) (Fin n) ℝ) (j : Fin n) : ℝ := √(w.col j ⬝ᵥ w.col j)

/-- `recomposed f eps w v`: the sum of `(f σ / σ) * w_j * v_jᵀ` over the columns whose length `σ` is above
    `eps`. -/
noncomputable def recomposed (f : ℝ → ℝ) (eps : ℝ) (w : Matrix (Fin m) (Fin n) ℝ) (v : Matrix (Fin n) (Fin n) ℝ) :
    Matrix (Fin m) (Fin n) ℝ :=
  ∑ j, if eps < columnLength w j then
    (f (columnLength w j) / columnLength w j) • vecMulVec (w.col j) (v.col j) else 0

theorem columnLength_eq {x : Dense ℝ} (hm : x.m = m) (j : Fin n) :
    Vec.norm (x.column j) = columnLength (x.table m n) j := by
  rw [Vec.norm, columnLength, Vec.inner_eq_sum, Dense.column, Vec.size_build, hm, Finset.sum_range]
  refine congrArg Real.sqrt (Finset.sum_congr rfl fun i _ => ?_)
  rw [Vec.entry_build _ i.isLt]
  rfl

theorem table_recompose {f : ℝ → ℝ} {st : State ℝ} (hsize : st.a.size = (m, n)) :
    (recompose f eps st).table m n = recomposed f eps (st.a.table m n) (st.v.matrix n) := by
  have hm : st.a.m = m := congrArg Prod.fst hsize
  have hn : st.a.n = n := congrArg Prod.snd hsize
  ext r c
  rw [recomposed, Matrix.sum_apply, Dense.table_apply, recompose, Dense.entry_build _ (by omega) (by omega)]
  rw [foldl_values (fun ratio j => ratio * st.a.entry r j * st.v.entry c j) fun sum ratio j => ?_]
  · rw [hn, Finset.sum_range]
    refine Finset.sum_congr rfl fun j _ => ?_
    rw [columnLength_eq hm]
    dsimp only
    by_cases hlt : eps < columnLength (st.a.table m n) j
    · rw [if_neg hlt.not_ge, if_pos hlt]
      exact mul_assoc ..
    · rw [if_pos (not_lt.1 hlt), if_neg hlt]
      rfl
  · cases ratio with
    | none => exact (add_zero sum).symm
    | some ratio => rfl

/-- `kept eps w`: the columns whose length is above `eps`, and zeros. -/
noncomputable def kept (eps : ℝ) (w : Matrix (Fin m) (Fin n) ℝ) : Matrix (Fin m) (Fin n) ℝ :=
  Matrix.of fun i j => if eps < columnLength w j then w i j else 0

/-- What is put together again without a change of the lengths. -/
theorem recomposed_eq {f : ℝ → ℝ} (hf : ∀ x, f x = x) (heps : 0 < eps) (w : Matrix (Fin m) (Fin n) ℝ)
    (v : Matrix (Fin n) (Fin n) ℝ) : recomposed f eps w v = kept eps w * vᵀ := by
  ext r c
  rw [recomposed, Matrix.sum_apply, Matrix.mul_apply]
  refine Finset.sum_congr rfl fun j _ => ?_
  rw [kept, Matrix.of_apply]
  split_ifs with hlt
  · rw [hf, div_self (heps.trans hlt).ne', one_smul]
    rfl
  · exact (zero_mul _).symm

/-- Each column that is left out was no longer than `eps`. -/
theorem squares_kept_sub_le (eps : ℝ) (w : Matrix (Fin m) (Fin n) ℝ) :
    squares (kept eps w - w) ≤ n * eps ^ 2 := by
  have hcolumn (j : Fin n) : ∑ i, (kept eps w - w) i j ^ 2 ≤ eps ^ 2 := by
    by_cases hlt : eps < columnLength w j
    · rw [Finset.sum_eq_zero fun i _ => ?_]
      · exact sq_nonneg eps
      · rw [Matrix.sub_apply, kept, Matrix.of_apply, if_pos hlt, sub_self, zero_pow two_ne_zero]
    · calc ∑ i, (kept eps w - w) i j ^ 2
          = w.col j ⬝ᵥ w.col j := by
            refine Finset.sum_congr rfl fun i _ => ?_
            rw [Matrix.sub_apply, kept, Matrix.of_apply, if_neg hlt, zero_sub, neg_sq, pow_two]
            rfl
        _ = columnLength w j ^ 2 := (Real.sq_sqrt (Finset.sum_nonneg fun i _ => mul_self_nonneg _)).symm
        _ ≤ eps ^ 2 := pow_le_pow_left₀ (Real.sqrt_nonneg _) (not_lt.1 hlt) 2
  calc squares (kept eps w - w)
      = ∑ j, ∑ i, (kept eps w - w) i j ^ 2 := Finset.sum_comm
    _ ≤ ∑ _j : Fin n, eps ^ 2 := Finset.sum_le_sum fun j _ => hcolumn j
    _ = n * eps ^ 2 := by rw [Finset.sum_const, Finset.card_univ, Fintype.card_fin, nsmul_eq_mul]

/-- What is put together again is away from what there was by the columns that are left out. -/
theorem squares_recomposed_sub_le {f : ℝ → ℝ} (hf : ∀ x, f x = x) (heps : 0 < eps)
    {v : Matrix (Fin n) (Fin n) ℝ} (hv : vᵀ * v = 1) (x : Matrix (Fin m) (Fin n) ℝ) :
    squares (recomposed f eps (x * v) v - x) ≤ n * eps ^ 2 := by
  have hx : x = x * v * vᵀ := by rw [Matrix.mul_assoc, mul_eq_one_comm.1 hv, Matrix.mul_one]
  calc squares (recomposed f eps (x * v) v - x)
      = squares ((kept eps (x * v) - x * v) * vᵀ) := by
        rw [recomposed_eq hf heps, Matrix.sub_mul, ← hx]
    _ = squares (kept eps (x * v) - x * v) := squares_mul (by rw [Matrix.transpose_transpose, hv]) _
    _ ≤ n * eps ^ 2 := squares_kept_sub_le eps _

end Recompose

/-- The function of a matrix from its columns in an orthonormal basis in which they are nearly orthogonal. -/
theorem mapTall_recomposes (f : ℝ → ℝ) (a : Dense ℝ) {eps : ℝ} (heps : 0 < eps) :
    ∃ b, mapTall f a eps = .ok b ∧ b.size = a.size ∧ ∃ v : Matrix (Fin a.n) (Fin a.n) ℝ, vᵀ * v = 1 ∧
      NearlyOrthogonal eps (a.table a.m a.n * v) ∧
      b.table a.m a.n = recomposed f eps (a.table a.m a.n * v) v := by
  obtain ⟨st, hst, hnear, hrun⟩ := exists_rotated (x := a) rfl heps
  obtain ⟨rounds, hrounds, hdecompose⟩ := decompose_eq_sweeps (x := a) rfl eps
  refine ⟨recompose f eps st, ?_, hst.size_a, st.v.matrix a.n, mul_eq_one_comm.1 hst.orthogonal, ?_, ?_⟩
  · rw [mapTall, hdecompose, hrun rounds hrounds]
    rfl
  · rw [← hst.columns]
    exact hnear
  · rw [← hst.columns]
    exact table_recompose hst.size_a

/-- A matrix has its singular values replaced: in an orthonormal basis its columns are nearly orthogonal, and
    the result is the sum over those that are longer than `eps`, each with the image of its length; a matrix
    with more columns than rows goes through its transpose.  If every length stays, so does the matrix, up to
    the columns that are left out. -/
theorem singularValues_mapped (f : ℝ → ℝ) (a : Dense ℝ) {eps : ℝ} (heps : 0 < eps) :
    ∃ b, mapValues f a eps = .ok b ∧ b.size = a.size ∧
      (a.n ≤ a.m → ∃ v : Matrix (Fin a.n) (Fin a.n) ℝ, vᵀ * v = 1 ∧
        NearlyOrthogonal eps (a.table a.m a.n * v) ∧
        b.table a.m a.n = recomposed f eps (a.table a.m a.n * v) v) ∧
      (a.m < a.n → ∃ t, mapValues f a.transpose eps = .ok t ∧ b = t.transpose) ∧
      ((∀ x, f x = x) → √(squares (b.table a.m a.n - a.table a.m a.n)) ≤ √(min a.m a.n : ℕ) * eps) := by
  have hroot {k : Nat} {x : ℝ} (h : x ≤ k * eps ^ 2) : √x ≤ √k * eps := by
    refine (Real.sqrt_le_sqrt h).trans_eq ?_
    rw [Real.sqrt_mul (Nat.cast_nonneg k), Real.sqrt_sq heps.le]
  rcases Nat.lt_or_ge a.m a.n with hwide | htall
  · obtain ⟨t, ht, hsize, v, hv, hnear, htable⟩ := mapTall_recomposes f a.transpose heps
    have htm : t.m = a.n := congrArg Prod.fst hsize
    have htn : t.n = a.m := congrArg Prod.snd hsize
    refine ⟨t.transpose, ?_, Prod.ext htn htm, fun h => absurd hwide h.not_gt, fun _ => ⟨t, ?_, rfl⟩,
      fun hf => ?_⟩
    · rw [mapValues, if_pos hwide, ht]
      rfl
    · rw [mapValues, if_neg (show ¬ a.transpose.m < a.transpose.n from hwide.le.not_gt), ht]
    · rw [Nat.min_eq_left hwide.le]
      refine hroot ?_
      have hb : t.transpose.table a.m a.n = (t.table a.n a.m)ᵀ := Dense.table_transpose hsize
      have ha : a.transpose.table a.n a.m = (a.table a.m a.n)ᵀ := Dense.table_transpose rfl
      calc squares (t.transpose.table a.m a.n - a.table a.m a.n)
          = squares (t.table a.n a.m - a.transpose.table a.n a.m)ᵀ := by
            rw [hb, ha, Matrix.transpose_sub, Matrix.transpose_transpose]
        _ = squares (t.table a.n a.m - a.transpose.table a.n a.m) := squares_transpose _
        _ ≤ a.m * eps ^ 2 := by
            have hle := squares_recomposed_sub_le hf heps hv (a.transpose.table a.transpose.m a.transpose.n)
            rwa [← htable] at hle
  · obtain ⟨b, hb, hsize, v, hv, hnear, htable⟩ := mapTall_recomposes f a heps
    refine ⟨b, ?_, hsize, fun _ => ⟨v, hv, hnear, htable⟩, fun h => absurd h htall.not_gt, fun hf => ?_⟩
    · rw [mapValues, if_neg htall.not_gt, hb]
    · rw [Nat.min_eq_right htall, htable]
      exact hroot (squares_recomposed_sub_le hf heps hv _)

/-- With every length kept, a matrix comes back up to what its short columns amount to. -/
theorem singularValues_mapped_paired : ∃ b, mapValues (fun x => x) Eigen.paired (1 / 10) = .ok b ∧
    √(squares (b.table 2 2 - Eigen.paired.table 2 2)) ≤ √(2 : ℕ) * (1 / 10) := by
  obtain ⟨b, hb, -, -, -, hle⟩ :=
    singularValues_mapped (fun x => x) Eigen.paired (by norm_num : (0 : ℝ) < 1 / 10)
  exact ⟨b, hb, hle fun _ => rfl⟩

end BlockAdmm.Singular

/-! ## Both methods end -/

namespace BlockAdmm

open Matrix

/-- Both methods end: the two-sided one on every symmetric matrix after at most `∑ s_pq² / (2 * eps²)` turns,
    the one-sided one on every matrix after at most `∑ (a_i · a_j)² / (2 * eps⁴)`.  What they end in does not
    depend on the number of rounds that they are given, once it is above that. -/
theorem jacobi_settles {eps : ℝ} (heps : 0 < eps) :
    (∀ s : Dense ℝ, s.m = s.n → (s.matrix s.n).IsSymm →
      ∃ st, Eigen.decompose s eps = .ok st ∧ st.turns ≤ offMass (s.matrix s.n) / (2 * eps ^ 2) ∧
        ∀ rounds : Nat, offMass (s.matrix s.n) / (2 * eps ^ 2) < rounds →
          Eigen.sweeps (eps * eps) rounds ⟨s, Dense.identity s.n, 0⟩ = .ok st) ∧
    ∀ a : Dense ℝ,
      ∃ st, Singular.decompose a eps = .ok st ∧
        st.turns ≤ offMass (Singular.gram (a.table a.m a.n)) / (2 * eps ^ 4) ∧
        ∀ rounds : Nat, offMass (Singular.gram (a.table a.m a.n)) / (2 * eps ^ 4) < rounds →
          Singular.sweeps eps rounds ⟨a, Dense.identity a.n, 0⟩ = .ok st := by
  constructor
  · intro s hsquare hsymm
    have hsize : s.size = (s.n, s.n) := Prod.ext hsquare rfl
    obtain ⟨st, hst, -, hrun⟩ := Eigen.exists_rotated hsize hsymm heps
    obtain ⟨rounds, hrounds, hdecompose⟩ := Eigen.decompose_eq_sweeps hsize eps
    exact ⟨st, hdecompose.trans (hrun rounds hrounds), hst.turns_le heps, hrun⟩
  · intro a
    obtain ⟨st, hst, -, hrun⟩ := Singular.exists_rotated (x := a) rfl heps
    obtain ⟨rounds, hrounds, hdecompose⟩ := Singular.decompose_eq_sweeps (x := a) rfl eps
    exact ⟨st, hdecompose.trans (hrun rounds hrounds), hst.turns_le heps, hrun⟩

theorem jacobi_settles_paired : (∃ st, Eigen.decompose Eigen.paired 1 = .ok st ∧ st.turns ≤ 1) ∧
    ∃ st, Singular.decompose Eigen.paired 1 = .ok st ∧ st.turns ≤ 4 := by
  have hturns {k bound : ℕ} {x : ℝ} (hle : (k : ℝ) ≤ x) (hx : x = bound) : k ≤ bound :=
    Nat.cast_le.1 (hle.trans_eq hx)
  obtain ⟨heigen, hsingular⟩ := jacobi_settles (one_pos : (0 : ℝ) < 1)
  obtain ⟨st, hst, hle, -⟩ := heigen Eigen.paired rfl (by
    show (Eigen.paired.table 2 2)ᵀ = Eigen.paired.table 2 2
    rw [Eigen.table_paired]
    ext i j
    fin_cases i <;> fin_cases j <;> rfl)
  obtain ⟨st', hst', hle', -⟩ := hsingular Eigen.paired
  refine ⟨⟨st, hst, hturns hle ?_⟩, st', hst', hturns hle' ?_⟩
  · show offMass (Eigen.paired.table 2 2) / (2 * 1 ^ 2) = _
    rw [Eigen.table_paired]
    norm_num [offMass, Fin.sum_univ_two]
  · show offMass (Singular.gram (Eigen.paired.table 2 2)) / (2 * 1 ^ 4) = _
    rw [Eigen.table_paired]
    norm_num [offMass, Fin.sum_univ_two, Singular.gram, Matrix.mul_apply]

end BlockAdmm
