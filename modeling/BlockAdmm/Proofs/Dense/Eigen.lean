/-
  The eigenvalue map is right.

  While the symmetric matrix is turned from both sides, the product of the turns stays orthogonal and brings
  the matrix back; and what is off the diagonal loses at least `2 * eps²` with each turn.  `Rotated` is this
  invariant: a turn keeps it (`Rotated.visit`), so it holds when the sweeps settle, which the last of its
  fields makes them do (`exists_rotated`).  By then no entry off the diagonal is left to turn away, so the
  diagonal stands for the eigenvalues, and the result is put together from the columns of the product
  (`eigenvalues_mapped`).
-/
import BlockAdmm.Proofs.Dense.Settling
import BlockAdmm.Proofs.Dense.Turn

namespace BlockAdmm.Eigen

open Scalar ExactScalar Matrix

section Rotated

variable {R : Type} [ExactRoots R] {n : Nat} {a : Matrix (Fin n) (Fin n) R} {eps : R} {st : State R}

/-! ## One visit -/

theorem scalarSignum_eq (x : R) : Scalar.signum x = if 0 ≤ x then 1 else -1 := ExactScalar.signum_eq x

theorem signum_sq (x : R) : Scalar.signum x ^ 2 = 1 := by
  rw [scalarSignum_eq]
  split_ifs <;> ring

theorem signum_mul_self (x : R) : Scalar.signum x * x = |x| := by
  rw [scalarSignum_eq]
  split_ifs with h
  · rw [one_mul, abs_of_nonneg h]
  · rw [neg_one_mul, abs_of_neg (not_le.1 h)]

/-- The angle makes the entry zero that it is taken from. -/
theorem annuls_angle {x y d : R} (hd : d ≠ 0) : (angle x y d).Annuls x y d := by
  refine annuls_of_root (root_of_sign hd rfl (signum_sq _) (signum_mul_self _) ?_)
  rw [Lu.scalarAbs_eq]

/-- What a visit passes over. -/
theorem negligible_iff {x y d : R} : negligible (eps * eps) x y d = true ↔ d ^ 2 ≤ eps ^ 2 * max 1 |x * y| := by
  rw [negligible, Bool.or_eq_true, decide_eq_true_iff, decide_eq_true_iff, Lu.scalarAbs_eq,
    mul_max_of_nonneg _ _ (sq_nonneg eps), le_max_iff, mul_one, pow_two, pow_two, or_comm]

theorem visit_eq (tol : R) (st : State R) (p q : Nat) : visit tol st (p, q)
    = if negligible tol (st.s.entry p p) (st.s.entry q q) (st.s.entry p q) then st
      else ⟨turnBoth st.s p q (angle (st.s.entry p p) (st.s.entry q q) (st.s.entry p q)),
        turnColumns st.z p q (angle (st.s.entry p p) (st.s.entry q q) (st.s.entry p q)), st.turns + 1⟩ := rfl

theorem counts_visit (tol : R) : Counts State.turns (visit tol) := by
  rintro st ⟨p, q⟩
  rw [visit_eq]
  split_ifs
  · exact Or.inl rfl
  · exact Or.inr rfl

/-- A visit that changes nothing is one to a small entry. -/
theorem negligible_of_visit {tol : R} {p q : Nat} (h : visit tol st (p, q) = st) :
    negligible tol (st.s.entry p p) (st.s.entry q q) (st.s.entry p q) = true := by
  by_contra hneg
  rw [visit_eq, if_neg hneg] at h
  exact absurd (congrArg State.turns h) (Nat.succ_ne_self _)

/-! ## What the rotations keep -/

/-- `Rotated n a eps st`: the symmetric matrix of the state is `a` in the orthonormal basis of its other
    matrix, and every turn has taken `2 * eps²` from what was off the diagonal. -/
structure Rotated (n : Nat) (a : Matrix (Fin n) (Fin n) R) (eps : R) (st : State R) : Prop where
  size_s : st.s.size = (n, n)
  size_z : st.z.size = (n, n)
  symm : (st.s.matrix n).IsSymm
  orthogonal : st.z.matrix n * (st.z.matrix n)ᵀ = 1
  similar : st.z.matrix n * st.s.matrix n * (st.z.matrix n)ᵀ = a
  mass : offMass (st.s.matrix n) + st.turns * (2 * eps ^ 2) ≤ offMass a

namespace Rotated

theorem start {s : Dense R} (hsize : s.size = (n, n)) (hs : (s.matrix n).IsSymm) (eps : R) :
    Rotated n (s.matrix n) eps ⟨s, Dense.identity s.n, 0⟩ := by
  have hn : s.n = n := congrArg Prod.snd hsize
  rw [hn]
  refine ⟨hsize, rfl, hs, ?_, ?_, ?_⟩
  · rw [Dense.matrix_identity, Matrix.transpose_one, Matrix.one_mul]
  · rw [Dense.matrix_identity, Matrix.transpose_one, Matrix.one_mul, Matrix.mul_one]
  · rw [Nat.cast_zero, zero_mul, add_zero]

/-- A visit keeps the invariant. -/
theorem visit (h : Rotated n a eps st) {p q : Nat} (hpq : p < q) (hq : q < n) :
    Rotated n a eps (Eigen.visit (eps * eps) st (p, q)) := by
  rw [visit_eq]
  split_ifs with hneg
  · exact h
  have hlarge : eps ^ 2 * max 1 |st.s.entry p p * st.s.entry q q| < st.s.entry p q ^ 2 :=
    lt_of_not_ge fun hle => hneg (negligible_iff.2 hle)
  have hsq : eps ^ 2 < st.s.entry p q ^ 2 :=
    (le_mul_of_one_le_right (sq_nonneg eps) (le_max_left _ _)).trans_lt hlarge
  have hd : st.s.entry p q ≠ 0 := by
    intro h0
    rw [h0, zero_pow two_ne_zero] at hsq
    exact absurd hsq (sq_nonneg eps).not_gt
  have hg := annuls_angle (x := st.s.entry p p) (y := st.s.entry q q) hd
  generalize angle (st.s.entry p p) (st.s.entry q q) (st.s.entry p q) = g at hg
  -- the two coordinates as indices of the matrices
  obtain ⟨i, rfl⟩ : ∃ i : Fin n, i.val = p := ⟨⟨p, by omega⟩, rfl⟩
  obtain ⟨j, rfl⟩ : ∃ j : Fin n, j.val = q := ⟨⟨q, hq⟩, rfl⟩
  have hij : i ≠ j := Fin.ne_of_lt hpq
  have hs := matrix_turnBoth h.size_s h.symm hij hg
  have hz : (turnColumns st.z i j g).matrix n = st.z.matrix n * turn i j g := table_turnColumns h.size_z hij
  have hturn := turn_mul_transpose hij hg.unit
  refine ⟨h.size_s, h.size_z, ?_, ?_, ?_, ?_⟩
  · exact hs ▸ isSymm_turned h.symm i j g
  · rw [hz]
    exact mul_turn_orthogonal h.orthogonal hij hg.unit
  · calc (turnColumns st.z i j g).matrix n * (turnBoth st.s i j g).matrix n * ((turnColumns st.z i j g).matrix n)ᵀ
        = st.z.matrix n * (turn i j g * (turn i j g)ᵀ) * st.s.matrix n * (turn i j g * (turn i j g)ᵀ)
            * (st.z.matrix n)ᵀ := by
          rw [hz, hs, turned, Matrix.transpose_mul]
          simp only [Matrix.mul_assoc]
      _ = a := by rw [hturn, Matrix.mul_one, Matrix.mul_one, h.similar]
  · have hmass := h.mass
    have htaken := offMass_turned hij h.symm hg
    rw [← hs] at htaken
    have hentry : st.s.matrix n i j = st.s.entry i j := rfl
    rw [hentry] at htaken
    rw [htaken, Nat.cast_succ]
    linarith

theorem turns_le (h : Rotated n a eps st) (heps : 0 < eps) : (st.turns : R) ≤ offMass a / (2 * eps ^ 2) := by
  rw [le_div_iff₀ (mul_pos two_pos (pow_pos heps 2))]
  exact (le_add_of_nonneg_left (offMass_nonneg _)).trans h.mass

end Rotated

theorem offSquares_eq {s : Dense R} (hsize : s.size = (n, n)) : offSquares s = offMass (s.matrix n) := by
  have hm : s.m = n := congrArg Prod.fst hsize
  have hn : s.n = n := congrArg Prod.snd hsize
  simp only [offSquares, sumBelow_eq_sum, hm, hn, Finset.sum_range, Fin.val_inj, ← pow_two]
  exact Finset.sum_comm

end Rotated

/-! ## The whole run -/

variable {n : Nat} {a : Dense ℝ} {eps : ℝ}

/-- The sweeps over a symmetric matrix settle, with nothing left to turn away. -/
theorem exists_rotated {s : Dense ℝ} (hsize : s.size = (n, n)) (hs : (s.matrix n).IsSymm) (heps : 0 < eps) :
    ∃ st, Rotated n (s.matrix n) eps st ∧
      (∀ p q : Fin n, p < q → st.s.matrix n p q ^ 2
        ≤ eps ^ 2 * max 1 |st.s.matrix n p p * st.s.matrix n q q|) ∧
      ∀ rounds : Nat, offMass (s.matrix n) / (2 * eps ^ 2) < rounds →
        sweeps (eps * eps) rounds ⟨s, Dense.identity s.n, 0⟩ = .ok st := by
  have hpairs (st : State ℝ) (h : Rotated n (s.matrix n) eps st) : pairsBelow st.s.n = pairsBelow n :=
    congrArg (fun size : Size => pairsBelow size.2) h.size_s
  obtain ⟨st, hst, hidle, hrun⟩ := exists_settled_below (counts_visit (eps * eps)) hpairs
    (fun st h pq hpq => h.visit (mem_pairsBelow.1 hpq).1 (mem_pairsBelow.1 hpq).2)
    (fun st h => h.turns_le heps) (Rotated.start hsize hs eps) rfl
  refine ⟨st, hst, fun p q hpq => ?_, fun rounds hrounds => ?_⟩
  · exact negligible_iff.1 (negligible_of_visit (hidle (p, q) (mem_pairsBelow.2 ⟨hpq, q.isLt⟩)))
  · rw [sweeps_eq_settle]
    exact hrun rounds hrounds

theorem decompose_eq_sweeps {s : Dense ℝ} (hsize : s.size = (n, n)) (eps : ℝ) :
    ∃ rounds : Nat, offMass (s.matrix n) / (2 * eps ^ 2) < rounds ∧
      decompose s eps = sweeps (eps * eps) rounds ⟨s, Dense.identity s.n, 0⟩ := by
  refine ⟨_, ?_, rfl⟩
  rw [offSquares_eq hsize, one_add_one_eq_two, ← pow_two]
  exact lt_roundsFor _

/-! ## The result -/

theorem matrix_symmetricPart (hsquare : a.m = a.n) :
    (symmetricPart a).matrix a.n = (1 / 2 : ℝ) • (a.matrix a.n + (a.matrix a.n)ᵀ) := by
  ext i j
  show (symmetricPart a).entry i j = 1 / 2 * (a.entry i j + a.entry j i)
  rw [symmetricPart, Dense.entry_build _ (by omega) (by omega)]
  split_ifs with hij hji
  · ring
  · ring
  · rw [show (j : Nat) = i by omega]
    ring

theorem matrix_recompose {z : Dense ℝ} (hn : z.n = n) (value : Nat → Option ℝ) :
    (recompose z ((List.range n).map value)).matrix n
      = ∑ i : Fin n, (value i).elim 0 fun e => e • vecMulVec ((z.matrix n).col i) ((z.matrix n).col i) := by
  ext r c
  rw [Matrix.sum_apply]
  show (recompose z _).entry r c = _
  rw [recompose, Dense.entry_build _ (by omega) (by omega)]
  rw [foldl_values (fun e i => e * z.entry r i * z.entry c i) fun sum v i => ?_]
  · rw [Finset.sum_range]
    refine Finset.sum_congr rfl fun i _ => ?_
    cases value i with
    | none => rfl
    | some e => exact mul_assoc ..
  · cases v with
    | none => exact (add_zero sum).symm
    | some e => rfl

theorem symm_symmetricPart (hsquare : a.m = a.n) : ((symmetricPart a).matrix a.n).IsSymm := by
  rw [matrix_symmetricPart hsquare, Matrix.IsSymm, Matrix.transpose_smul, Matrix.transpose_add,
    Matrix.transpose_transpose, add_comm]

/-- The values are replaced on the diagonal in which the sweeps over the symmetric part settle. -/
theorem exists_mapValues_eq (f : ℝ → Option ℝ) (hsquare : a.m = a.n) (heps : 0 < eps) :
    ∃ st, Rotated a.n ((symmetricPart a).matrix a.n) eps st ∧
      (∀ p q : Fin a.n, p < q → st.s.matrix a.n p q ^ 2
        ≤ eps ^ 2 * max 1 |st.s.matrix a.n p p * st.s.matrix a.n q q|) ∧
      mapValues f a eps = .ok (recompose st.z ((List.range a.n).map fun i => f (st.s.entry i i))) := by
  have hsize : (symmetricPart a).size = (a.n, a.n) := Prod.ext hsquare rfl
  obtain ⟨st, hst, hsmall, hrun⟩ := exists_rotated hsize (symm_symmetricPart hsquare) heps
  obtain ⟨rounds, hrounds, hdecompose⟩ := decompose_eq_sweeps hsize eps
  refine ⟨st, hst, hsmall, ?_⟩
  rw [mapValues, show (a.m == a.n) = true from beq_iff_eq.2 hsquare, hdecompose, hrun rounds hrounds]
  rfl

/-- A square matrix has its eigenvalues replaced: in an orthonormal basis its symmetric part is diagonal up to
    entries that are negligible, and the result is the sum of the images of the diagonal over the basis,
    without those that have none. -/
theorem eigenvalues_mapped (f : ℝ → Option ℝ) (hsquare : a.m = a.n) (heps : 0 < eps) :
    ∃ (b : Dense ℝ) (z s : Matrix (Fin a.n) (Fin a.n) ℝ), mapValues f a eps = .ok b ∧ b.size = (a.n, a.n) ∧
      zᵀ * z = 1 ∧ s.IsSymm ∧ z * s * zᵀ = (1 / 2 : ℝ) • (a.matrix a.n + (a.matrix a.n)ᵀ) ∧
      (∀ p q, p ≠ q → s p q ^ 2 ≤ eps ^ 2 * max 1 |s p p * s q q|) ∧
      b.matrix a.n = ∑ i, (f (s i i)).elim 0 (fun e => e • vecMulVec (z.col i) (z.col i)) ∧
      (b.matrix a.n).IsSymm := by
  obtain ⟨st, hst, hsmall, hmap⟩ := exists_mapValues_eq f hsquare heps
  have hn : st.z.n = a.n := congrArg Prod.snd hst.size_z
  have hresult := matrix_recompose hn fun i => f (st.s.entry i i)
  refine ⟨recompose st.z ((List.range a.n).map fun i => f (st.s.entry i i)), st.z.matrix a.n, st.s.matrix a.n,
    hmap, Prod.ext hn hn, mul_eq_one_comm.1 hst.orthogonal, hst.symm, ?_, fun p q hpq => ?_, hresult, ?_⟩
  · rw [hst.similar, matrix_symmetricPart hsquare]
  · rcases lt_or_gt_of_ne hpq with hlt | hlt
    · exact hsmall p q hlt
    · rw [← hst.symm.apply p q, mul_comm (st.s.matrix a.n p p)]
      exact hsmall q p hlt
  · rw [hresult, Matrix.IsSymm, Matrix.transpose_sum]
    refine Finset.sum_congr rfl fun i _ => ?_
    cases f (st.s.entry i i) with
    | none => exact Matrix.transpose_zero
    | some e => rw [Option.elim_some, Matrix.transpose_smul, Matrix.transpose_vecMulVec]

/-- Two equal diagonal entries, where the angle is the largest one. -/
noncomputable def paired : Dense ℝ := ⟨2, 2, #[1, 1, 1, 1], rfl⟩

theorem table_paired : paired.table 2 2 = !![1, 1; 1, 1] := by
  ext i j
  fin_cases i <;> fin_cases j <;> rfl

/-- With every eigenvalue replaced by one, an orthonormal basis gives the identity. -/
theorem eigenvalues_mapped_paired :
    ∃ b : Dense ℝ, mapValues (fun _ => some 1) paired (1 / 10) = .ok b ∧ b.matrix 2 = 1 := by
  obtain ⟨b, z, s, hb, -, hz, -, -, -, hsum, -⟩ :=
    eigenvalues_mapped (a := paired) (fun _ => some 1) rfl (by norm_num : (0 : ℝ) < 1 / 10)
  refine ⟨b, hb, hsum.trans (Eq.trans ?_ (mul_eq_one_comm.1 hz))⟩
  ext r c
  simp only [Option.elim_some, one_smul, Matrix.sum_apply, Matrix.vecMulVec_apply, Matrix.col_apply,
    Matrix.mul_apply, Matrix.transpose_apply]

end BlockAdmm.Eigen
