/-
  The proximal operator of the logarithm of the determinant.

  The eigenvalues that an iteration finds are not quite those of the matrix, but the basis in which it finds
  them is orthonormal, whatever the matrix was.  So if every value is replaced by a positive one, the result
  is positive definite (`Eigen.exists_posDef_mapValues`).  The proximal points of the negative logarithm are
  positive, hence the operator always ends in the domain of the determinant's logarithm, from any point,
  symmetric or not (`negLogDet_posDef`).
-/
import Mathlib.LinearAlgebra.Matrix.PosDef
import BlockAdmm.Proofs.Dense.Eigen
import BlockAdmm.Proofs.Prox.Logarithm

namespace BlockAdmm

open Scalar ExactScalar Matrix

/-! ## Positive values -/

namespace Eigen

variable {n : Nat}

/-- A sum over the columns of a matrix as a product. -/
theorem sum_smul_vecMulVec (z : Matrix (Fin n) (Fin n) ℝ) (e : Fin n → ℝ) :
    ∑ i, e i • vecMulVec (z.col i) (z.col i) = z * diagonal e * star z := by
  ext r c
  rw [Matrix.sum_apply, Matrix.mul_apply]
  refine Finset.sum_congr rfl fun i _ => ?_
  rw [Matrix.smul_apply, Matrix.vecMulVec_apply, Matrix.mul_diagonal, Matrix.star_apply, star_trivial, smul_eq_mul,
    Matrix.col_apply, Matrix.col_apply]
  ring

/-- Positive values make a positive definite matrix. -/
theorem exists_posDef_mapValues {a : Dense ℝ} {f : ℝ → ℝ} {eps : ℝ} (hf : ∀ v, 0 < f v) (hsquare : a.m = a.n)
    (heps : 0 < eps) : ∃ b, mapValues (fun v => some (f v)) a eps = .ok b ∧ b.size = (a.n, a.n) ∧
      (b.matrix a.n).PosDef := by
  obtain ⟨st, hst, -, hmap⟩ := exists_mapValues_eq (fun v => some (f v)) hsquare heps
  have hn : st.z.n = a.n := congrArg Prod.snd hst.size_z
  refine ⟨_, hmap, Prod.ext hn hn, ?_⟩
  have hunit : IsUnit (st.z.matrix a.n) := IsUnit.of_mul_eq_one _ hst.orthogonal
  rw [matrix_recompose hn fun i => some (f (st.s.entry i i))]
  simp only [Option.elim_some]
  rw [sum_smul_vecMulVec, hunit.posDef_star_right_conjugate_iff, Matrix.posDef_diagonal_iff]
  exact fun i => hf _

end Eigen

/-! ## The operator -/

/-- `s.square n x`: the components as a matrix of `n` columns, column after column. -/
def Scaling.square {R : Type} [ExactScalar R] (s : Scaling R) (n : Nat) (x : Array R) :
    Matrix (Fin n) (Fin n) R :=
  Matrix.of fun r c => s.component x (c * n + r)

namespace SpectralOperator

variable {n : Nat} {y : Array ℝ} {t : ℝ}

theorem spectralBound_pos : (0 : ℝ) < SpectralFunction.spectralBound := by
  rw [SpectralFunction.spectralBound, ofScientific_eq_cast]
  norm_num

/-- The columns are put together as a positive definite matrix. -/
theorem exists_posDef_mapMatrix (ht : 0 < t) (m : Nat) (hy : y.size = n * n) :
    ∃ b : Dense ℝ, SpectralFunction.negLogDet.mapMatrix t m n y = .ok b.data ∧ b.size = (n, n) ∧
      (b.matrix n).PosDef := by
  obtain ⟨b, hb, hsize, hpos⟩ := Eigen.exists_posDef_mapValues (a := ⟨n, n, y, hy⟩)
    (f := fun v => negLogPoint v t 1) (negLogPoint_pos ht one_pos) rfl spectralBound_pos
  exact ⟨b, bind_eq_ok.2 ⟨⟨n, n, y, hy⟩, dif_pos hy, bind_eq_ok.2 ⟨b, hb, rfl⟩⟩, hsize, hpos⟩

/-- The operator of a square matrix with one factor. -/
theorem of_negLogDet_eq {input : TermInput ℝ} {a : Argument ℝ} {s : Scaling ℝ} {k : Nat} {b : ℝ}
    (hargs : input.args = [a]) (hm : a.m = n) (hn : a.n = n) (hs : input.scaling = .ok s)
    (huniform : s.Uniform k b) (hrho : 0 < input.rho) : SpectralOperator.of .negLogDet input
      = .ok ⟨.negLogDet, input.function.alpha, input.rho / (b * b), n, n, s⟩ := by
  have hpenalty : (input.rho == 0) = false := beq_eq_false_iff_ne.2 hrho.ne'
  have hsingle : input.single = .ok a := by rw [TermInput.single, hargs]
  refine bind_eq_ok.2 ⟨a, hsingle, bind_eq_ok.2 ⟨s, hs, ?_⟩⟩
  rw [huniform.uniform?, hm, hn]
  dsimp only
  rw [bne_self_eq_false, Bool.and_false, if_neg Bool.false_ne_true, hpenalty, Bool.false_and,
    if_neg Bool.false_ne_true]
  rfl

/-- The argument of the point that comes back is positive definite. -/
theorem exists_posDef_apply {s : Scaling ℝ} {b alpha rho : ℝ} {v : Array ℝ} (hs : s.Uniform (n * n) b)
    (halpha : 0 < alpha) (hrho : 0 < rho) (hv : v.size = n * n) :
    ∃ x, apply ⟨.negLogDet, alpha, rho / (b * b), n, n, s⟩ v = .ok x ∧ x.size = n * n ∧
      (s.square n x).PosDef := by
  have hrate : 0 < rho / (b * b) := div_pos hrho (mul_self_pos.2 hs.ne_zero)
  obtain ⟨c, hc, hsize, hpos⟩ := exists_posDef_mapMatrix (div_pos halpha hrate) n (hs.size_toArg hv)
  obtain ⟨hcm, hcn⟩ : c.m = n ∧ c.n = n := Prod.mk.inj hsize
  have hdata : c.data.size = n * n := by rw [c.size_data, hcm, hcn]
  have hfinite : c.data.any (fun e => !Scalar.isFinite e) = false := by
    rw [Bool.eq_false_iff, Ne, Vec.any_iff]
    rintro ⟨i, -, hi⟩
    cases hi
  refine ⟨s.fromArg c.data v, ?_, hs.size_fromArg hdata hv, ?_⟩
  · rw [apply, if_neg (by rw [beq_iff_eq]; exact hrate.ne')]
    refine bind_eq_ok.2 ⟨c.data, hc, ?_⟩
    rw [hfinite, if_neg Bool.false_ne_true]
    rfl
  · convert hpos using 1
    ext i j
    show s.component (s.fromArg c.data v) (j * n + i) = Vec.entry c.data (j * c.m + i)
    rw [hs.component_fromArg hdata hv (Dense.index_lt i.isLt j.isLt), hcm]

end SpectralOperator

open SpectralOperator in
/-- The operator of the negative logarithm of the determinant gives a point whose argument is symmetric and
    positive definite, from every point. -/
theorem negLogDet_posDef {input : TermInput ℝ} {a : Argument ℝ} {s : Scaling ℝ} {n : Nat} {b : ℝ}
    (hargs : input.args = [a]) (hm : a.m = n) (hn : a.n = n) (hs : input.scaling = .ok s)
    (huniform : s.Uniform (n * n) b) (halpha : 0 < input.function.alpha) (hrho : 0 < input.rho) :
    ∃ o : Operator ℝ, (Family.spectral .negLogDet).init input = .ok o ∧ ∀ v : Array ℝ, v.size = n * n →
      ∃ x, o.apply v = pure x ∧ x.size = n * n ∧ (s.square n x).IsSymm ∧ (s.square n x).PosDef := by
  refine ⟨.spectral ⟨.negLogDet, input.function.alpha, input.rho / (b * b), n, n, s⟩, ?_, fun v hv => ?_⟩
  · rw [Family.init, of_negLogDet_eq hargs hm hn hs huniform hrho]
    rfl
  · obtain ⟨x, hx, hsize, hpos⟩ := exists_posDef_apply huniform halpha hrho hv
    exact ⟨x, congrArg Logged.ofOutcome hx, hsize, hpos.isHermitian, hpos⟩

/-- From a matrix that is not symmetric, under a negative factor and with a constant part that is not symmetric
    either. -/
theorem negLogDet_posDef_lopsided :
    (⟨#[-1, -1, -1, -1], #[0, 1, 0, 0]⟩ : Scaling ℝ).Uniform (2 * 2) (-1) ∧ (0 : ℝ) < 2 ∧ (0 : ℝ) < 3 ∧
      (TermInput.ofScaling ⟨.negLogDet, 2, false⟩ ⟨#[-1, -1, -1, -1], #[0, 1, 0, 0]⟩ 2 2 3).scaling
        = .ok (⟨#[-1, -1, -1, -1], #[0, 1, 0, 0]⟩ : Scaling ℝ) ∧
      ∃ o : Operator ℝ, (Family.spectral .negLogDet).init
          (.ofScaling ⟨.negLogDet, 2, false⟩ ⟨#[-1, -1, -1, -1], #[0, 1, 0, 0]⟩ 2 2 3) = .ok o ∧
        ∃ x, o.apply #[5, 7, -2, 9] = pure x ∧
          ((⟨#[-1, -1, -1, -1], #[0, 1, 0, 0]⟩ : Scaling ℝ).square 2 x).PosDef := by
  have huniform : (⟨#[-1, -1, -1, -1], #[0, 1, 0, 0]⟩ : Scaling ℝ).Uniform (2 * 2) (-1) := by
    refine ⟨⟨rfl, rfl⟩, four_pos, neg_ne_zero.2 one_ne_zero, fun i hi => ?_⟩
    interval_cases i <;> rfl
  have hscaling := TermInput.scaling_ofScaling huniform.toSized ⟨.negLogDet, 2, false⟩ 3
  obtain ⟨o, ho, happly⟩ := negLogDet_posDef rfl rfl rfl hscaling huniform two_pos three_pos
  obtain ⟨x, hx, -, -, hpos⟩ := happly #[5, 7, -2, 9] rfl
  exact ⟨huniform, two_pos, three_pos, hscaling, o, ho, x, hx, hpos⟩

end BlockAdmm
