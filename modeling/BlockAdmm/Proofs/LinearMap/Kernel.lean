/-
  Vectors that a matrix takes to zero.

  A matrix of coefficients has a kernel if some vector other than zero is taken to zero (`HasKernel`).  With
  more columns than rows it always does, and a square matrix does just if its determinant is zero
  (`isSingular_iff`).  The kernel of a factor gives one of the Kronecker product, if the other factor has a
  column (`HasKernel.of_left`, `HasKernel.of_right`).
-/
import BlockAdmm.Proofs.LinearMap.Algebra

namespace BlockAdmm

open Scalar ExactScalar

variable {R : Type} [ExactScalar R] {m n p q r s : Nat} {k k' ka kb : Nat → Nat → R}

/-- `HasKernel m n k`: the matrix of `m` rows and `n` columns takes some vector other than zero to zero. -/
def HasKernel (m n : Nat) (k : Nat → Nat → R) : Prop :=
  ∃ x : Nat → R, (∃ j, j < n ∧ x j ≠ 0) ∧ ∀ i, i < m → rowSum n k x i = 0

theorem mulVec_eq_rowSum (k : Nat → Nat → R) (x : Nat → R) (i : Fin m) :
    (Matrix.of fun (i : Fin m) (j : Fin n) => k i j).mulVec (fun j => x j) i = rowSum n k x i := by
  rw [Matrix.mulVec, rowSum, Finset.sum_range]
  rfl

/-- A kernel by the indices below the bounds. -/
theorem hasKernel_iff :
    HasKernel m n k ↔ ∃ v ≠ 0, (Matrix.of fun (i : Fin m) (j : Fin n) => k i j).mulVec v = 0 := by
  constructor
  · rintro ⟨x, ⟨j, hj, hne⟩, hx⟩
    refine ⟨fun j => x j, fun h0 => hne (congrFun h0 ⟨j, hj⟩), funext fun i => ?_⟩
    rw [mulVec_eq_rowSum, hx i i.isLt]
    rfl
  · rintro ⟨v, hne, hv⟩
    let x (c : Nat) : R := if hc : c < n then v ⟨c, hc⟩ else 0
    have hx : (fun j : Fin n => x j) = v := funext fun j => dif_pos j.isLt
    obtain ⟨j, hj⟩ := Function.ne_iff.1 hne
    refine ⟨x, ⟨j, j.isLt, ?_⟩, fun i hi => ?_⟩
    · rwa [show x j = v j from congrFun hx j]
    · rw [← mulVec_eq_rowSum k x ⟨i, hi⟩, hx, hv]
      rfl

/-- More columns than rows take some vector to zero. -/
theorem hasKernel_of_lt (k : Nat → Nat → R) (h : m < n) : HasKernel m n k := by
  let f := (Matrix.of fun (i : Fin m) (j : Fin n) => k i j).mulVecLin
  have hker : f.ker ≠ ⊥ := by
    apply LinearMap.ker_ne_bot_of_finrank_lt
    simpa using h
  obtain ⟨v, hv, hne⟩ := Submodule.exists_mem_ne_zero_of_ne_bot hker
  exact hasKernel_iff.2 ⟨v, hne, LinearMap.mem_ker.1 hv⟩

/-! ## Singular matrices -/

/-- `IsSingular n k`: the determinant of the matrix of `n` rows and columns is zero. -/
def IsSingular (n : Nat) (k : Nat → Nat → R) : Prop := (Matrix.of fun i j : Fin n => k i j).det = 0

theorem isSingular_iff : IsSingular n k ↔ HasKernel n n k :=
  Matrix.exists_mulVec_eq_zero_iff.symm.trans hasKernel_iff.symm

theorem isSingular_congr (h : ∀ r c, r < n → c < n → k' r c = k r c) : IsSingular n k' ↔ IsSingular n k := by
  have hmatrix : (Matrix.of fun i j : Fin n => k' i j) = Matrix.of fun i j : Fin n => k i j :=
    Matrix.ext fun i j => h i j i.isLt j.isLt
  rw [IsSingular, IsSingular, hmatrix]

theorem isSingular_of_column {j : Nat} (hj : j < n) (h : ∀ r, r < n → k r j = 0) : IsSingular n k :=
  Matrix.det_eq_zero_of_column_eq_zero ⟨j, hj⟩ fun i => h i i.isLt

theorem isSingular_one_iff : IsSingular 1 k ↔ k 0 0 = 0 := by
  rw [IsSingular, Matrix.det_unique]
  rfl

/-! ## Kronecker products -/

section Kronecker

variable (hm : p * r = n) (hn : q * s = n)
  (hk : ∀ i c, i < n → c < n → k i c = ka (i / r) (c / s) * kb (i % r) (c % s))
include hn hk

/-- A product of vectors, of which one is taken to zero wherever the other is not. -/
theorem hasKernel_of_factors {x y : Nat → R} (hx : ∃ j, j < q ∧ x j ≠ 0) (hy : ∃ j, j < s ∧ y j ≠ 0)
    (hzero : ∀ i, i < n → rowSum q ka x (i / r) * rowSum s kb y (i % r) = 0) : HasKernel n n k := by
  obtain ⟨j, hj, hxj⟩ := hx
  obtain ⟨t, ht, hyt⟩ := hy
  refine ⟨fun c => x (c / s) * y (c % s), ⟨j * s + t, ?_, ?_⟩, fun i hi => ?_⟩
  · rw [← hn, Nat.mul_comm q s]
    exact Dense.index_lt ht hj
  · obtain ⟨hdiv, hmod⟩ := (mul_add_eq_iff (q := j) ht).1 rfl
    show x ((j * s + t) / s) * y ((j * s + t) % s) ≠ 0
    rw [← hdiv, ← hmod]
    exact mul_ne_zero hxj hyt
  · rw [← hzero i hi, ← LinearMap.rowSum_kronecker q s ka kb (fun t _ => x t) (fun t _ => y t) _ _ 0 0, rowSum,
      hn]
    exact Finset.sum_congr rfl fun c hc => by rw [hk i c hi (Finset.mem_range.1 hc)]

include hm

theorem HasKernel.of_left (h : HasKernel p q ka) (hs : 0 < s) : HasKernel n n k := by
  obtain ⟨x, hne, hx⟩ := h
  refine hasKernel_of_factors hn hk hne (y := fun _ => 1) ⟨0, hs, one_ne_zero⟩ fun i hi => ?_
  rw [hx _ (div_mod_lt (hm ▸ hi)).1, zero_mul]

theorem HasKernel.of_right (h : HasKernel r s kb) (hq : 0 < q) : HasKernel n n k := by
  obtain ⟨y, hne, hy⟩ := h
  refine hasKernel_of_factors hn hk (x := fun _ => 1) ⟨0, hq, one_ne_zero⟩ hne fun i hi => ?_
  rw [hy _ (div_mod_lt (hm ▸ hi)).2, mul_zero]

end Kronecker

end BlockAdmm
