/-
  Products with points, as linear maps.

  Over an exact reading the coefficients of a matrix send points to points (`sumCells`).  That map is
  linear, it looks at the cells of the columns only, and the transpose of the coefficients is its
  adjoint (`sum_sumCells_transpose_mul`), which is all that the steps of the blocks and the estimate of
  the norm need to know about it.
-/
import BlockAdmm.Proofs.Block.Matrix

namespace BlockAdmm

variable {R : Type} [ExactScalar R]

section Products

variable (D : Keyed Nat) (K : Coefs R) (x y : String → Nat → R) (r : String) (i : Nat)

theorem sumCells_add_point :
    sumCells D K (fun k i => x k i + y k i) r i = sumCells D K x r i + sumCells D K y r i := by
  rw [sumCells, sumCells, sumCells, ← Finset.sum_add_distrib]
  exact Finset.sum_congr rfl fun _ _ => mul_add ..

theorem sumCells_sub_point :
    sumCells D K (fun k i => x k i - y k i) r i = sumCells D K x r i - sumCells D K y r i := by
  rw [sumCells, sumCells, sumCells, ← Finset.sum_sub_distrib]
  exact Finset.sum_congr rfl fun _ _ => mul_sub ..

theorem sumCells_smul_point (a : R) :
    sumCells D K (fun k i => a * x k i) r i = a * sumCells D K x r i := by
  rw [sumCells, sumCells, Finset.mul_sum]
  exact Finset.sum_congr rfl fun _ _ => mul_left_comm ..

theorem sumCells_congr_point {x y : String → Nat → R} (h : ∀ p ∈ cells D, x p.1 p.2 = y p.1 p.2) :
    sumCells D K x r i = sumCells D K y r i :=
  Finset.sum_congr rfl fun p hp => by rw [h p hp]

/-- A product with the transpose of a product, column by column. -/
theorem sumCells_transpose (C : Keyed Nat) : sumCells D K.transpose (sumCells C K x) r i
    = ∑ q ∈ cells C, (∑ p ∈ cells D, K p.1 r p.2 i * K p.1 q.1 p.2 q.2) * x q.1 q.2 := by
  simp only [sumCells, Coefs.transpose, Finset.mul_sum, Finset.sum_mul]
  rw [Finset.sum_comm]
  exact Finset.sum_congr rfl fun q _ => Finset.sum_congr rfl fun p _ => (mul_assoc ..).symm

/-- The transpose is the adjoint. -/
theorem sum_sumCells_transpose_mul (C : Keyed Nat) :
    ∑ p ∈ cells C, sumCells D K.transpose x p.1 p.2 * y p.1 p.2
      = ∑ q ∈ cells D, x q.1 q.2 * sumCells C K y q.1 q.2 := by
  simp only [sumCells, Coefs.transpose, Finset.mul_sum, Finset.sum_mul]
  rw [Finset.sum_comm]
  refine Finset.sum_congr rfl fun q _ => Finset.sum_congr rfl fun p _ => ?_
  rw [mul_left_comm, mul_assoc]

end Products

end BlockAdmm
