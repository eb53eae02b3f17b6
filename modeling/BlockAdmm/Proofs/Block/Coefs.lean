/-
  The coefficients of what is stored.

  Of a map without functions the coefficients can be read off (`LinearMap.coef`), and so can those of a
  matrix of such maps, in the rows and columns that its blocks have (`BlockMatrix.coef`).  So such a matrix
  has one product with a point and one of its transpose; what the operations compute where they have a
  value is these (`Sized.product_eq`, `Sized.backProduct_eq`), and a restriction has the coefficients of the
  columns that it keeps (`Sized.coef_restrictCols`).
-/
import BlockAdmm.Proofs.Safety.Block

namespace BlockAdmm

open Scalar ExactScalar

variable {R : Type} [ExactScalar R]

namespace LinearMap

/-- `l.coef r c`: the coefficient of a map without functions in row `r` and column `c`. -/
def coef : LinearMap R → Nat → Nat → R
  | .dense a _, r, c => a.entry r c
  | .sparse a _, r, c => a.entry r c
  | .diagonal d _, r, c => if r = c then Vec.entry d r else 0
  | .scalar _ alpha _, r, c => if r = c then alpha else 0
  | .kronecker a b, r, c => a.coef (r / b.m) (c / b.n) * b.coef (r % b.m) (c % b.n)
  | .opaqueMap _, _, _ => 0

theorem Plain.denotes {l : LinearMap R} (h : l.Plain) (w : Marks R) : l.Denotes w l.coef := by
  induction l with
  | dense | sparse | diagonal | scalar => exact fun r c _ _ => rfl
  | kronecker a b iha ihb => exact ⟨a.coef, b.coef, iha h.1, ihb h.2, fun r c _ _ => rfl⟩
  | opaqueMap f => exact absurd h id

end LinearMap

namespace BlockMatrix

/-- `a.coef`: the coefficients of a matrix, zero where it has no block. -/
def coef (a : BlockMatrix R) : Coefs R := fun r c i j =>
  match a.get? r c with
  | some l => if i < l.m ∧ j < l.n then l.coef i j else 0
  | none => 0

/-- `a.product x`: the product with a point. -/
def product (a : BlockMatrix R) (x : String → Nat → R) : String → Nat → R := sumCells a.colDims a.coef x

/-- `a.backProduct u`: the product of the transpose with a point. -/
def backProduct (a : BlockMatrix R) (u : String → Nat → R) : String → Nat → R :=
  sumCells a.rowDims a.coef.transpose u

variable {a t : BlockMatrix R} {x y u g : BlockVector R}

theorem Sized.represents (h : a.Sized) (w : Marks R) : a.Represents w a.coef := by
  refine ⟨fun {r c l} hl => ?_, fun {r c i j} hK => ?_, h.rows, h.cols⟩
  · refine ((h.plain hl).denotes w).congr fun i j hi hj => ?_
    rw [coef, hl]
    exact if_pos ⟨hi, hj⟩
  · rw [coef] at hK
    split at hK
    · rename_i l hl
      exact ⟨l, hl, by_contra fun hij => hK (if_neg hij)⟩
    · exact absurd rfl hK

/-- No marks are in use. -/
def noMarks : Marks R := ⟨0, fun _ _ _ => 0⟩

theorem Sized.product_eq (h : a.Sized) (hy : a.apply x = .ok y) : y.coord = a.product x.coord := by
  funext r i
  exact (h.represents noMarks).apply hy r i

theorem Sized.backProduct_eq (h : a.Sized) (ht : a.transpose = .ok t) (hg : t.apply u = .ok g) :
    g.coord = a.backProduct u.coord := by
  obtain ⟨-, hcols, -⟩ := transpose_eq_ok ht
  funext c j
  rw [((h.represents noMarks).transpose ht).apply hg, hcols]
  rfl

/-- The product of the transpose is zero outside of the columns. -/
theorem Sized.mem_cells_of_backProduct (h : a.Sized) {u : String → Nat → R} {p : Cell}
    (hp : a.backProduct u p.1 p.2 ^ 2 ≠ 0) : p ∈ cells a.colDims := by
  obtain ⟨q, -, hq⟩ := Finset.exists_ne_zero_of_sum_ne_zero ((pow_ne_zero_iff two_ne_zero).1 hp)
  exact ((h.represents noMarks).mem_cells (c := p.1) (j := p.2) (left_ne_zero_of_mul hq)).2

/-- A restriction has the coefficients of the columns that it keeps. -/
theorem coef_restrictCols (a : BlockMatrix R) (cols : List String) (r c : String) :
    (a.restrictCols cols).coef r c = if c ∈ cols then a.coef r c else 0 := by
  funext i j
  rw [coef, get?_restrictCols]
  split_ifs
  · rfl
  · rfl

end BlockMatrix

end BlockAdmm
