/-
  How the dense products fit together.

  The products are loops over entries, and each of them passes over matrices that have a side of length zero.  The
  laws here need nothing of the scalars, so they hold of the doubles to the last bit: transposing twice changes
  nothing (`transpose_transpose`), and the columns of a matrix product are the products with the columns
  (`mulVec_column`), because both sum in the same order.  Where the factors of a product of scalars may be
  exchanged, the transpose of a matrix product is the product of the transposes in the other order
  (`transpose_product`).  Over an exact reading the entries make up the product of matrices (`table_mulMat`).

  A product can be too large to be stored although both factors have no entry; then it ends in a breach.
-/
import BlockAdmm.Proofs.Dense.Turn
import BlockAdmm.Proofs.Zero

namespace BlockAdmm

namespace Dense

open Scalar

section Loops

variable {R : Type} [Scalar R] {a b : Dense R} {c : Nat}

theorem transpose_transpose (a : Dense R) : a.transpose.transpose = a :=
  ext_entry rfl rfl fun r c hr hc => by
    have hr : r < a.m := hr
    have hc : c < a.n := hc
    rw [entry_transpose a.transpose hr hc, entry_transpose a hc hr]

@[simp] theorem size_column (a : Dense R) (c : Nat) : (a.column c).size = a.m := Vec.size_build ..

/-- A product with a vector that fits, by its entries. -/
theorem mulVec_of_size {x : Array R} (hx : x.size = a.n) : a.mulVec x = (do
    room a.m
    return Vec.build a.m fun r =>
      if a.hasEntries then 1 * sumBelow (fun k => a.entry r k * Vec.entry x k) a.n + 0 * 0 else 0) := by
  rw [mulVec]
  refine congrArg _ (funext fun _ => ?_)
  split
  · have hfit : (x.size == a.n && (Vec.zero a.m : Array R).size == a.m) = true := by
      rw [hx, Vec.size_zero, beq_self_eq_true, beq_self_eq_true, Bool.and_self]
    rw [transform, hfit, promise_true]
    refine congrArg Except.ok (Vec.ext_entry ((Vec.size_build ..).trans (Vec.size_build ..).symm) fun r hr => ?_)
    have hr : r < a.m := hr.trans_eq (Vec.size_build ..)
    rw [combine, Vec.entry_build _ hr, Vec.entry_build _ hr, Vec.entry_zero]
  · rfl

/-- A column of a matrix product is the product with the column. -/
theorem mulVec_column (hab : a.n = b.m) (hc : c < b.n) : a.mulVec (b.column c) = (do
    room a.m
    return (a.product b).column c) := by
  rw [mulVec_of_size ((size_column b c).trans hab.symm)]
  refine congrArg _ (funext fun _ => congrArg pure ?_)
  refine Vec.ext_entry ((Vec.size_build ..).trans (Vec.size_build ..).symm) fun r hr => ?_
  have hr : r < a.m := hr.trans_eq (Vec.size_build ..)
  have hentry : Vec.entry ((a.product b).column c) r = (a.product b).entry r c := Vec.entry_build _ hr
  rw [Vec.entry_build _ hr, hentry, product, entry_build _ hr hc]
  have hsum : sumBelow (fun k => a.entry r k * Vec.entry (b.column c) k) a.n
      = sumBelow (fun k => a.entry r k * b.entry k c) a.n :=
    sumBelow_congr fun k hk => by rw [column, Vec.entry_build _ (hab ▸ hk)]
  rw [hsum]

/-- The transpose of a product is the product of the transposes in the other order. -/
theorem transpose_product (hmul : ∀ x y : R, x * y = y * x) (hab : a.n = b.m) :
    (a.product b).transpose = b.transpose.product a.transpose := by
  refine ext_entry rfl rfl fun c r hc hr => ?_
  have hc : c < b.n := hc
  have hr : r < a.m := hr
  rw [entry_transpose (a.product b) hc hr, product, entry_build _ hr hc, product,
    entry_build (m := b.transpose.m) (n := a.transpose.n) _ hc hr]
  -- there is a row and a column, so either product has entries to sum up just if the inner side has
  have hentries : b.transpose.hasEntries = a.hasEntries := by
    have hb : b.transpose.hasEntries = (decide (0 < b.n) && decide (0 < b.m)) := rfl
    rw [hb, hasEntries, decide_eq_true (Nat.zero_lt_of_lt hc), decide_eq_true (Nat.zero_lt_of_lt hr), hab]
  have hsum : sumBelow (fun k => b.transpose.entry c k * a.transpose.entry k r) b.m
      = sumBelow (fun k => a.entry r k * b.entry k c) a.n := by
    rw [hab]
    refine sumBelow_congr fun k hk => ?_
    rw [entry_transpose b hc hk, entry_transpose a (hab ▸ hk) hr, hmul]
  rw [hentries]
  show _ = if a.hasEntries then 1 * sumBelow _ b.m + 0 * 0 else 0
  rw [hsum]

/-- The same of the products as they are computed, whether they can be stored or not. -/
theorem transpose_mulMat (hmul : ∀ x y : R, x * y = y * x) (a b : Dense R) :
    (do return (← a.mulMat b).transpose) = b.transpose.mulMat a.transpose := by
  have hflip : b.transpose.mulMat a.transpose = (do
      promise (b.m == a.n)
      room (b.n * a.m)
      return b.transpose.product a.transpose) := rfl
  rw [hflip, mulMat, Nat.mul_comm b.n, BEq.comm (a := b.m)]
  by_cases hab : a.n = b.m
  · rw [beq_iff_eq.2 hab, promise_true, ← transpose_product hmul hab]
    cases room (a.m * b.n) <;> rfl
  · rw [beq_eq_false_iff_ne.2 hab, promise_false]
    rfl

/-- A product of matrices that fit is computed just if it can be stored. -/
theorem mulMat_of_fits (hab : a.n = b.m) : a.mulMat b = (do
    room (a.m * b.n)
    return a.product b) := by
  rw [mulMat, beq_iff_eq.2 hab, promise_true]
  rfl

end Loops

theorem table_mulMat {R : Type} [ExactScalar R] {a b d : Dense R} (h : a.mulMat b = .ok d) :
    d.size = (a.m, b.n) ∧ d.table a.m b.n = a.table a.m a.n * b.table a.n b.n := by
  obtain ⟨hab, -, rfl⟩ := mulMat_eq_ok.1 h
  refine ⟨rfl, Matrix.ext fun i j => ?_⟩
  rw [table_apply, entry_product i.isLt j.isLt, Matrix.mul_apply, Finset.sum_range]
  rfl

/-- `hollow`: one row without entries. -/
def hollow : Dense Float := ⟨1, 0, #[], rfl⟩

/-- `broad`: more columns than a vector has entries, each of them without entries. -/
def broad : Dense Float := ⟨0, capacity + 1, #[], by rw [Nat.zero_mul]; rfl⟩

/-- The product of two matrices without entries cannot be stored, while that with a column can. -/
theorem mulMat_broad : hollow.n = broad.m ∧ 0 < broad.n ∧ hollow.mulMat broad = .error .breach ∧
    hollow.mulVec (broad.column 0) = .ok #[0] := ⟨rfl, by decide, rfl, rfl⟩

/-- The dense products fit together, with the operations in the order in which they are made.  Over any scalars: the
    product of the transpose with a vector is the product with the transpose; transposing twice changes nothing; a
    product of matrices that fit is computed just if it can be stored, and its columns are then the products with
    the columns; and where factors may be exchanged, its transpose is the product of the transposes in the other
    order, computed just if the product is.  Over an exact reading it is the product of matrices. -/
theorem kernels_agree {R : Type} [Scalar R] (a b : Dense R) :
    (∀ x : Array R, a.transMulVec x = a.transpose.mulVec x) ∧
    a.transpose.transpose = a ∧
    (a.n = b.m → a.m * b.n ≤ capacity → ∃ d, a.mulMat b = .ok d ∧ d.size = (a.m, b.n) ∧
      ∀ c < b.n, a.mulVec (b.column c) = .ok (d.column c)) ∧
    (a.n = b.m → capacity < a.m * b.n → a.mulMat b = .error .breach) ∧
    ((∀ x y : R, x * y = y * x) →
      (do return (← a.mulMat b).transpose) = b.transpose.mulMat a.transpose) ∧
    ∀ (S : Type) [ExactScalar S] (g h d : Dense S), g.mulMat h = .ok d →
      d.size = (g.m, h.n) ∧ d.table g.m h.n = g.table g.m g.n * h.table g.n h.n := by
  refine ⟨a.transMulVec_eq_mulVec, a.transpose_transpose, fun hab hroom => ?_, fun hab hroom => ?_,
    fun hmul => transpose_mulMat hmul a b, fun S _ g h d hd => table_mulMat hd⟩
  · refine ⟨a.product b, ?_, rfl, fun c hc => ?_⟩
    · rw [mulMat_of_fits hab, room_of_le hroom]
      rfl
    · have hrows : a.m ≤ capacity := (Nat.le_mul_of_pos_right _ (Nat.zero_lt_of_lt hc)).trans hroom
      rw [mulVec_column hab hc, room_of_le hrows]
      rfl
  · rw [mulMat_of_fits hab, room_of_lt hroom]
    rfl

/-- `counted m n`: the matrix of the numbers from zero on, row after row. -/
def counted {R : Type} [Scalar R] (m n : Nat) : Dense R := build m n fun r c => ((r * n + c : Nat) : R)

/-- A product of doubles, and one of rational numbers. -/
theorem kernels_agree_counted :
    (∃ d, (counted 2 3 : Dense Float).mulMat (counted 3 2) = .ok d ∧
      (counted 2 3 : Dense Float).mulVec ((counted 3 2).column 1) = .ok (d.column 1) ∧
      (counted 3 2 : Dense Float).transpose.mulMat (counted 2 3).transpose = .ok d.transpose) ∧
    ∃ d, (counted 2 3 : Dense ℚ).mulMat (counted 3 2) = .ok d ∧
      d.table 2 2 = (counted 2 3 : Dense ℚ).table 2 3 * (counted 3 2 : Dense ℚ).table 3 2 := by
  obtain ⟨-, -, hfits, -, hflip, -⟩ := kernels_agree (counted 2 3 : Dense Float) (counted 3 2)
  obtain ⟨d, hd, -, hcolumns⟩ := hfits rfl (by decide)
  obtain ⟨-, -, hfits', -, -, hexact⟩ := kernels_agree (counted 2 3 : Dense ℚ) (counted 3 2)
  obtain ⟨e, he, -, -⟩ := hfits' rfl (by decide)
  refine ⟨⟨d, hd, hcolumns 1 (by decide), ?_⟩, e, he, (hexact ℚ _ _ e he).2⟩
  rw [← hflip Binary64.mul_comm, hd]
  rfl

end Dense

end BlockAdmm
