/-
  Turns in the plane of two coordinates.

  Both Jacobi methods multiply a matrix by turns: one turns the columns of a matrix (`table_turnColumns`),
  the other a symmetric matrix from both sides (`matrix_turnBoth`).  The matrix of a turn is `turn p q g`, and
  it is orthogonal (`turn_mul_transpose`).

  An angle is chosen so that a turn of a symmetric matrix makes one entry zero (`Angle.Annuls`).  The squares
  of all entries add up to what they did before, and those of the diagonal to twice the square of that entry
  more, so this is what the turn takes from the squares off the diagonal (`offMass_turned`).  The one-sided
  method turns the matrix of the inner products of the columns in the same way without ever forming it, so
  the count of turns rests on one lemma for both.
-/
import BlockAdmm.Proofs.Dense.Lu
import BlockAdmm.Dense.Singular

namespace BlockAdmm

open Scalar ExactScalar Matrix

/-! ## The entries of a dense matrix -/

section Table

variable {R : Type} [ExactScalar R]

/-- `a.table m n`: the entries of the first `m` rows and `n` columns. -/
def Dense.table (a : Dense R) (m n : Nat) : Matrix (Fin m) (Fin n) R := Matrix.of fun i j => a.entry i j

theorem Dense.table_apply (a : Dense R) {m n : Nat} (i : Fin m) (j : Fin n) : a.table m n i j = a.entry i j := rfl

theorem Dense.table_transpose {a : Dense R} {m n : Nat} (hsize : a.size = (m, n)) :
    a.transpose.table n m = (a.table m n)ᵀ := by
  have hm : a.m = m := congrArg Prod.fst hsize
  have hn : a.n = n := congrArg Prod.snd hsize
  ext i j
  exact a.entry_transpose (hn.symm ▸ i.isLt) (hm.symm ▸ j.isLt)

end Table

/-! ## The matrix of a turn -/

variable {R : Type} [ExactScalar R] {m n : Nat} {p q : Fin n} {g : Eigen.Angle R}

/-- `turn p q g`: the turn in the plane of two coordinates. -/
def turn (p q : Fin n) (g : Eigen.Angle R) : Matrix (Fin n) (Fin n) R :=
  Matrix.of fun i j =>
    if j = p then if i = p then g.c else if i = q then -g.s else 0
    else if j = q then if i = p then g.s else if i = q then g.c else 0
    else if i = j then 1 else 0

/-- A turn from the right mixes two columns. -/
theorem mul_turn_apply (hpq : p ≠ q) (x : Matrix (Fin m) (Fin n) R) (i : Fin m) (j : Fin n) :
    (x * turn p q g) i j = if j = p then g.c * x i p - g.s * x i q
      else if j = q then g.s * x i p + g.c * x i q else x i j := by
  rw [Matrix.mul_apply]
  split_ifs with hp hq
  · subst hp
    rw [Fintype.sum_eq_add j q hpq fun k hk => by simp [turn, hk.1, hk.2]]
    simp only [turn, Matrix.of_apply, if_pos, if_neg hpq.symm]
    ring
  · subst hq
    rw [Fintype.sum_eq_add p j hpq fun k hk => by simp [turn, hk.1, hk.2, hp]]
    simp only [turn, Matrix.of_apply, if_pos, if_neg hpq.symm]
    ring
  · rw [Fintype.sum_eq_single j fun k hk => by simp [turn, hp, hq, hk]]
    simp only [turn, Matrix.of_apply, if_neg hp, if_neg hq, if_pos, mul_one]

/-- A turn from the left mixes two rows. -/
theorem transpose_turn_mul_apply (hpq : p ≠ q) (x : Matrix (Fin n) (Fin m) R) (i : Fin n) (j : Fin m) :
    ((turn p q g)ᵀ * x) i j = if i = p then g.c * x p j - g.s * x q j
      else if i = q then g.s * x p j + g.c * x q j else x i j := by
  rw [← Matrix.transpose_apply ((turn p q g)ᵀ * x), Matrix.transpose_mul, Matrix.transpose_transpose,
    mul_turn_apply hpq]
  rfl

theorem turn_left (p q : Fin n) (g : Eigen.Angle R) (j : Fin n) :
    turn p q g p j = if j = p then g.c else if j = q then g.s else 0 := by
  rw [turn, Matrix.of_apply, if_pos rfl, if_pos rfl]
  split_ifs with hp hq hpj
  · rfl
  · rfl
  · exact absurd hpj.symm hp
  · rfl

theorem turn_right (p q : Fin n) (g : Eigen.Angle R) (hpq : p ≠ q) (j : Fin n) :
    turn p q g q j = if j = p then -g.s else if j = q then g.c else 0 := by
  rw [turn, Matrix.of_apply, if_neg hpq.symm, if_pos rfl, if_neg hpq.symm, if_pos rfl]
  split_ifs with hp hq hqj
  · rfl
  · rfl
  · exact absurd hqj.symm hq
  · rfl

/-- A turn is orthogonal. -/
theorem transpose_turn_mul (hpq : p ≠ q) (hg : g.c ^ 2 + g.s ^ 2 = 1) :
    (turn p q g)ᵀ * turn p q g = 1 := by
  ext i j
  rw [transpose_turn_mul_apply hpq, turn_left p q g, turn_right p q g hpq, Matrix.one_apply]
  rcases eq_or_ne i p with rfl | hip
  · rw [if_pos rfl]
    rcases eq_or_ne j i with rfl | hji
    · rw [if_pos rfl, if_pos rfl, if_pos rfl]
      linear_combination hg
    · rw [if_neg hji, if_neg hji, if_neg hji.symm]
      split_ifs <;> ring
  · rw [if_neg hip]
    rcases eq_or_ne i q with rfl | hiq
    · rw [if_pos rfl]
      rcases eq_or_ne j p with rfl | hjp
      · rw [if_pos rfl, if_pos rfl, if_neg hip]
        ring
      · rw [if_neg hjp, if_neg hjp]
        rcases eq_or_ne j i with rfl | hji
        · rw [if_pos rfl, if_pos rfl, if_pos rfl]
          linear_combination hg
        · rw [if_neg hji, if_neg hji, if_neg hji.symm]
          ring
    · rw [if_neg hiq, turn, Matrix.of_apply, if_neg hip, if_neg hip, if_neg hiq, if_neg hiq]
      rcases eq_or_ne i j with rfl | hij
      · rw [if_neg hip, if_neg hiq]
      · rw [if_neg hij]
        split_ifs <;> rfl

theorem turn_mul_transpose (hpq : p ≠ q) (hg : g.c ^ 2 + g.s ^ 2 = 1) :
    turn p q g * (turn p q g)ᵀ = 1 := mul_eq_one_comm.1 (transpose_turn_mul hpq hg)

/-- An orthogonal matrix stays orthogonal. -/
theorem mul_turn_orthogonal {z : Matrix (Fin n) (Fin n) R} (hz : z * zᵀ = 1) (hpq : p ≠ q)
    (hg : g.c ^ 2 + g.s ^ 2 = 1) : z * turn p q g * (z * turn p q g)ᵀ = 1 := by
  rw [Matrix.transpose_mul, Matrix.mul_assoc, ← Matrix.mul_assoc (turn p q g), turn_mul_transpose hpq hg,
    Matrix.one_mul, hz]

/-! ## Angles -/

/-- `g.Annuls a b d`: the turn makes the entry `d` zero in the symmetric matrix with `a` and `b` on the
    diagonal. -/
structure Eigen.Angle.Annuls (g : Eigen.Angle R) (a b d : R) : Prop where
  unit : g.c ^ 2 + g.s ^ 2 = 1
  sine : g.s = g.c * g.t
  root : (1 - g.t ^ 2) * d = g.t * (b - a)

section Angles

variable {R : Type} [ExactRoots R] {a b d t theta sigma : R}

theorem sqrt_one_add_pos (x : R) : 0 < Scalar.sqrt (1 + x * x) := by
  have hpos : 0 < 1 + x * x := add_pos_of_pos_of_nonneg one_pos (mul_self_nonneg x)
  refine lt_of_le_of_ne (sqrt_nonneg hpos.le) fun h0 => hpos.ne ?_
  rw [← sqrt_sq hpos.le, ← h0, zero_pow two_ne_zero]

theorem sqrt_one_add_sq (x : R) : Scalar.sqrt (1 + x * x) ^ 2 = 1 + x * x :=
  sqrt_sq (add_nonneg zero_le_one (mul_self_nonneg x))

/-- Cosine and sine by the tangent. -/
theorem annuls_of_root (h : (1 - t ^ 2) * d = t * (b - a)) :
    (⟨t, recip (Scalar.sqrt (1 + t * t)), recip (Scalar.sqrt (1 + t * t)) * t⟩ : Eigen.Angle R).Annuls a b d := by
  refine ⟨?_, rfl, h⟩
  have hne := (sqrt_one_add_pos t).ne'
  calc recip (Scalar.sqrt (1 + t * t)) ^ 2 + (recip (Scalar.sqrt (1 + t * t)) * t) ^ 2
      = (1 + t * t) / Scalar.sqrt (1 + t * t) ^ 2 := by rw [recip]; ring
    _ = 1 := by rw [sqrt_one_add_sq, div_self (by rw [← sqrt_one_add_sq]; exact pow_ne_zero 2 hne)]

/-- The smaller root of `t² + 2 * theta * t = 1`, written so that nothing cancels. -/
theorem root_of_sign (hd : d ≠ 0) (htheta : theta = (b - a) / ((1 + 1) * d)) (hsign : sigma ^ 2 = 1)
    (habs : sigma * theta = |theta|) (ht : t = sigma / (|theta| + Scalar.sqrt (1 + theta * theta))) :
    (1 - t ^ 2) * d = t * (b - a) := by
  have hne : |theta| + Scalar.sqrt (1 + theta * theta) ≠ 0 :=
    (add_pos_of_nonneg_of_pos (abs_nonneg _) (sqrt_one_add_pos theta)).ne'
  have hba : b - a = 2 * theta * d := by
    rw [htheta]
    field_simp
    ring
  have hsq := sqrt_one_add_sq theta
  generalize Scalar.sqrt (1 + theta * theta) = r at ht hne hsq
  have hte : t * (|theta| + r) = sigma := by rw [ht, div_mul_cancel₀ _ hne]
  have hone : 1 - t ^ 2 = 2 * theta * t := by
    refine mul_left_cancel₀ (pow_ne_zero 2 hne) ?_
    linear_combination (-(t * (|theta| + r)) - sigma - 2 * theta * (|theta| + r)) * hte - hsign + hsq
      - sq_abs theta - 2 * (|theta| + r) * habs
  rw [hone, hba]
  ring

end Angles

/-! ## What a turn takes from the entries off the diagonal -/

/-- `squares x`: the sum of the squares of the entries. -/
def squares (x : Matrix (Fin m) (Fin n) R) : R := ∑ i, ∑ j, x i j ^ 2

/-- `offMass s`: the sum of the squares off the diagonal. -/
def offMass (s : Matrix (Fin n) (Fin n) R) : R := ∑ i, ∑ j, if i = j then 0 else s i j ^ 2

theorem offMass_nonneg (s : Matrix (Fin n) (Fin n) R) : 0 ≤ offMass s := by
  refine Finset.sum_nonneg fun i _ => Finset.sum_nonneg fun j _ => ?_
  split_ifs
  · exact le_rfl
  · exact sq_nonneg _

theorem squares_eq_trace (x : Matrix (Fin m) (Fin n) R) : squares x = (x * xᵀ).trace := by
  simp only [squares, Matrix.trace, Matrix.diag, Matrix.mul_apply, Matrix.transpose_apply, pow_two]

theorem squares_transpose (x : Matrix (Fin m) (Fin n) R) : squares xᵀ = squares x := Finset.sum_comm

/-- An orthogonal matrix on the right changes no sum of squares. -/
theorem squares_mul {z : Matrix (Fin n) (Fin n) R} (hz : z * zᵀ = 1) (x : Matrix (Fin m) (Fin n) R) :
    squares (x * z) = squares x := by
  rw [squares_eq_trace, squares_eq_trace, Matrix.transpose_mul, Matrix.mul_assoc, ← Matrix.mul_assoc z, hz,
    Matrix.one_mul]

theorem offMass_eq (s : Matrix (Fin n) (Fin n) R) : offMass s = squares s - ∑ i, s i i ^ 2 := by
  rw [offMass, squares, ← Finset.sum_sub_distrib]
  refine Finset.sum_congr rfl fun i _ => ?_
  rw [eq_sub_iff_add_eq, ← Finset.sum_erase_add _ _ (Finset.mem_univ i), if_pos rfl, add_zero]
  rw [← Finset.sum_erase_add (a := i) _ _ (Finset.mem_univ i)]
  congr 1
  exact Finset.sum_congr rfl fun j hj => if_neg (Finset.ne_of_mem_erase hj).symm

/-- `turned p q g s`: the matrix in the coordinates after the turn. -/
def turned (p q : Fin n) (g : Eigen.Angle R) (s : Matrix (Fin n) (Fin n) R) : Matrix (Fin n) (Fin n) R :=
  (turn p q g)ᵀ * s * turn p q g

theorem isSymm_turned {s : Matrix (Fin n) (Fin n) R} (hs : s.IsSymm) (p q : Fin n) (g : Eigen.Angle R) :
    (turned p q g s).IsSymm := by
  rw [Matrix.IsSymm, turned, Matrix.transpose_mul, Matrix.transpose_mul, Matrix.transpose_transpose, hs.eq,
    Matrix.mul_assoc]

section Turned

variable {s : Matrix (Fin n) (Fin n) R} (hpq : p ≠ q) (hs : s.IsSymm)
  (hg : g.Annuls (s p p) (s q q) (s p q))
include hpq hs hg

/-- The entries after the turn. -/
theorem turned_apply (i j : Fin n) : turned p q g s i j
    = if i = p then if j = p then s p p - g.t * s p q else if j = q then 0 else g.c * s j p - g.s * s j q
      else if i = q then if j = q then s q q + g.t * s p q else if j = p then 0 else g.s * s j p + g.c * s j q
      else if j = p then g.c * s i p - g.s * s i q else if j = q then g.s * s i p + g.c * s i q else s i j := by
  have hsymm (i j : Fin n) : s i j = s j i := hs.apply j i
  obtain ⟨hunit, hsine, hroot⟩ := hg
  rw [hsine] at hunit
  rw [turned, Matrix.mul_assoc, transpose_turn_mul_apply hpq, mul_turn_apply hpq, mul_turn_apply hpq,
    mul_turn_apply hpq, hsymm q p, hsine]
  rcases eq_or_ne i p with rfl | hip
  · rw [if_pos rfl, if_pos rfl]
    rcases eq_or_ne j i with rfl | hji
    · rw [if_pos rfl, if_pos rfl, if_pos rfl]
      linear_combination (s j j - g.t * s j q) * hunit - g.c ^ 2 * g.t * hroot
    · rw [if_neg hji, if_neg hji, if_neg hji]
      rcases eq_or_ne j q with rfl | hjq
      · rw [if_pos rfl, if_pos rfl, if_pos rfl]
        linear_combination g.c ^ 2 * hroot
      · rw [if_neg hjq, if_neg hjq, if_neg hjq, hsymm j i, hsymm j q]
  · rw [if_neg hip, if_neg hip]
    rcases eq_or_ne i q with rfl | hiq
    · rw [if_pos rfl, if_pos rfl]
      rcases eq_or_ne j i with rfl | hji
      · rw [if_neg hip, if_neg hip, if_pos rfl, if_pos rfl, if_pos rfl]
        linear_combination (s j j + g.t * s p j) * hunit + g.c ^ 2 * g.t * hroot
      · rw [if_neg hji, if_neg hji, if_neg hji]
        rcases eq_or_ne j p with rfl | hjp
        · rw [if_pos rfl, if_pos rfl, if_pos rfl]
          linear_combination g.c ^ 2 * hroot
        · rw [if_neg hjp, if_neg hjp, if_neg hjp, hsymm j p, hsymm j i]
    · rw [if_neg hiq, if_neg hiq]

/-- A turn takes twice the square of the entry that it makes zero. -/
theorem offMass_turned : offMass (turned p q g s) = offMass s - 2 * s p q ^ 2 := by
  have hroot := hg.root
  have hsquares : squares (turned p q g s) = squares s := by
    have hturn := turn_mul_transpose hpq hg.unit
    rw [turned, squares_mul hturn, ← squares_transpose, Matrix.transpose_mul, Matrix.transpose_transpose,
      squares_mul hturn, squares_transpose]
  have hdiagonal : ∑ i, (turned p q g s i i ^ 2 - s i i ^ 2) = 2 * s p q ^ 2 := by
    rw [Fintype.sum_eq_add p q hpq fun i hi => ?_]
    · rw [turned_apply hpq hs hg, turned_apply hpq hs hg, if_pos rfl, if_pos rfl, if_neg hpq.symm, if_pos rfl,
        if_pos rfl]
      linear_combination -2 * s p q * hroot
    · rw [turned_apply hpq hs hg, if_neg hi.1, if_neg hi.2, if_neg hi.1, if_neg hi.2, sub_self]
  rw [Finset.sum_sub_distrib] at hdiagonal
  rw [offMass_eq, offMass_eq, hsquares]
  linear_combination -hdiagonal

end Turned

/-! ## The turns of the two methods -/

/-- Columns under a turn. -/
theorem table_turnColumns {z : Dense R} (hz : z.size = (m, n)) (hpq : p ≠ q) :
    (Eigen.turnColumns z p q g).table m n = z.table m n * turn p q g := by
  have hm : z.m = m := congrArg Prod.fst hz
  have hn : z.n = n := congrArg Prod.snd hz
  ext i j
  rw [mul_turn_apply hpq, Dense.table_apply, Eigen.turnColumns, Dense.entry_build _ (by omega) (by omega)]
  simp only [Fin.val_inj, Dense.table_apply]

/-- A symmetric matrix under a turn from both sides. -/
theorem matrix_turnBoth {s : Dense R} (hsize : s.size = (n, n)) (hs : (s.matrix n).IsSymm) (hpq : p ≠ q)
    (hg : g.Annuls (s.entry p p) (s.entry q q) (s.entry p q)) :
    (Eigen.turnBoth s p q g).matrix n = turned p q g (s.matrix n) := by
  have hm : s.m = n := congrArg Prod.fst hsize
  have hn : s.n = n := congrArg Prod.snd hsize
  ext i j
  rw [turned_apply hpq hs hg]
  show (Eigen.turnBoth s p q g).entry i j = _
  rw [Eigen.turnBoth, Dense.entry_build _ (by omega) (by omega)]
  simp only [Fin.val_inj]
  rfl

end BlockAdmm
