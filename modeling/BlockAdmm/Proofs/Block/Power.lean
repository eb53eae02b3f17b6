/-
  The estimate of the norm.

  The power iteration goes from a vector `x` to `Aᵀ A x`, which it scales to length one before each step.
  Without the scaling its vectors are `x`, `Aᵀ A x`, `(Aᵀ A)² x` and so on, and with their images under
  `A` they have the squares of lengths `m₀, m₁, m₂, …` (`moment`).  What `k + 1` steps return is the last
  quotient `m_(2 k + 1) / m_(2 k)` (`BlockMatrix.Stands.powerSteps_eq_ok`).

  The moments are logarithmically convex (`moment_sq_le`), by the inequality of Cauchy and Schwarz.  So none
  of them vanishes unless all but the first do (`moment_eq_zero_iff`), and the quotients rise: the power
  `m_n ^ (n + 1)` is at most `m_(n + 1) ^ n` times `m₀` (`moment_pow_le`).
-/
import BlockAdmm.Proofs.Block.Fits
import BlockAdmm.Proofs.Block.Gram
import BlockAdmm.Proofs.Block.Linear
import BlockAdmm.Proofs.Safety.Block

namespace BlockAdmm

open Scalar ExactScalar

variable {R : Type} [ExactScalar R]

/-! ## Lengths and inner products -/

/-- `sqOver D x`: the square of the length of a point, over the cells of `D`. -/
def sqOver (D : Keyed Nat) (x : String → Nat → R) : R := ∑ p ∈ cells D, x p.1 p.2 ^ 2

theorem sqOver_nonneg (D : Keyed Nat) (x : String → Nat → R) : 0 ≤ sqOver D x :=
  Finset.sum_nonneg fun _ _ => sq_nonneg _

theorem sqOver_smul (D : Keyed Nat) (c : R) (x : String → Nat → R) :
    sqOver D (fun k i => c * x k i) = c ^ 2 * sqOver D x := by
  rw [sqOver, sqOver, Finset.mul_sum]
  exact Finset.sum_congr rfl fun _ _ => mul_pow ..

theorem sqOver_eq_zero_iff {D : Keyed Nat} {x : String → Nat → R} :
    sqOver D x = 0 ↔ ∀ p ∈ cells D, x p.1 p.2 = 0 := by
  rw [sqOver, Finset.sum_eq_zero_iff_of_nonneg fun _ _ => sq_nonneg _]
  exact forall₂_congr fun p _ => pow_eq_zero_iff two_ne_zero

/-- The square of the norm of a block vector whose blocks are among the names of `D`. -/
theorem BlockVector.normSq_eq_sqOver {D : Keyed Nat} {x : BlockVector R}
    (h : ∀ k n, x.sizeAt? k = some n → D.get? k = some n) : x.normSq = sqOver D x.coord := by
  rw [sqOver, sum_cells, BlockVector.normSq_eq_sum (S := D.keys.toFinset)
    (d := fun k => (D.get? k).getD 0)]
  · exact Finset.sum_congr rfl fun k _ => Finset.sum_congr rfl fun i _ => (sq _).symm
  · intro k n hn
    refine ⟨List.mem_toFinset.2 (Keyed.mem_keys_iff.2 ⟨n, h k n hn⟩), ?_⟩
    rw [h k n hn]
    exact le_rfl

/-- The inner product that the power iteration takes. -/
theorem BlockMatrix.innerSum_eq_ok {D : Keyed Nat} {x y : BlockVector R} {s : R}
    (h : ∀ k n, x.sizeAt? k = some n → D.get? k = some n) (hs : innerSum x y = .ok s) :
    s = ∑ p ∈ cells D, x.coord p.1 p.2 * y.coord p.1 p.2 := by
  have hsum := foldlM_sum (fun s => s)
    (fun kv : String × Array R => ∑ i ∈ Finset.range kv.2.size, Vec.entry kv.2 i * y.coord kv.1 i)
    (fun kv _ s s' hs => ?_) hs
  · rw [hsum, zero_add, sum_cells]
    refine BlockVector.sumOver_mul_eq_sum (fun k n hn => ?_) y.coord
    refine ⟨List.mem_toFinset.2 (Keyed.mem_keys_iff.2 ⟨n, h k n hn⟩), ?_⟩
    rw [h k n hn]
    exact le_rfl
  · cases hy : y.get? kv.1 with
    | none =>
      rw [hy] at hs
      cases hs
      have hzero : ∑ i ∈ Finset.range kv.2.size, Vec.entry kv.2 i * y.coord kv.1 i = 0 :=
        Finset.sum_eq_zero fun i _ => by rw [BlockVector.coord_of_get?_none hy, mul_zero]
      rw [hzero, add_zero]
    | some w =>
      rw [hy] at hs
      obtain ⟨d, hd, hs⟩ := bind_eq_ok.1 hs
      obtain ⟨_, -, hd⟩ := bind_eq_ok.1 hd
      cases pure_eq_ok.1 hs
      cases pure_eq_ok.1 hd
      rw [Vec.inner_eq_sum]
      simp only [BlockVector.coord_of_get? (x := y) hy]

/-! ## Moments -/

section Moments

variable (D C : Keyed Nat) (K : Coefs R)

/-- `gramMap D C K x`: the product with the matrix of the coefficients `K`, with rows `D` and columns `C`,
    and then with its transpose. -/
def gramMap (x : String → Nat → R) : String → Nat → R := sumCells D K.transpose (sumCells C K x)

/-- `moment D C K x n`: the square of the length of `x` after `n` products, with the matrix and with its
    transpose in turn. -/
def moment (x : String → Nat → R) : Nat → R
  | 0 => sqOver C x
  | 1 => sqOver D (sumCells C K x)
  | n + 2 => moment (gramMap D C K x) n

variable {D C K} (x y : String → Nat → R)

/-- `⟨Aᵀ A x, y⟩ = ⟨A x, A y⟩` -/
theorem sum_gramMap_mul : ∑ p ∈ cells C, gramMap D C K x p.1 p.2 * y p.1 p.2
    = ∑ q ∈ cells D, sumCells C K x q.1 q.2 * sumCells C K y q.1 q.2 :=
  sum_sumCells_transpose_mul _ _ (sumCells C K x) y _

theorem sum_gramMap_mul_comm : ∑ p ∈ cells C, gramMap D C K x p.1 p.2 * y p.1 p.2
    = ∑ p ∈ cells C, gramMap D C K y p.1 p.2 * x p.1 p.2 := by
  rw [sum_gramMap_mul, sum_gramMap_mul]
  exact Finset.sum_congr rfl fun q _ => mul_comm _ _

theorem gramMap_smul (c : R) :
    gramMap D C K (fun k i => c * x k i) = fun k i => c * gramMap D C K x k i := by
  have hinner : sumCells C K (fun k i => c * x k i) = fun r i => c * sumCells C K x r i := by
    funext r i
    exact sumCells_smul_point ..
  funext k i
  rw [gramMap, hinner]
  exact sumCells_smul_point ..

theorem moment_nonneg (n : Nat) : 0 ≤ moment D C K x n := by
  induction n using Nat.twoStepInduction generalizing x with
  | zero => exact sqOver_nonneg _ _
  | one => exact sqOver_nonneg _ _
  | more n ih _ => exact ih (gramMap D C K x)

theorem moment_smul (c : R) (n : Nat) :
    moment D C K (fun k i => c * x k i) n = c ^ 2 * moment D C K x n := by
  induction n using Nat.twoStepInduction generalizing x with
  | zero => exact sqOver_smul _ _ _
  | one =>
    have hinner : sumCells C K (fun k i => c * x k i) = fun r i => c * sumCells C K x r i := by
      funext r i
      exact sumCells_smul_point ..
    rw [moment, hinner, sqOver_smul, moment]
  | more n ih _ => rw [moment, gramMap_smul, ih, moment]

/-- The moments of even number are the squares of the lengths of the vectors of the iteration, and those
    of odd number belong to their images. -/
theorem moment_eq_sqOver (k : Nat) :
    moment D C K x (2 * k) = sqOver C ((gramMap D C K)^[k] x) ∧
      moment D C K x (2 * k + 1) = sqOver D (sumCells C K ((gramMap D C K)^[k] x)) := by
  induction k generalizing x with
  | zero => exact ⟨rfl, rfl⟩
  | succ k ih => exact ih (gramMap D C K x)

/-- The moments are logarithmically convex. -/
theorem moment_sq_le (n : Nat) :
    moment D C K x (n + 1) ^ 2 ≤ moment D C K x n * moment D C K x (n + 2) := by
  induction n using Nat.twoStepInduction generalizing x with
  | zero =>
    -- `|A x|² = ⟨x, Aᵀ A x⟩`
    have hinner : sqOver D (sumCells C K x) = ∑ p ∈ cells C, x p.1 p.2 * gramMap D C K x p.1 p.2 := by
      rw [sqOver, ← Finset.sum_congr rfl fun q _ => (sq _).symm, ← sum_gramMap_mul]
      exact Finset.sum_congr rfl fun p _ => mul_comm _ _
    show sqOver D (sumCells C K x) ^ 2 ≤ sqOver C x * sqOver C (gramMap D C K x)
    rw [hinner]
    exact Finset.sum_mul_sq_le_sq_mul_sq ..
  | one =>
    -- `|Aᵀ A x|² = ⟨A x, A Aᵀ A x⟩`
    have hinner : sqOver C (gramMap D C K x)
        = ∑ q ∈ cells D, sumCells C K x q.1 q.2 * sumCells C K (gramMap D C K x) q.1 q.2 := by
      rw [sqOver, ← sum_gramMap_mul]
      exact Finset.sum_congr rfl fun p _ => sq _
    show sqOver C (gramMap D C K x) ^ 2
      ≤ sqOver D (sumCells C K x) * sqOver D (sumCells C K (gramMap D C K x))
    rw [hinner]
    exact Finset.sum_mul_sq_le_sq_mul_sq ..
  | more n ih _ => exact ih (gramMap D C K x)

/-- A moment that vanishes takes the next one with it. -/
theorem moment_succ_eq_zero {n : Nat} (h : moment D C K x n = 0) : moment D C K x (n + 1) = 0 := by
  have hle := moment_sq_le (D := D) (C := C) (K := K) x n
  rw [h, zero_mul] at hle
  exact pow_eq_zero_iff two_ne_zero |>.1 (le_antisymm hle (sq_nonneg _))

theorem moment_add_eq_zero {n : Nat} (h : moment D C K x n = 0) (k : Nat) :
    moment D C K x (n + k) = 0 := by
  induction k with
  | zero => exact h
  | succ k ih => exact moment_succ_eq_zero x ih

/-- If one of the moments vanishes, all but the first do. -/
theorem moment_eq_zero_iff (n : Nat) : moment D C K x (n + 1) = 0 ↔ moment D C K x 1 = 0 := by
  constructor
  · intro h
    induction n with
    | zero => exact h
    | succ n ih =>
      have hle := moment_sq_le (D := D) (C := C) (K := K) x n
      rw [h, mul_zero] at hle
      exact ih (pow_eq_zero_iff two_ne_zero |>.1 (le_antisymm hle (sq_nonneg _)))
  · intro h
    rw [Nat.add_comm]
    exact moment_add_eq_zero x h n

/-- The quotients of the moments rise. -/
theorem moment_pow_le (n : Nat) :
    moment D C K x n ^ (n + 1) ≤ moment D C K x (n + 1) ^ n * moment D C K x 0 := by
  induction n with
  | zero => rw [Nat.zero_add, pow_one, pow_zero, one_mul]
  | succ n ih =>
    have hpos := moment_nonneg (D := D) (C := C) (K := K) x
    rcases (hpos (n + 1)).eq_or_lt with hzero | hlt
    · rw [← hzero, zero_pow (by omega)]
      exact mul_nonneg (pow_nonneg (hpos _) _) (hpos 0)
    · refine le_of_mul_le_mul_left ?_ (pow_pos hlt n)
      calc moment D C K x (n + 1) ^ n * moment D C K x (n + 1) ^ (n + 1 + 1)
          = (moment D C K x (n + 1) ^ 2) ^ (n + 1) := by ring
        _ ≤ (moment D C K x n * moment D C K x (n + 2)) ^ (n + 1) :=
          pow_le_pow_left₀ (sq_nonneg _) (moment_sq_le x n) _
        _ = moment D C K x n ^ (n + 1) * moment D C K x (n + 2) ^ (n + 1) := mul_pow ..
        _ ≤ (moment D C K x (n + 1) ^ n * moment D C K x 0) * moment D C K x (n + 2) ^ (n + 1) :=
          mul_le_mul_of_nonneg_right ih (pow_nonneg (hpos _) _)
        _ = moment D C K x (n + 1) ^ n * (moment D C K x (n + 2) ^ (n + 1) * moment D C K x 0) := by ring

theorem moment_two_eq_mul {c : R} (h : ∀ q ∈ cells D,
      sumCells C K (gramMap D C K x) q.1 q.2 = c * sumCells C K x q.1 q.2) :
    moment D C K x 2 = c * moment D C K x 1 := by
  show sqOver C (gramMap D C K x) = c * sqOver D (sumCells C K x)
  rw [sqOver, sqOver, Finset.mul_sum, Finset.sum_congr rfl fun p _ => sq (gramMap D C K x p.1 p.2),
    sum_gramMap_mul]
  exact Finset.sum_congr rfl fun q hq => by rw [h q hq]; ring

/-- If the image of the second vector is a multiple of the image of the first, all quotients behind the
    first are that multiple. -/
theorem moment_eq_mul {c : R} (h : ∀ q ∈ cells D,
      sumCells C K (gramMap D C K x) q.1 q.2 = c * sumCells C K x q.1 q.2) (n : Nat) :
    moment D C K x (n + 2) = c * moment D C K x (n + 1) := by
  induction n using Nat.twoStepInduction generalizing x with
  | zero => exact moment_two_eq_mul x h
  | one =>
    have hthird : moment D C K x 3 = c * (c * moment D C K x 1) := by
      show sqOver D (sumCells C K (gramMap D C K x)) = c * (c * sqOver D (sumCells C K x))
      rw [sqOver, sqOver, Finset.mul_sum, Finset.mul_sum]
      exact Finset.sum_congr rfl fun q hq => by rw [h q hq]; ring
    rw [hthird, moment_two_eq_mul x h]
  | more n ih _ =>
    have hnext : gramMap D C K (gramMap D C K x) = fun k i => c * gramMap D C K x k i := by
      funext k i
      refine (sumCells_congr_point _ _ _ _ (y := fun r i => c * sumCells C K x r i) h).trans ?_
      exact sumCells_smul_point ..
    refine ih (gramMap D C K x) fun q _ => ?_
    rw [hnext]
    exact sumCells_smul_point ..

/-- The part of the iteration along an eigenvector. -/
theorem sum_iterate_mul {v : String → Nat → R} {lambda : R}
    (hv : ∀ p ∈ cells C, gramMap D C K v p.1 p.2 = lambda * v p.1 p.2) (k : Nat) :
    ∑ p ∈ cells C, ((gramMap D C K)^[k] x) p.1 p.2 * v p.1 p.2
      = lambda ^ k * ∑ p ∈ cells C, x p.1 p.2 * v p.1 p.2 := by
  induction k generalizing x with
  | zero => rw [pow_zero, one_mul]; rfl
  | succ k ih =>
    have hstep : ∑ p ∈ cells C, gramMap D C K x p.1 p.2 * v p.1 p.2
        = lambda * ∑ p ∈ cells C, x p.1 p.2 * v p.1 p.2 := by
      rw [sum_gramMap_mul_comm, Finset.mul_sum]
      exact Finset.sum_congr rfl fun p hp => by rw [hv p hp]; ring
    rw [Function.iterate_succ_apply, ih, hstep, pow_succ, mul_assoc]

/-- The part of the start along an eigenvector bounds the moments of odd number from below. -/
theorem pow_mul_sq_le {v : String → Nat → R} {lambda : R} (hlambda : 0 ≤ lambda)
    (hv : ∀ p ∈ cells C, gramMap D C K v p.1 p.2 = lambda * v p.1 p.2) (k : Nat) :
    lambda ^ (2 * k + 1) * (∑ p ∈ cells C, x p.1 p.2 * v p.1 p.2) ^ 2
      ≤ moment D C K x (2 * k + 1) * sqOver C v := by
  rcases hlambda.eq_or_lt with hzero | hlt
  · rw [← hzero, zero_pow (Nat.succ_ne_zero _), zero_mul]
    exact mul_nonneg (moment_nonneg x _) (sqOver_nonneg _ _)
  have himage : sqOver D (sumCells C K v) = lambda * sqOver C v := by
    have hinner := sum_gramMap_mul (D := D) (C := C) (K := K) v v
    rw [sqOver, sqOver, Finset.mul_sum, Finset.sum_congr rfl fun q _ => sq (sumCells C K v q.1 q.2),
      ← hinner]
    exact Finset.sum_congr rfl fun p hp => by rw [hv p hp]; ring
  let z := (gramMap D C K)^[k] x
  have hpair : ∑ q ∈ cells D, sumCells C K z q.1 q.2 * sumCells C K v q.1 q.2
      = lambda ^ (k + 1) * ∑ p ∈ cells C, x p.1 p.2 * v p.1 p.2 := by
    rw [← sum_gramMap_mul, ← Function.iterate_succ_apply' (gramMap D C K)]
    exact sum_iterate_mul x hv (k + 1)
  have hcauchy := Finset.sum_mul_sq_le_sq_mul_sq (cells D) (fun q => sumCells C K z q.1 q.2)
    fun q => sumCells C K v q.1 q.2
  rw [hpair] at hcauchy
  refine le_of_mul_le_mul_left ?_ hlt
  calc lambda * (lambda ^ (2 * k + 1) * (∑ p ∈ cells C, x p.1 p.2 * v p.1 p.2) ^ 2)
      = (lambda ^ (k + 1) * ∑ p ∈ cells C, x p.1 p.2 * v p.1 p.2) ^ 2 := by ring
    _ ≤ sqOver D (sumCells C K z) * sqOver D (sumCells C K v) := hcauchy
    _ = lambda * (moment D C K x (2 * k + 1) * sqOver C v) := by
      rw [himage, (moment_eq_sqOver x k).2]
      ring

/-- The quotients come up to the eigenvalue of any eigenvector that the start is not too far from: if
    `v` is one for `λ`, then the last quotient is at least `λ / δ` as soon as the part of `x` along `v` is
    at least `δ ^ -(2 k + 1)` of its square. -/
theorem le_moment_of_overlap {v : String → Nat → R} {lambda delta : R} (hdelta : 0 ≤ delta)
    (hlambda : 0 ≤ lambda) (hv : ∀ p ∈ cells C, gramMap D C K v p.1 p.2 = lambda * v p.1 p.2)
    (hpos : 0 < sqOver C v) (k : Nat) (hoverlap : sqOver C v * sqOver C x
      ≤ delta ^ (2 * k + 1) * (∑ p ∈ cells C, x p.1 p.2 * v p.1 p.2) ^ 2) :
    lambda * moment D C K x (2 * k) ≤ delta * moment D C K x (2 * k + 1) := by
  have hm := moment_nonneg (D := D) (C := C) (K := K) x
  have halong := pow_mul_sq_le x hlambda hv k
  have hstart : lambda ^ (2 * k + 1) * sqOver C x ≤ delta ^ (2 * k + 1) * moment D C K x (2 * k + 1) := by
    refine le_of_mul_le_mul_right ?_ hpos
    calc lambda ^ (2 * k + 1) * sqOver C x * sqOver C v
        = lambda ^ (2 * k + 1) * (sqOver C v * sqOver C x) := by ring
      _ ≤ lambda ^ (2 * k + 1) * (delta ^ (2 * k + 1) * (∑ p ∈ cells C, x p.1 p.2 * v p.1 p.2) ^ 2) :=
        mul_le_mul_of_nonneg_left hoverlap (pow_nonneg hlambda _)
      _ = delta ^ (2 * k + 1) * (lambda ^ (2 * k + 1) * (∑ p ∈ cells C, x p.1 p.2 * v p.1 p.2) ^ 2) :=
        mul_left_comm ..
      _ ≤ delta ^ (2 * k + 1) * (moment D C K x (2 * k + 1) * sqOver C v) :=
        mul_le_mul_of_nonneg_left halong (pow_nonneg hdelta _)
      _ = delta ^ (2 * k + 1) * moment D C K x (2 * k + 1) * sqOver C v := (mul_assoc ..).symm
  refine (pow_le_pow_iff_left₀ (mul_nonneg hlambda (hm _)) (mul_nonneg hdelta (hm _))
    (Nat.succ_ne_zero (2 * k))).1 ?_
  calc (lambda * moment D C K x (2 * k)) ^ (2 * k + 1)
      = lambda ^ (2 * k + 1) * moment D C K x (2 * k) ^ (2 * k + 1) := mul_pow ..
    _ ≤ lambda ^ (2 * k + 1) * (moment D C K x (2 * k + 1) ^ (2 * k) * sqOver C x) :=
      mul_le_mul_of_nonneg_left (moment_pow_le x (2 * k)) (pow_nonneg hlambda _)
    _ = moment D C K x (2 * k + 1) ^ (2 * k) * (lambda ^ (2 * k + 1) * sqOver C x) := mul_left_comm ..
    _ ≤ moment D C K x (2 * k + 1) ^ (2 * k) * (delta ^ (2 * k + 1) * moment D C K x (2 * k + 1)) :=
      mul_le_mul_of_nonneg_left hstart (pow_nonneg (hm _) _)
    _ = (delta * moment D C K x (2 * k + 1)) ^ (2 * k + 1) := by ring

end Moments

/-! ## The iteration -/

namespace BlockMatrix

variable {S : Type} [ExactRoots S] {w : Marks S} {e : Lore S} {a back : BlockMatrix S} {K : Coefs S}

/-- Nothing stands in the way of scaling a block vector. -/
theorem ends_scaled {E : Fault → Prop} {D : Keyed Nat} {x : BlockVector S} (hx : x.Within D) (alpha : S) :
    Ends E (fun unit => unit.Within D) (BlockVector.empty.addScaled alpha x) := by
  obtain ⟨unit, hunit⟩ := BlockVector.exists_addScaled alpha (x := BlockVector.empty) (y := x)
    fun _ _ _ hm => absurd hm (Option.some_ne_none _).symm
  rw [hunit]
  refine ends_ok fun c n hn => ?_
  rw [BlockVector.sizeAt?_addScaled hunit, BlockVector.sizeAt?_empty, Option.or_none] at hn
  exact hx c n hn

/-- One step of the power iteration: nothing is left to do at the vector zero; otherwise it goes on from a
    multiple of the next vector, with the quotient of the first two moments. -/
theorem Stands.powerSteps_succ_eq_ok (hstands : a.Stands e K) (he : e.transposes)
    (hback : a.transpose = .ok back) {k : Nat} {x : BlockVector S} {sigma2 s : S}
    (hx : x.Within a.colDims)
    (h : powerSteps a back (k + 1) x sigma2 = .ok s) :
    x.normSq = 0 ∧ s = sigma2 ∨ x.normSq ≠ 0 ∧ ∃ y sigma2' c, powerSteps a back k y sigma2' = .ok s ∧
      y.Within a.colDims ∧ c ≠ 0 ∧
      (y.coord = fun k i => c * gramMap a.rowDims a.colDims K x.coord k i) ∧
      sigma2' * x.normSq = moment a.rowDims a.colDims K x.coord 1 := by
  rw [powerSteps] at h
  split at h
  · rename_i hzero
    rw [beq_iff_eq, BlockVector.norm_eq_sqrt] at hzero
    refine Or.inl ⟨?_, (pure_eq_ok.1 h).symm⟩
    rw [← sqrt_sq x.normSq_nonneg, hzero]
    exact zero_pow two_ne_zero
  · rename_i hne
    have hne : x.norm ≠ 0 := fun hzero => hne (beq_iff_eq.2 hzero)
    have hsq : x.norm ^ 2 = x.normSq := by rw [BlockVector.norm_eq_sqrt, sqrt_sq x.normSq_nonneg]
    obtain ⟨unit, hunit, h⟩ := bind_eq_ok.1 h
    obtain ⟨ax, hax, h⟩ := bind_eq_ok.1 h
    obtain ⟨y, hy, h⟩ := bind_eq_ok.1 h
    obtain ⟨sigma2', hsigma, h⟩ := bind_eq_ok.1 h
    have hunitCoord : unit.coord = fun k i => 1 / x.norm * x.coord k i := by
      funext k i
      rw [BlockVector.coord_addScaled hunit, BlockVector.coord_empty, zero_add]
    have hunitSize : unit.Within a.colDims :=
      (ends_scaled (E := fun _ => True) hx (1 / x.norm)).of_eq_ok hunit
    obtain ⟨hrows, hcols, -⟩ := transpose_eq_ok hback
    have hbackStands := hstands.transpose_loose he hback
    have hyCoord : y.coord = fun k i => 1 / x.norm * gramMap a.rowDims a.colDims K x.coord k i := by
      rw [← gramMap_smul, ← hunitCoord]
      funext c j
      rw [hbackStands.apply hy, hcols]
      exact Finset.sum_congr rfl fun q _ => by rw [hstands.apply hax]; rfl
    refine Or.inr ⟨hsq ▸ pow_ne_zero 2 hne, y, sigma2', 1 / x.norm, h, fun c n hn => ?_,
      one_div_ne_zero hne, hyCoord, ?_⟩
    · rw [← hrows]
      exact hbackStands.sizeAt?_apply hy hn
    · have hinner : ∑ p ∈ cells a.colDims, unit.coord p.1 p.2 * y.coord p.1 p.2
          = (1 / x.norm) ^ 2 * moment a.rowDims a.colDims K x.coord 1 := by
        rw [hunitCoord, hyCoord, moment, sqOver, ← Finset.sum_congr rfl fun q _ => (sq _).symm,
          ← sum_gramMap_mul, Finset.mul_sum]
        exact Finset.sum_congr rfl fun p _ => by ring
      rw [innerSum_eq_ok hunitSize hsigma, hinner, ← hsq]
      field_simp

/-- What the power iteration returns, in terms of its start: the last quotient of the moments, and zero if
    there is none. -/
theorem Stands.powerSteps_eq_ok (hstands : a.Stands e K) (he : e.transposes)
    (hback : a.transpose = .ok back) {k : Nat} {x : BlockVector S} {sigma2 s : S}
    (hx : x.Within a.colDims)
    (hsigma : x.normSq = 0 → sigma2 = 0) (h : powerSteps a back (k + 1) x sigma2 = .ok s) :
    s * moment a.rowDims a.colDims K x.coord (2 * k) = moment a.rowDims a.colDims K x.coord (2 * k + 1) ∧
      (moment a.rowDims a.colDims K x.coord (2 * k) = 0 → s = 0) := by
  -- by induction on the number of steps, each of which starts from a multiple of the next vector
  induction k using Nat.strong_induction_on generalizing x sigma2 with
  | _ k ih =>
    have hnormSq := BlockVector.normSq_eq_sqOver hx
    rcases hstands.powerSteps_succ_eq_ok he hback hx h with
      ⟨hzero, rfl⟩ | ⟨hne, y, sigma2', c, h, hy, hc, hyCoord, hquot⟩
    · have hmoment := moment_add_eq_zero (D := a.rowDims) (C := a.colDims) (K := K) x.coord (n := 0)
        (hnormSq.symm.trans hzero)
      rw [hsigma hzero, ← Nat.zero_add (2 * k + 1), hmoment, zero_mul]
      exact ⟨rfl, fun _ => rfl⟩
    · cases k with
      | zero =>
        cases h
        rw [hnormSq] at hne hquot
        exact ⟨hquot, fun hzero => absurd hzero hne⟩
      | succ k =>
        have hmoment (n : Nat) : moment a.rowDims a.colDims K y.coord n
            = c ^ 2 * moment a.rowDims a.colDims K x.coord (n + 2) := by
          rw [hyCoord, moment_smul, moment]
        have hsigma' (hzero : y.normSq = 0) : sigma2' = 0 := by
          have hnext := hmoment 0
          rw [moment, ← BlockVector.normSq_eq_sqOver hy, hzero, zero_eq_mul] at hnext
          have hfirst := (moment_eq_zero_iff x.coord 1).1 (hnext.resolve_left (pow_ne_zero 2 hc))
          rw [hfirst] at hquot
          exact (mul_eq_zero.1 hquot).resolve_right hne
        obtain ⟨hs, hs'⟩ := ih k (Nat.lt_succ_self k) hy hsigma' h
        rw [hmoment, hmoment] at hs
        rw [hmoment] at hs'
        refine ⟨mul_left_cancel₀ (pow_ne_zero 2 hc) ?_, fun hzero => hs' ?_⟩
        · exact (mul_left_comm ..).trans hs
        · exact mul_eq_zero_of_right _ hzero

/-- What the estimate of the norm is: the root of the last quotient of the moments of the start vector. -/
theorem Stands.normEstimate_eq_ok (hstands : a.Stands e K) (he : e.transposes) {k : Nat} {norm : S}
    (h : a.normEstimate (k + 1) = .ok norm) : 0 ≤ norm ∧
      norm ^ 2 * moment a.rowDims a.colDims K a.startVector.coord (2 * k)
        = moment a.rowDims a.colDims K a.startVector.coord (2 * k + 1) ∧
      (moment a.rowDims a.colDims K a.startVector.coord (2 * k) = 0 → norm = 0) := by
  obtain ⟨back, hback, h⟩ := bind_eq_ok.1 h
  obtain ⟨_, -, h⟩ := bind_eq_ok.1 h
  obtain ⟨s, hs, h⟩ := bind_eq_ok.1 h
  cases pure_eq_ok.1 h
  obtain ⟨hquot, hzero⟩ :=
    hstands.powerSteps_eq_ok he hback a.within_startVector (fun _ => rfl) hs
  have hnonneg : 0 ≤ s := by
    have hpos (n : Nat) := moment_nonneg (D := a.rowDims) (C := a.colDims) (K := K) a.startVector.coord n
    rcases (hpos (2 * k)).eq_or_lt with heq | hlt
    · exact (hzero heq.symm).ge
    · exact nonneg_of_mul_nonneg_left (hquot ▸ hpos (2 * k + 1)) hlt
  have hlarger : Scalar.larger s 0 = s := (larger_eq s 0).trans (max_eq_left hnonneg)
  rw [hlarger]
  exact ⟨sqrt_nonneg hnonneg, by rw [sqrt_sq hnonneg, hquot],
    fun heq => by rw [hzero heq, sqrt_zero]⟩

theorem normEstimate_eq_ok (hrep : a.Represents w K) {k : Nat} {norm : S}
    (h : a.normEstimate (k + 1) = .ok norm) : 0 ≤ norm ∧
      norm ^ 2 * moment a.rowDims a.colDims K a.startVector.coord (2 * k)
        = moment a.rowDims a.colDims K a.startVector.coord (2 * k + 1) ∧
      (moment a.rowDims a.colDims K a.startVector.coord (2 * k) = 0 → norm = 0) :=
  hrep.stands.normEstimate_eq_ok trivial h

/-- If the iteration only scales what it has after the first step, the estimate is exact for that. -/
theorem normEstimate_sq_eq (hrep : a.Represents w K) {k : Nat} {norm c : S}
    (h : a.normEstimate (k + 2) = .ok norm) (hc : ∀ q ∈ cells a.rowDims,
      sumCells a.colDims K (gramMap a.rowDims a.colDims K a.startVector.coord) q.1 q.2
        = c * sumCells a.colDims K a.startVector.coord q.1 q.2)
    (hne : moment a.rowDims a.colDims K a.startVector.coord 1 ≠ 0) : norm ^ 2 = c := by
  obtain ⟨-, hquot, -⟩ := normEstimate_eq_ok (k := k + 1) hrep h
  have hlast := moment_eq_mul a.startVector.coord hc (2 * k + 1)
  have hpos : moment a.rowDims a.colDims K a.startVector.coord (2 * k + 1 + 1) ≠ 0 :=
    fun hzero => hne ((moment_eq_zero_iff a.startVector.coord (2 * k + 1)).1 hzero)
  exact mul_right_cancel₀ hpos (hquot.trans hlast)

/-- The first moment vanishes just if the whole product does. -/
theorem Represents.moment_one_eq_zero_iff (h : a.Represents w K) (x : String → Nat → S) :
    moment a.rowDims a.colDims K x 1 = 0 ↔ ∀ r i, sumCells a.colDims K x r i = 0 := by
  rw [moment, sqOver_eq_zero_iff]
  refine ⟨fun hzero r i => ?_, fun hzero p _ => hzero p.1 p.2⟩
  by_contra hne
  obtain ⟨q, -, hq⟩ := Finset.exists_ne_zero_of_sum_ne_zero hne
  exact hne (hzero ⟨r, i⟩ (h.mem_cells (left_ne_zero_of_mul hq)).1)

/-! ## When there is an estimate -/

/-- `a.Applicable`: no block is opaque, and there is room to apply each of them. -/
def Applicable (a : BlockMatrix S) : Prop := ∀ b ∈ a.toList, b.map.Plain ∧ b.map.Fits

theorem Applicable.exists_apply (ha : a.Applicable) (hrep : a.Represents w K) {x : BlockVector S}
    (hx : x.Within a.colDims) : ∃ y, a.apply x = .ok y :=
  (hrep.okIff_apply (fun b hb => (ha b hb).1) fun _ hb _ hm =>
    Option.some.inj ((hx _ _ hm).symm.trans (hrep.cols (mem_toList.1 hb)))).ok fun b hb => Or.inr (ha b hb).2

theorem exists_powerSteps (hrep : a.Represents w K) (hback : a.transpose = .ok back) (ha : a.Applicable)
    (hb : back.Applicable) (k : Nat) {x : BlockVector S} {sigma2 : S} (hx : x.Within a.colDims) :
    ∃ s, powerSteps a back k x sigma2 = .ok s := by
  obtain ⟨hrows, hcols, -⟩ := transpose_eq_ok hback
  have hends : Ends (Fault.Unless True) (fun _ => True) (a.powerSteps back k x sigma2) := by
    refine ends_powerSteps (D := a.rowDims) (fun alpha _ hx => ends_scaled hx alpha) (fun x hx => ?_)
      (fun y hy => ?_) k hx sigma2
    · obtain ⟨y, hy⟩ := ha.exists_apply hrep hx
      rw [hy]
      exact ends_ok fun r n hn => hrep.sizeAt?_apply hy hn
    · obtain ⟨x, hx⟩ := hb.exists_apply (hrep.transpose hback) (x := y) (hcols ▸ hy)
      rw [hx]
      exact ends_ok fun c n hn => hrows ▸ (hrep.transpose hback).sizeAt?_apply hx hn
  obtain ⟨s, hs, -⟩ := hends.exists_of_unless trivial
  exact ⟨s, hs⟩

/-- There is always an estimate of a matrix that can be applied, and whose transpose can. -/
theorem exists_normEstimate (hrep : a.Represents w K) (hback : a.transpose = .ok back) (ha : a.Applicable)
    (hb : back.Applicable) (hroom : a.colDims.values.forM room = .ok ()) (k : Nat) :
    ∃ norm, a.normEstimate k = .ok norm := by
  obtain ⟨s, hs⟩ : ∃ s, powerSteps a back k a.startVector 0 = .ok s :=
    exists_powerSteps hrep hback ha hb k a.within_startVector
  exact ⟨_, bind_eq_ok.2 ⟨back, hback, bind_eq_ok.2 ⟨(), hroom, bind_eq_ok.2 ⟨s, hs, rfl⟩⟩⟩⟩

/-! ## Matrices of scalars -/

/-- `a.scalars`: the coefficients of a matrix whose blocks are scalars. -/
def scalars (a : BlockMatrix S) : Coefs S := fun r c i j =>
  match a.get? r c with
  | some (.scalar _ alpha _) => if i = 0 ∧ j = 0 then alpha else 0
  | _ => 0

/-- `a.OfScalars`: every block of the matrix is a scalar. -/
structure OfScalars (a : BlockMatrix S) : Prop where
  blocks : ∀ b ∈ a.toList, ∃ alpha, b.map = .ofScalar 1 alpha
  rows : ∀ b ∈ a.toList, a.rowDims.get? b.row = some 1
  cols : ∀ b ∈ a.toList, a.colDims.get? b.col = some 1

theorem OfScalars.represents (h : a.OfScalars) : a.Represents ⟨0, fun _ _ _ => 0⟩ a.scalars := by
  have hmap {r c : String} {l : LinearMap S} (hl : a.get? r c = some l) :
      ∃ alpha, l = .scalar 1 alpha none := h.blocks ⟨r, c, l⟩ (mem_toList.2 hl)
  refine ⟨fun {r c l} hl => ?_, fun {r c i j} hK => ?_, fun {r c l} hl => ?_, fun {r c l} hl => ?_⟩
  · obtain ⟨alpha, rfl⟩ := hmap hl
    intro i j hi hj
    rw [scalars, hl]
    exact if_congr (by omega) rfl rfl
  · rw [scalars] at hK
    cases hl : a.get? r c with
    | none =>
      rw [hl] at hK
      exact absurd rfl hK
    | some l =>
      obtain ⟨alpha, rfl⟩ := hmap hl
      rw [hl] at hK
      obtain ⟨rfl, rfl⟩ : i = 0 ∧ j = 0 := by
        by_contra hij
        exact hK (if_neg hij)
      exact ⟨_, rfl, Nat.one_pos, Nat.one_pos⟩
  · obtain ⟨alpha, rfl⟩ := hmap hl
    exact h.rows ⟨r, c, _⟩ (mem_toList.2 hl)
  · obtain ⟨alpha, rfl⟩ := hmap hl
    exact h.cols ⟨r, c, _⟩ (mem_toList.2 hl)

omit [ExactRoots S] in
theorem OfScalars.applicable (h : a.OfScalars) : a.Applicable := fun b hb => by
  obtain ⟨alpha, halpha⟩ := h.blocks b hb
  rw [halpha]
  exact ⟨trivial, trivial⟩

theorem OfScalars.transpose (h : a.OfScalars) (hback : a.transpose = .ok back) : back.OfScalars := by
  obtain ⟨hrows, hcols, -⟩ := transpose_eq_ok hback
  have hblock {b : Block S} (hb : b ∈ back.toList) :
      ∃ l, ⟨b.col, b.row, l⟩ ∈ a.toList ∧ l.transpose = .ok b.map := by
    obtain ⟨l, hl, ht⟩ := (get?_transpose hback).1 (mem_toList.1 hb)
    exact ⟨l, mem_toList.2 hl, ht⟩
  refine ⟨fun b hb => ?_, fun b hb => ?_, fun b hb => ?_⟩
  · obtain ⟨l, hl, ht⟩ := hblock hb
    obtain ⟨alpha, rfl⟩ : ∃ alpha, l = .ofScalar 1 alpha := h.blocks _ hl
    exact ⟨alpha, (Except.ok.inj ht).symm⟩
  · obtain ⟨l, hl, -⟩ := hblock hb
    rw [hrows]
    exact h.cols _ hl
  · obtain ⟨l, hl, -⟩ := hblock hb
    rw [hcols]
    exact h.rows _ hl

theorem OfScalars.exists_normEstimate (h : a.OfScalars) (hback : a.transpose = .ok back)
    (hroom : a.colDims.values.forM room = .ok ()) (k : Nat) : ∃ norm, a.normEstimate k = .ok norm :=
  BlockMatrix.exists_normEstimate h.represents hback h.applicable (h.transpose hback).applicable hroom k

end BlockMatrix

end BlockAdmm
