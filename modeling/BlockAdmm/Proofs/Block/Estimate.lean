/-
  The estimate of the norm rises and stays below the norm.

  The quotients of successive moments rise (`growth_le_succ`), since the moments are logarithmically convex.
  The square of the estimate after `k + 1` steps is the quotient of number `2 k`
  (`BlockMatrix.Stands.normEstimate_sq_eq_rayleigh`), so the estimate never falls from step to step.  That
  quotient belongs to one vector and its image, so a bound for all images is a bound for the estimate.

  A matrix that stands for coefficients has an estimate but where a size is too large
  (`BlockMatrix.Stands.ends_normEstimate`), and that cannot be if the matrix can be used both ways, that
  is, if its blocks and their transposes can be applied (`BlockMatrix.Usable`).
-/
import BlockAdmm.Proofs.Block.Power
import BlockAdmm.Proofs.LinearMap.BothWays
import BlockAdmm.Proofs.Safety.Block

namespace BlockAdmm

open Scalar ExactScalar

/-! ## Quotients of moments -/

section Moments

variable {R : Type} [ExactScalar R] {D C : Keyed Nat} {K : Coefs R}

/-- `growth D C K x n = m_(n+1) / m_n`, the quotient of two moments. -/
def growth (D C : Keyed Nat) (K : Coefs R) (x : String → Nat → R) (n : Nat) : R :=
  moment D C K x (n + 1) / moment D C K x n

theorem growth_nonneg (x : String → Nat → R) (n : Nat) : 0 ≤ growth D C K x n :=
  div_nonneg (moment_nonneg x _) (moment_nonneg x _)

/-- The quotients rise. -/
theorem growth_le_succ (x : String → Nat → R) (n : Nat) : growth D C K x n ≤ growth D C K x (n + 1) := by
  rcases (moment_nonneg (D := D) (C := C) (K := K) x (n + 1)).eq_or_lt with hzero | hnext
  · rw [growth, ← hzero, zero_div]
    exact growth_nonneg x _
  · -- a moment that is not zero has none that is zero before it
    have hlast : 0 < moment D C K x n := by
      refine (moment_nonneg x n).lt_of_ne fun hzero => hnext.ne' ?_
      exact moment_succ_eq_zero x hzero.symm
    rw [growth, growth, div_le_div_iff₀ hlast hnext, ← sq, mul_comm]
    exact moment_sq_le x n

/-- `rayleigh D C K x k`: the quotient that `k` steps of the iteration return, and zero without a step. -/
def rayleigh (D C : Keyed Nat) (K : Coefs R) (x : String → Nat → R) : Nat → R
  | 0 => 0
  | k + 1 => growth D C K x (2 * k)

theorem rayleigh_mono (x : String → Nat → R) : Monotone (rayleigh D C K x) := by
  refine monotone_nat_of_le_succ fun k => ?_
  cases k with
  | zero => exact growth_nonneg x _
  | succ k => exact (growth_le_succ x (2 * k)).trans (growth_le_succ x (2 * k + 1))

/-- What bounds all images bounds the quotients. -/
theorem rayleigh_le {b : R} (hb : 0 ≤ b) (h : ∀ y, sqOver D (sumCells C K y) ≤ b * sqOver C y)
    (x : String → Nat → R) (k : Nat) : rayleigh D C K x k ≤ b := by
  cases k with
  | zero => exact hb
  | succ k =>
    obtain ⟨heven, hodd⟩ := moment_eq_sqOver (D := D) (C := C) (K := K) x k
    rw [rayleigh, growth, heven, hodd]
    exact div_le_of_le_mul₀ (sqOver_nonneg _ _) hb (h _)

end Moments

/-! ## Lengths -/

section Lengths

variable {S : Type} [ExactRoots S] {D C : Keyed Nat} {K : Coefs S} {b : S}

/-- `lengthOver D x`: the length of a point, over the cells of `D`. -/
def lengthOver (D : Keyed Nat) (x : String → Nat → S) : S := Scalar.sqrt (sqOver D x)

theorem lengthOver_sq (D : Keyed Nat) (x : String → Nat → S) : lengthOver D x ^ 2 = sqOver D x :=
  sqrt_sq (sqOver_nonneg D x)

theorem lengthOver_nonneg (D : Keyed Nat) (x : String → Nat → S) : 0 ≤ lengthOver D x :=
  sqrt_nonneg (sqOver_nonneg D x)

/-- The norm of a block vector whose blocks are among the names of `D`. -/
theorem BlockVector.norm_eq_lengthOver {x : BlockVector S}
    (h : ∀ k n, x.sizeAt? k = some n → D.get? k = some n) : x.norm = lengthOver D x.coord := by
  rw [BlockVector.norm_eq_sqrt, BlockVector.normSq_eq_sqOver h, lengthOver]

/-- `BoundsOver D C K b`: no image is longer than `b` times the point, where this says something about
    `b`: it is not negative, or there are points of a length other than zero. -/
structure BoundsOver (D C : Keyed Nat) (K : Coefs S) (b : S) : Prop where
  sign : (cells C).Nonempty ∨ 0 ≤ b
  le : ∀ x, lengthOver D (sumCells C K x) ≤ lengthOver C x * b

theorem BoundsOver.nonneg (h : BoundsOver D C K b) : 0 ≤ b := by
  refine h.sign.elim (fun hcells => ?_) id
  obtain ⟨p, hp⟩ := hcells
  have hlength : 0 < lengthOver C fun _ _ => (1 : S) := by
    refine (lengthOver_nonneg C _).lt_of_ne fun hzero => ?_
    have hsq := lengthOver_sq C fun _ _ => (1 : S)
    rw [← hzero, zero_pow two_ne_zero] at hsq
    exact one_ne_zero (sqOver_eq_zero_iff.1 hsq.symm p hp)
  exact nonneg_of_mul_nonneg_right ((lengthOver_nonneg D _).trans (h.le _)) hlength

theorem BoundsOver.sqOver_le (h : BoundsOver D C K b) (x : String → Nat → S) :
    sqOver D (sumCells C K x) ≤ b ^ 2 * sqOver C x := by
  rw [← lengthOver_sq, ← lengthOver_sq, ← mul_pow, mul_comm b]
  exact pow_le_pow_left₀ (lengthOver_nonneg _ _) (h.le x) 2

end Lengths

/-! ## Endings -/

namespace BlockMatrix

variable {S : Type} [ExactRoots S] {e : Lore S} {a : BlockMatrix S} {K : Coefs S}

/-- The estimate ends in a breach or has a value, and in a breach only if there is not enough room. -/
theorem Stands.ends_normEstimate (h : a.Stands e K) (he : e.transposes)
    (hroom : ∀ b ∈ a.toList, Allows e.faults b.map.extent) (hcols : ∀ n ∈ a.colDims.values, Allows e.faults n)
    (k : Nat) : Ends e.faults (fun _ => True) (a.normEstimate k) :=
  (h.ready he hroom).normEstimate (fun alpha _ hx => ends_scaled hx alpha) hcols k

/-! ## Estimates -/

/-- The square of the estimate is the last quotient of the moments of the start vector. -/
theorem Stands.normEstimate_sq_eq_rayleigh (h : a.Stands e K) (he : e.transposes) {k : Nat} {norm : S}
    (hnorm : a.normEstimate k = .ok norm) :
    0 ≤ norm ∧ norm ^ 2 = rayleigh a.rowDims a.colDims K a.startVector.coord k := by
  cases k with
  | zero =>
    obtain ⟨back, -, hnorm⟩ := bind_eq_ok.1 hnorm
    obtain ⟨_, -, hnorm⟩ := bind_eq_ok.1 hnorm
    obtain ⟨s, hs, hnorm⟩ := bind_eq_ok.1 hnorm
    cases hs
    cases pure_eq_ok.1 hnorm
    have hlarger : Scalar.larger (0 : S) 0 = 0 := (larger_eq 0 0).trans (max_self 0)
    rw [hlarger, sqrt_zero]
    exact ⟨le_rfl, zero_pow two_ne_zero⟩
  | succ k =>
    obtain ⟨hnonneg, hquot, hzero⟩ := h.normEstimate_eq_ok he hnorm
    refine ⟨hnonneg, ?_⟩
    rw [rayleigh, growth]
    by_cases hmoment : moment a.rowDims a.colDims K a.startVector.coord (2 * k) = 0
    · rw [hmoment, div_zero, hzero hmoment, zero_pow two_ne_zero]
    · exact eq_div_of_mul_eq hmoment hquot

/-- `a.Usable`: the blocks can be used both ways, and the blocks of the start vector can be stored. -/
structure Usable (a : BlockMatrix S) : Prop where
  blocks : ∀ b ∈ a.toList, b.map.UsableBothWays
  cols : ∀ n ∈ a.colDims.values, n ≤ capacity

/-- What is known of functions that end in nothing but a breach, for a matrix that can be used. -/
theorem Stands.both (h : a.Stands e K) (he : ∀ f, e.faults f → f.IsBreach) (ht : e.transposes) :
    a.Stands (Lore.both a.Usable) K := by
  refine ⟨fun {r c l} hl => (h.bears hl).both he ht fun hu f hf => ?_, h.support, h.rows, h.cols⟩
  have hblock := hu.blocks ⟨r, c, l⟩ (mem_toList.2 hl)
  exact ⟨hblock.usable.2 f hf, hblock.back f hf⟩

end BlockMatrix

/-- `Estimates c estimate IsBound`: what is estimated from more and more steps rises and stays below every
    bound, and unless `c` there may be a breach. -/
structure Estimates {S : Type} [ExactRoots S] (c : Prop) (estimate : Nat → Outcome S) (IsBound : S → Prop) :
    Prop where
  ends : ∀ k, Ends (Fault.Unless c) (fun norm => 0 ≤ norm ∧ ∀ b, IsBound b → norm ≤ b) (estimate k)
  mono : ∀ {k l x y}, k ≤ l → estimate k = .ok x → estimate l = .ok y → x ≤ y

/-- The estimate of the norm of a matrix. -/
theorem BlockMatrix.Stands.estimates {S : Type} [ExactRoots S] {a : BlockMatrix S} {K : Coefs S}
    (h : a.Stands (Lore.both a.Usable) K) :
    Estimates a.Usable a.normEstimate (BoundsOver a.rowDims a.colDims K) := by
  refine ⟨fun k => ?_, fun {k l x y} hkl hx hy => ?_⟩
  · have hends := h.ends_normEstimate trivial (fun b hb => allows_unless fun hu => (hu.blocks b hb).usable.1)
      (fun n hn => allows_unless fun hu => hu.cols n hn) k
    refine (hends.and_eq fun norm hnorm => ?_).imp fun norm hnorm => hnorm.2
    obtain ⟨hnonneg, hsq⟩ := h.normEstimate_sq_eq_rayleigh trivial hnorm
    refine ⟨hnonneg, fun b hb => (pow_le_pow_iff_left₀ hnonneg hb.nonneg two_ne_zero).1 ?_⟩
    rw [hsq]
    exact rayleigh_le (sq_nonneg b) hb.sqOver_le _ k
  · obtain ⟨hxnonneg, hxsq⟩ := h.normEstimate_sq_eq_rayleigh trivial hx
    obtain ⟨hynonneg, hysq⟩ := h.normEstimate_sq_eq_rayleigh trivial hy
    refine (pow_le_pow_iff_left₀ hxnonneg hynonneg two_ne_zero).1 ?_
    rw [hxsq, hysq]
    exact rayleigh_mono _ hkl

end BlockAdmm
