/-
  Minimizers of a term with a penalty.

  A proximal point of `v` minimizes `f x + (rho / 2) * |x - v|²` (`IsProx`).  It is enough that the term
  stays above its value at `x` with the slopes `rho * (v_i - x_i)` (`HasSlope`): then every other point
  loses at least `(rho / 2) * |y - x|²` (`HasSlope.penalized_add_le`).  So `x` is a proximal point, and with
  a penalty the only one.
-/
import BlockAdmm.Proofs.Vec

namespace BlockAdmm

open Scalar ExactScalar

variable {R : Type} [ExactScalar R] {f : Array R → R} {rho : R} {v x y : Array R} {g : Nat → R}

/-- `squareDistance x y`: the sum of the squares of the differences of the entries. -/
def squareDistance (x y : Array R) : R :=
  ∑ i ∈ Finset.range x.size, (Vec.entry y i - Vec.entry x i) ^ 2

/-- `penalized f rho v x`: the term with the penalty `rho` on the distance from `v`. -/
def penalized (f : Array R → R) (rho : R) (v x : Array R) : R := f x + rho / 2.0 * squareDistance v x

/-- `IsProx f rho v x`: the point minimizes the term with the penalty, over all points of its length. -/
structure IsProx (f : Array R → R) (rho : R) (v x : Array R) : Prop where
  size : x.size = v.size
  le : ∀ y, y.size = v.size → penalized f rho v x ≤ penalized f rho v y

/-- `HasSlope f x g`: the term stays above its value at `x` with the slope `g`. -/
def HasSlope (f : Array R → R) (x : Array R) (g : Nat → R) : Prop :=
  ∀ y, y.size = x.size →
    f x + ∑ i ∈ Finset.range x.size, g i * (Vec.entry y i - Vec.entry x i) ≤ f y

/-- `UnboundedBelow f n`: the values at the points of `n` entries get below every number. -/
def UnboundedBelow (f : Array R → R) (n : Nat) : Prop := ∀ b, ∃ y, y.size = n ∧ f y < b

theorem squareDistance_nonneg (x y : Array R) : 0 ≤ squareDistance x y :=
  Finset.sum_nonneg fun _ _ => sq_nonneg _

theorem eq_of_squareDistance_eq_zero (hsize : y.size = x.size) (h : squareDistance x y = 0) : y = x := by
  refine Vec.ext_entry hsize fun i hi => ?_
  have hzero := (Finset.sum_eq_zero_iff_of_nonneg fun _ _ => sq_nonneg _).1 h i
    (Finset.mem_range.2 (hsize ▸ hi))
  exact sub_eq_zero.1 (pow_eq_zero_iff two_ne_zero |>.1 hzero)

theorem two_eq : (2.0 : R) = 2 := by
  rw [ofScientific_eq_cast]
  norm_num

theorem half_eq : (0.5 : R) = 1 / 2 := by
  rw [ofScientific_eq_cast]
  norm_num

theorem penalized_eq (f : Array R → R) (rho : R) (v x : Array R) :
    penalized f rho v x = f x + rho / 2 * squareDistance v x := by
  rw [penalized, two_eq]

/-- Without a penalty only the term counts. -/
theorem penalized_zero (f : Array R → R) (v x : Array R) : penalized f 0 v x = f x := by
  rw [penalized, zero_div, zero_mul, add_zero]

theorem IsProx.le_of_eq_zero (h : IsProx f rho v x) (hrho : rho = 0) (hy : y.size = v.size) : f x ≤ f y := by
  have hle := h.le y hy
  rwa [hrho, penalized_zero, penalized_zero] at hle

/-- What has a minimum is bounded. -/
theorem IsProx.not_unboundedBelow {n : Nat} (h : IsProx f rho v x) (hv : v.size = n) :
    ¬ UnboundedBelow (penalized f rho v) n := by
  intro hbelow
  obtain ⟨y, hy, hlt⟩ := hbelow (penalized f rho v x)
  exact absurd (h.le y (hy.trans hv.symm)) hlt.not_ge

namespace HasSlope

/-- A sum of terms in one entry each has the slopes that they have. -/
theorem of_entries (term : Nat → R → R) (h : ∀ i, i < x.size → ∀ t,
      term i (Vec.entry x i) + g i * (t - Vec.entry x i) ≤ term i t) :
    HasSlope (fun y => ∑ i ∈ Finset.range x.size, term i (Vec.entry y i)) x g := by
  intro y _
  rw [← Finset.sum_add_distrib]
  exact Finset.sum_le_sum fun i hi => h i (Finset.mem_range.1 hi) _

/-- Only the slopes at the entries matter. -/
theorem congr {g' : Nat → R} (h : HasSlope f x g) (hg : ∀ i, i < x.size → g' i = g i) : HasSlope f x g' := by
  intro y hy
  rw [Finset.sum_congr rfl fun i hi => by rw [hg i (Finset.mem_range.1 hi)]]
  exact h y hy

variable (h : HasSlope f x fun i => rho * (Vec.entry v i - Vec.entry x i)) (hsize : x.size = v.size)
include h hsize

/-- What another point loses, the penalty on its distance from `x` is part of. -/
theorem penalized_add_le (hy : y.size = v.size) :
    penalized f rho v x + rho / 2 * squareDistance x y ≤ penalized f rho v y := by
  have hsplit : rho / 2 * squareDistance v x + rho / 2 * squareDistance x y
      = rho / 2 * squareDistance v y + ∑ i ∈ Finset.range x.size,
          rho * (Vec.entry v i - Vec.entry x i) * (Vec.entry y i - Vec.entry x i) := by
    rw [squareDistance, squareDistance, squareDistance, hsize, Finset.mul_sum, Finset.mul_sum,
      Finset.mul_sum, ← Finset.sum_add_distrib, ← Finset.sum_add_distrib]
    exact Finset.sum_congr rfl fun i _ => by ring
  have hslope := h y (hy.trans hsize.symm)
  rw [penalized_eq, penalized_eq, add_assoc, hsplit]
  linarith

theorem isProx (hrho : 0 ≤ rho) : IsProx f rho v x := by
  refine ⟨hsize, fun y hy => ?_⟩
  have hloss : 0 ≤ rho / 2 * squareDistance x y :=
    mul_nonneg (div_nonneg hrho zero_le_two) (squareDistance_nonneg x y)
  exact le_trans (le_add_of_nonneg_right hloss) (h.penalized_add_le hsize hy)

/-- With a penalty no other point is as good. -/
theorem eq_of_penalized_le (hrho : 0 < rho) (hy : y.size = v.size)
    (hle : penalized f rho v y ≤ penalized f rho v x) : y = x := by
  have hloss := (h.penalized_add_le hsize hy).trans hle
  have hdistance : rho / 2 * squareDistance x y ≤ 0 := by linarith
  refine eq_of_squareDistance_eq_zero (hy.trans hsize.symm) (le_antisymm ?_ (squareDistance_nonneg x y))
  exact nonpos_of_mul_nonpos_right hdistance (half_pos hrho)

end HasSlope

end BlockAdmm
