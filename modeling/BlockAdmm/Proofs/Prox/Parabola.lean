/-
  Smooth functions under a parabola.

  A step of Newton's method goes to the lowest point of the parabola with the slope and the curvature of the
  problem.  If the function itself is not above a parabola with its slope and at most twice its curvature, then
  a part of the step that is not too long brings the decrease that the parabola promises (`Under`).  The
  functions on the positive numbers are under such a parabola to the right, the exponential is to the left, and
  the logistic function is at distances up to one.

  A step that went to the right can only be followed by one to the right if it does not go too far.  The
  derivative of a function on the positive numbers is concave and that of the exponential is convex, so for
  these functions the steps do stay on one side of the balance (`OnSide.step`), except that the domain stops a
  component at its floor.
-/
import BlockAdmm.Proofs.Prox.Descent

namespace BlockAdmm.SmoothFunction

open Scalar ExactScalar

variable {f : SmoothFunction} {k y e g b r t : ℝ}

/-! ## Values -/

theorem feasibleFloor_eq : (feasibleFloor : ℝ) = 1 / 10 ^ 6 := by
  rw [feasibleFloor, ofScientific_eq_cast]
  norm_num

theorem feasibleFloor_pos : (0 : ℝ) < feasibleFloor := by
  rw [feasibleFloor_eq]
  norm_num

theorem value_invPos (hy : 0 < y) : invPos.value y = 1 / y := if_pos hy

theorem value_negLog (hy : 0 < y) : negLog.value y = -Real.log y := if_pos hy

theorem value_logistic (y : ℝ) : logistic.value y = Real.log (1 + Real.exp y) := by
  show max y 0 + Real.log (1 + Real.exp (-|y|)) = _
  rcases le_total 0 y with hy | hy
  · have hfactor : 1 + Real.exp y = Real.exp y * (1 + Real.exp (-y)) := by
      rw [mul_add, mul_one, ← Real.exp_add, add_neg_cancel, Real.exp_zero, add_comm]
    have hpos : 1 + Real.exp (-y) ≠ 0 := by positivity
    rw [max_eq_left hy, abs_of_nonneg hy, hfactor, Real.log_mul (Real.exp_ne_zero y) hpos, Real.log_exp]
  · rw [max_eq_right hy, abs_of_nonpos hy, neg_neg, zero_add]

theorem sigmoid_eq (y : ℝ) : sigmoid y = Real.exp y / (1 + Real.exp y) := by
  rw [sigmoid]
  split
  · show 1 / (1 + Real.exp (-y)) = _
    rw [Real.exp_neg]
    field_simp
    ring
  · rfl

theorem sigmoid_mem (y : ℝ) : 0 < sigmoid y ∧ sigmoid y < 1 := by
  have hexp := Real.exp_pos y
  rw [sigmoid_eq]
  constructor
  · positivity
  · rw [div_lt_one (by positivity)]
    linarith

theorem curvature_nonneg (hy : f.fullDomain = false → 0 < y) : 0 ≤ f.curvature y := by
  cases f with
  | invPos =>
    have hy := hy rfl
    rw [curvature, two_eq]
    positivity
  | negLog =>
    have hy := hy rfl
    rw [curvature]
    positivity
  | exp => exact (Real.exp_pos y).le
  | logistic =>
    obtain ⟨hpos, hlt⟩ := sigmoid_mem y
    exact mul_nonneg hpos.le (sub_nonneg.2 hlt.le)
  | sumSquare =>
    rw [curvature, two_eq]
    exact zero_le_two

/-! ## Parabolas -/

/-- `f.Under k y e`: at a distance `e` from `y` the function is not above the parabola with its slope at `y`
    and `2 * k` times its curvature there. -/
def Under (f : SmoothFunction) (k y e : ℝ) : Prop :=
  f.value (y + e) ≤ f.value y + f.slope y * e + k * f.curvature y * e ^ 2

theorem under_invPos (hy : 0 < y) (he : 0 ≤ e) : invPos.Under (1 / 2) y e := by
  have hsum : 0 < y + e := by linarith
  rw [Under, value_invPos hy, value_invPos hsum, slope, curvature, two_eq]
  have hgap : 1 / y + -1 / (y * y) * e + 1 / 2 * (2 / (y * y * y)) * e ^ 2 - 1 / (y + e)
      = e ^ 3 / (y ^ 3 * (y + e)) := by
    field_simp
    ring
  have hpos : 0 ≤ e ^ 3 / (y ^ 3 * (y + e)) := by positivity
  linarith

theorem under_negLog (hy : 0 < y) (he : 0 ≤ e) : negLog.Under (1 / 2) y e := by
  have hsum : 0 < y + e := by linarith
  rw [Under, value_negLog hy, value_negLog hsum, slope, curvature]
  -- the logarithm of `1 + u` is at least `2 u / (u + 2)`
  have hu : 0 ≤ e / y := by positivity
  have hlog := Real.le_log_one_add_of_nonneg hu
  have hsplit : Real.log (y + e) = Real.log y + Real.log (1 + e / y) := by
    rw [← Real.log_mul hy.ne' (by positivity), mul_add, mul_one, mul_div_cancel₀ _ hy.ne']
  have hgap : 2 * (e / y) / (e / y + 2) - (e / y - (e / y) ^ 2 / 2) = (e / y) ^ 3 / (2 * (e / y + 2)) := by
    field_simp
    ring
  have hpos : 0 ≤ (e / y) ^ 3 / (2 * (e / y + 2)) := by positivity
  have hparabola : -1 / y * e + 1 / 2 * (1 / (y * y)) * e ^ 2 = -(e / y - (e / y) ^ 2 / 2) := by
    field_simp
    ring
  linarith

theorem under_of_restricted (hdomain : f.fullDomain = false) (hy : 0 < y) (he : 0 ≤ e) : f.Under (1 / 2) y e := by
  cases f with
  | invPos => exact under_invPos hy he
  | negLog => exact under_negLog hy he
  | exp => cases hdomain
  | logistic => cases hdomain
  | sumSquare => cases hdomain

theorem under_exp (he : e ≤ 0) : exp.Under (1 / 2) y e := by
  show Real.exp (y + e) ≤ Real.exp y + Real.exp y * e + 1 / 2 * Real.exp y * e ^ 2
  have hone : Real.exp e ≤ 1 + e + e ^ 2 / 2 := by
    have hquadratic := Real.quadratic_le_exp_of_nonneg (neg_nonneg.2 he)
    rw [Real.exp_neg, neg_sq] at hquadratic
    have hpos : 0 < 1 + -e + e ^ 2 / 2 := by nlinarith [sq_nonneg e]
    have hinv := inv_anti₀ hpos hquadratic
    rw [inv_inv] at hinv
    refine hinv.trans ?_
    rw [inv_le_iff_one_le_mul₀ hpos]
    nlinarith [sq_nonneg (e ^ 2)]
  rw [Real.exp_add]
  calc Real.exp y * Real.exp e ≤ Real.exp y * (1 + e + e ^ 2 / 2) :=
        mul_le_mul_of_nonneg_left hone (Real.exp_pos y).le
    _ = Real.exp y + Real.exp y * e + 1 / 2 * Real.exp y * e ^ 2 := by ring

/-- At a distance of one at most, `log (1 + exp y)` is under the parabola with twice its curvature. -/
theorem under_logistic (he : |e| ≤ 1) : logistic.Under 1 y e := by
  obtain ⟨hpos, hlt⟩ := sigmoid_mem y
  have hrest : 0 < 1 - sigmoid y := sub_pos.2 hlt
  show logistic.value (y + e) ≤ logistic.value y + sigmoid y * e + 1 * (sigmoid y * (1 - sigmoid y)) * e ^ 2
  rw [value_logistic, value_logistic, one_mul]
  -- the increase is the logarithm of a mean of two exponentials
  have hmean : 1 + Real.exp (y + e) = (1 + Real.exp y) * Real.exp (sigmoid y * e)
      * ((1 - sigmoid y) * Real.exp (-sigmoid y * e) + sigmoid y * Real.exp ((1 - sigmoid y) * e)) := by
    have hone : Real.exp (sigmoid y * e) * Real.exp (-sigmoid y * e) = 1 := by
      rw [← Real.exp_add, ← add_mul, add_neg_cancel, zero_mul, Real.exp_zero]
    have htwo : Real.exp (sigmoid y * e) * Real.exp ((1 - sigmoid y) * e) = Real.exp e := by
      rw [← Real.exp_add, ← add_mul, add_sub_cancel, one_mul]
    calc 1 + Real.exp (y + e) = (1 + Real.exp y) * ((1 - sigmoid y) + sigmoid y * Real.exp e) := by
          rw [sigmoid_eq, Real.exp_add]
          field_simp
          ring
      _ = (1 + Real.exp y) * ((1 - sigmoid y) * (Real.exp (sigmoid y * e) * Real.exp (-sigmoid y * e))
            + sigmoid y * (Real.exp (sigmoid y * e) * Real.exp ((1 - sigmoid y) * e))) := by rw [hone, htwo, mul_one]
      _ = _ := by ring
  have hleft := abs_le.1 (Real.abs_exp_sub_one_sub_id_le (x := -sigmoid y * e) (by
    rw [abs_mul, abs_neg, abs_of_pos hpos]
    exact mul_le_one₀ hlt.le (abs_nonneg e) he))
  have hright := abs_le.1 (Real.abs_exp_sub_one_sub_id_le (x := (1 - sigmoid y) * e) (by
    rw [abs_mul, abs_of_pos hrest]
    exact mul_le_one₀ (by linarith) (abs_nonneg e) he))
  have hbound : (1 - sigmoid y) * Real.exp (-sigmoid y * e) + sigmoid y * Real.exp ((1 - sigmoid y) * e)
      ≤ 1 + sigmoid y * (1 - sigmoid y) * e ^ 2 := by
    have hl := mul_le_mul_of_nonneg_left hleft.2 hrest.le
    have hr := mul_le_mul_of_nonneg_left hright.2 hpos.le
    nlinarith
  have hmeanpos : 0 < (1 - sigmoid y) * Real.exp (-sigmoid y * e) + sigmoid y * Real.exp ((1 - sigmoid y) * e) := by
    positivity
  have hexp : (0 : ℝ) < 1 + Real.exp y := by positivity
  rw [hmean, Real.log_mul (by positivity) hmeanpos.ne', Real.log_mul hexp.ne' (Real.exp_ne_zero _), Real.log_exp]
  linarith [Real.log_le_sub_one_of_pos hmeanpos]

theorem under_sumSquare : sumSquare.Under (1 / 2) y e := by
  rw [Under, value, value, slope, curvature, two_eq]
  exact (by ring : (y + e) * (y + e) = y * y + 2 * y * e + 1 / 2 * 2 * e ^ 2).le

/-! ## Sides -/

/-- `f.OnSide y g`: the side of the balance that the components of an iteration stay on, where `g` is the
    derivative of the problem at the component.  The exponential and the functions on the positive numbers are
    left on one side by every step, but for a component at the floor. -/
def OnSide (f : SmoothFunction) (y g : ℝ) : Prop :=
  match f with
  | invPos | negLog => feasibleFloor ≤ y ∧ (g ≤ 0 ∨ y = feasibleFloor)
  | exp => 0 ≤ g
  | logistic | sumSquare => True

theorem onSide_iff (hdomain : f.fullDomain = false) :
    f.OnSide y g ↔ feasibleFloor ≤ y ∧ (g ≤ 0 ∨ y = feasibleFloor) := by
  cases f with
  | invPos => exact Iff.rfl
  | negLog => exact Iff.rfl
  | exp => cases hdomain
  | logistic => cases hdomain
  | sumSquare => cases hdomain

theorem OnSide.pos (h : f.OnSide y g) (hdomain : f.fullDomain = false) : 0 < y :=
  feasibleFloor_pos.trans_le ((onSide_iff hdomain).1 h).1

theorem slope_nonpos (hdomain : f.fullDomain = false) (hy : 0 < y) : f.slope y ≤ 0 := by
  cases f with
  | invPos => exact div_nonpos_of_nonpos_of_nonneg (by norm_num) (mul_self_nonneg y)
  | negLog => exact div_nonpos_of_nonpos_of_nonneg (by norm_num) hy.le
  | exp => cases hdomain
  | logistic => cases hdomain
  | sumSquare => cases hdomain

/-- To the right the derivative of a function on the positive numbers grows more slowly than at `y`. -/
theorem slope_add_le (hdomain : f.fullDomain = false) (hy : 0 < y) (he : 0 ≤ e) :
    f.slope (y + e) ≤ f.slope y + f.curvature y * e := by
  have hsum : 0 < y + e := by linarith
  cases f with
  | invPos =>
    rw [slope, slope, curvature, two_eq]
    have hgap : -1 / (y * y) + 2 / (y * y * y) * e - -1 / ((y + e) * (y + e))
        = e ^ 2 * (3 * y + 2 * e) / (y ^ 3 * (y + e) ^ 2) := by
      field_simp
      ring
    have hpos : 0 ≤ e ^ 2 * (3 * y + 2 * e) / (y ^ 3 * (y + e) ^ 2) := by positivity
    linarith
  | negLog =>
    rw [slope, slope, curvature]
    have hgap : -1 / y + 1 / (y * y) * e - -1 / (y + e) = e ^ 2 / (y ^ 2 * (y + e)) := by
      field_simp
      ring
    have hpos : 0 ≤ e ^ 2 / (y ^ 2 * (y + e)) := by positivity
    linarith
  | exp => cases hdomain
  | logistic => cases hdomain
  | sumSquare => cases hdomain

/-- The derivative of the exponential lies above its tangents. -/
theorem le_slope_exp_add (y e : ℝ) : exp.slope y + exp.curvature y * e ≤ exp.slope (y + e) := by
  show Real.exp y + Real.exp y * e ≤ Real.exp (y + e)
  rw [Real.exp_add]
  nlinarith [Real.add_one_le_exp e, Real.exp_pos y]

/-- The iteration starts on the side: at a component that was moved into the domain the penalty does not
    pull, or the component is at the floor. -/
theorem onSide_start (f : SmoothFunction) (hb : 0 ≤ b) (r y : ℝ) :
    f.OnSide (f.raised y) (b * f.slope (f.raised y) + r * (f.raised y - y)) := by
  cases hdomain : f.fullDomain with
  | false =>
    rw [onSide_iff hdomain, raised_of_restricted hdomain]
    refine ⟨le_max_right _ _, ?_⟩
    rcases le_total feasibleFloor y with hy | hy
    · left
      rw [max_eq_left hy, sub_self, mul_zero, add_zero]
      exact mul_nonpos_of_nonneg_of_nonpos hb (slope_nonpos hdomain (feasibleFloor_pos.trans_le hy))
    · right
      exact max_eq_right hy
  | true =>
    rw [raised_of_full hdomain, sub_self, mul_zero, add_zero]
    cases f with
    | invPos => cases hdomain
    | negLog => cases hdomain
    | exp => exact mul_nonneg hb (Real.exp_pos y).le
    | logistic => trivial
    | sumSquare => trivial

/-- A step of at most the length that Newton's method takes stays on the side, when it is moved into the domain.
    Here `b` weighs the function and `r` the penalty. -/
theorem OnSide.step (h : f.OnSide y g) (hb : 0 ≤ b) (hr : 0 < r) (ht : 0 ≤ t) (hone : t ≤ 1)
    (he : e = t * -(g / (b * f.curvature y + r))) :
    f.OnSide (f.raised (y + e))
      (g + b * (f.slope (f.raised (y + e)) - f.slope y) + r * (f.raised (y + e) - y)) := by
  have hcurved : 0 < b * f.curvature y + r := add_pos_of_nonneg_of_pos (mul_nonneg hb (curvature_nonneg h.pos)) hr
  -- to first order the step takes the share `t` of the derivative away
  have hshare : g + (b * f.curvature y + r) * e = g * (1 - t) := by
    rw [he]
    field_simp
    ring
  cases hdomain : f.fullDomain with
  | false =>
    obtain ⟨hy, hside⟩ := (onSide_iff hdomain).1 h
    rw [onSide_iff hdomain, raised_of_restricted hdomain]
    refine ⟨le_max_right _ _, ?_⟩
    rcases le_or_gt g 0 with hg | hg
    · left
      have hright : 0 ≤ e := by
        rw [he]
        exact mul_nonneg ht (neg_nonneg.2 (div_nonpos_of_nonpos_of_nonneg hg hcurved.le))
      have hslope := mul_le_mul_of_nonneg_left (slope_add_le hdomain (feasibleFloor_pos.trans_le hy) hright) hb
      have hleft : g * (1 - t) ≤ 0 := mul_nonpos_of_nonpos_of_nonneg hg (sub_nonneg.2 hone)
      rw [max_eq_left (by linarith)]
      linarith
    · right
      have hfloor : y = feasibleFloor := hside.resolve_left hg.not_ge
      have hleft : e ≤ 0 := by
        rw [he]
        exact mul_nonpos_of_nonneg_of_nonpos ht (neg_nonpos.2 (div_nonneg hg.le hcurved.le))
      exact max_eq_right (by linarith)
  | true =>
    rw [raised_of_full hdomain, add_sub_cancel_left]
    cases f with
    | invPos => cases hdomain
    | negLog => cases hdomain
    | exp =>
      have hg : 0 ≤ g := h
      have hslope := mul_le_mul_of_nonneg_left (le_slope_exp_add y e) hb
      have hleft : 0 ≤ g * (1 - t) := mul_nonneg hg (sub_nonneg.2 hone)
      show 0 ≤ g + b * (exp.slope (y + e) - exp.slope y) + r * e
      linarith
    | logistic => trivial
    | sumSquare => trivial

end BlockAdmm.SmoothFunction
