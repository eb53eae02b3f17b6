/-
  The soft threshold minimizes a sum of absolute values.

  On one component `y` of the argument the soft threshold at `alpha / r` has the slope `r * (w - y)`
  (`slope_shrunk`).  Where the factor `β` of a component is not zero, a penalty `rho` on `x` is one of
  `rho / β²` on the component, so that slope, taken back to `x`, is the one that a proximal point needs.
  Where `β` is zero the component does not depend on `x`, and where there is no penalty the component is
  made zero.  In every case the point that the operator gives has the right slopes (`hasSlope_apply`).
-/
import BlockAdmm.Proofs.Prox.Scaling
import BlockAdmm.Prox.Operator

namespace BlockAdmm

open Scalar ExactScalar

variable {R : Type} [ExactScalar R]

/-- `s.absSum alpha x = alpha * ∑ |β_i x_i + g_i|`. -/
def Scaling.absSum (s : Scaling R) (alpha : R) (x : Array R) : R :=
  alpha * ∑ i ∈ Finset.range s.beta.size,
    |Vec.entry s.beta i * Vec.entry x i + Vec.entry s.offset i|

/-! ## One component -/

/-- The absolute value, `k` times as steep, has the slope `w - y` at the soft threshold `y` of `w`. -/
theorem slope_softThreshold {k : R} (hk : 0 ≤ k) (w t : R) :
    k * |softThreshold k w| + (w - softThreshold k w) * (t - softThreshold k w) ≤ k * |t| := by
  rw [softThreshold]
  split
  · -- above the threshold the absolute value is increasing with slope `k`
    rename_i hw
    rw [abs_of_nonneg (sub_nonneg.2 hw.le)]
    calc k * (w - k) + (w - (w - k)) * (t - (w - k)) = k * t := by ring
      _ ≤ k * |t| := mul_le_mul_of_nonneg_left (le_abs_self t) hk
  split
  · -- below it is decreasing
    rename_i hw
    rw [abs_of_nonpos (by linarith)]
    calc k * -(w + k) + (w - (w + k)) * (t - (w + k)) = k * -t := by ring
      _ ≤ k * |t| := mul_le_mul_of_nonneg_left (neg_le_abs t) hk
  · -- at zero every slope between `-k` and `k` will do
    rename_i hle hge
    have hw : |w| ≤ k := abs_le.2 ⟨not_lt.1 hge, not_lt.1 hle⟩
    rw [abs_zero, mul_zero, zero_add, sub_zero, sub_zero]
    calc w * t ≤ |w * t| := le_abs_self _
      _ = |w| * |t| := abs_mul w t
      _ ≤ k * |t| := mul_le_mul_of_nonneg_right hw (abs_nonneg t)

/-- `shrunk alpha r w`: the component that minimizes `alpha * |y| + (r / 2) * (y - w)²`. -/
def shrunk (alpha r w : R) : R := if 0 < r then softThreshold (alpha / r) w else 0

theorem slope_shrunk {alpha r : R} (halpha : 0 ≤ alpha) (hr : 0 ≤ r) (w t : R) :
    alpha * |shrunk alpha r w| + r * (w - shrunk alpha r w) * (t - shrunk alpha r w) ≤ alpha * |t| := by
  rw [shrunk]
  split
  · rename_i hpos
    have hslope := mul_le_mul_of_nonneg_left (slope_softThreshold (div_nonneg halpha hr) w t) hr
    rwa [mul_add, ← mul_assoc, ← mul_assoc, ← mul_assoc, mul_div_cancel₀ alpha hpos.ne'] at hslope
  · rename_i hpos
    rw [le_antisymm (not_lt.1 hpos) hr, abs_zero, mul_zero, zero_mul, zero_mul, zero_add]
    exact mul_nonneg halpha (abs_nonneg t)

/-- A component with the factor `beta`, as a function of the entry of `x` on which it depends. -/
theorem slope_component {alpha rho beta : R} (halpha : 0 ≤ alpha) (hrho : 0 ≤ rho) (hbeta : beta ≠ 0)
    (g v t : R) :
    let x := (shrunk alpha (rho / (beta * beta)) (beta * v + g) - g) / beta
    alpha * |beta * x + g| + rho * (v - x) * (t - x) ≤ alpha * |beta * t + g| := by
  intro x
  have hslope := slope_shrunk (r := rho / (beta * beta)) halpha
    (div_nonneg hrho (mul_self_nonneg beta)) (beta * v + g) (beta * t + g)
  have hx : beta * x + g = shrunk alpha (rho / (beta * beta)) (beta * v + g) := by
    rw [mul_div_cancel₀ _ hbeta, sub_add_cancel]
  rw [← hx] at hslope
  refine le_of_eq_of_le (congrArg (alpha * |beta * x + g| + ·) ?_) hslope
  field_simp
  ring

/-! ## The operator -/

namespace NormL1Operator

variable {s : Scaling R} {n i : Nat} {alpha rho : R} {v : Array R}

theorem apply_eq_moved (s : Scaling R) (alpha rho : R) (v : Array R) :
    apply ⟨alpha, s.rates rho, s⟩ v = s.moved rho (shrunk alpha) v := rfl

theorem size_apply (hs : s.Sized n) (hv : v.size = n) :
    (apply ⟨alpha, s.rates rho, s⟩ v).size = n := by
  rw [apply_eq_moved, hs.size_moved hv]

theorem entry_apply (hs : s.Sized n) (hv : v.size = n) (hi : i < n) :
    Vec.entry (apply ⟨alpha, s.rates rho, s⟩ v) i
      = if Vec.entry s.beta i = 0 then Vec.entry v i
        else (shrunk alpha (rho / (Vec.entry s.beta i * Vec.entry s.beta i))
          (Vec.entry s.beta i * Vec.entry v i + Vec.entry s.offset i) - Vec.entry s.offset i)
            / Vec.entry s.beta i := by
  rw [apply_eq_moved, hs.entry_moved hv hi, Scaling.component]

/-- The point that the operator gives has the slopes of a proximal point. -/
theorem hasSlope_apply (hs : s.Sized n) (halpha : 0 ≤ alpha) (hrho : 0 ≤ rho) (hv : v.size = n) :
    HasSlope (s.absSum alpha) (apply ⟨alpha, s.rates rho, s⟩ v) fun i =>
      rho * (Vec.entry v i - Vec.entry (apply ⟨alpha, s.rates rho, s⟩ v) i) := by
  have hsum : s.absSum alpha = fun y => ∑ i ∈ Finset.range (apply ⟨alpha, s.rates rho, s⟩ v).size,
      alpha * |Vec.entry s.beta i * Vec.entry y i + Vec.entry s.offset i| := by
    funext y
    rw [Scaling.absSum, Finset.mul_sum, size_apply hs hv, hs.beta]
  rw [hsum]
  refine HasSlope.of_entries (fun i t => alpha * |Vec.entry s.beta i * t + Vec.entry s.offset i|)
    fun i hi t => ?_
  rw [size_apply hs hv] at hi
  rw [entry_apply hs hv hi]
  split
  · rename_i hbeta
    rw [hbeta, zero_mul, zero_mul, sub_self, mul_zero, zero_mul, add_zero]
  · rename_i hbeta
    exact slope_component halpha hrho hbeta _ _ t

end NormL1Operator

/-- A sum of absolute values has a proximal point for every point, whatever factors are zero, and the
    operator gives it.  With a penalty there is no other, and without one it minimizes the term alone. -/
theorem normL1_isProx {input : TermInput R} {s : Scaling R} {n : Nat} (hs : input.scaling = .ok s)
    (hsize : s.Sized n) (halpha : 0 ≤ input.function.alpha) (hrho : 0 ≤ input.rho) :
    ∃ o : Operator R, Family.normL1.init input = .ok o ∧ ∀ v : Array R, v.size = n →
      ∃ x, o.apply v = pure x ∧ IsProx (s.absSum input.function.alpha) input.rho v x ∧
        (0 < input.rho → ∀ y, y.size = n →
          penalized (s.absSum input.function.alpha) input.rho v y
            ≤ penalized (s.absSum input.function.alpha) input.rho v x → y = x) ∧
        (input.rho = 0 → ∀ y, y.size = n →
          s.absSum input.function.alpha x ≤ s.absSum input.function.alpha y) := by
  refine ⟨.normL1 ⟨input.function.alpha, s.rates input.rho, s⟩, ?_, fun v hv => ⟨_, rfl, ?_⟩⟩
  · rw [Family.init, NormL1Operator.of, hs]
    rfl
  have hslope := NormL1Operator.hasSlope_apply hsize halpha hrho hv
  have hx : (NormL1Operator.apply ⟨input.function.alpha, s.rates input.rho, s⟩ v).size = v.size :=
    (NormL1Operator.size_apply hsize hv).trans hv.symm
  have hprox := hslope.isProx hx hrho
  refine ⟨hprox, fun hpos y hy => ?_, fun hzero y hy => ?_⟩
  · exact hslope.eq_of_penalized_le hx hpos (hy.trans hv.symm)
  · exact hprox.le_of_eq_zero hzero (hy.trans hv.symm)

/-- Two components, of which the second does not depend on the variable. -/
def halfFlat : TermInput ℚ where
  function := ⟨.normL1, 1, false⟩
  args := [⟨⟨[("x", .diagonal #[2, 0] none)], List.pairwise_singleton ..⟩, #[1, -3], 2, 1⟩]
  layout := ⟨⟨[("x", 2)], List.pairwise_singleton ..⟩⟩
  rho := 4

/-- The first component is taken towards zero, and the second entry stays. -/
theorem normL1_isProx_halfFlat :
    halfFlat.scaling = .ok ⟨#[2, 0], #[1, -3]⟩ ∧ (⟨#[2, 0], #[1, -3]⟩ : Scaling ℚ).Sized 2 ∧
      (0 : ℚ) ≤ halfFlat.function.alpha ∧ (0 : ℚ) < halfFlat.rho ∧
      ∃ o : Operator ℚ, Family.normL1.init halfFlat = .ok o ∧ o.apply #[2, 7] = pure #[3 / 2, 7] ∧
        IsProx ((⟨#[2, 0], #[1, -3]⟩ : Scaling ℚ).absSum 1) 4 #[2, 7] #[3 / 2, 7] := by
  have hscaling : halfFlat.scaling = .ok ⟨#[2, 0], #[1, -3]⟩ := rfl
  have hsize : (⟨#[2, 0], #[1, -3]⟩ : Scaling ℚ).Sized 2 := ⟨rfl, rfl⟩
  have halpha : (0 : ℚ) ≤ halfFlat.function.alpha := by decide +kernel
  have hrho : (0 : ℚ) < halfFlat.rho := by decide +kernel
  obtain ⟨o, ho, happly⟩ := normL1_isProx hscaling hsize halpha hrho.le
  obtain ⟨x, hx, hprox, -⟩ := happly #[2, 7] rfl
  have hvalue : Operator.apply o #[2, 7] = pure #[3 / 2, 7] := by
    cases ho
    exact congrArg pure (eq_of_beq (by decide +kernel))
  obtain rfl : x = #[3 / 2, 7] := Except.ok.inj (congrArg Logged.outcome (hx.symm.trans hvalue))
  exact ⟨hscaling, hsize, halpha, hrho, o, ho, hvalue, hprox⟩

end BlockAdmm
