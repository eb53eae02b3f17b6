/-
  The block shrinkage minimizes a Euclidean norm.

  A proximal point is a balance: the penalty pulls the argument back to where it was with a force that the
  norm can hold, which is a vector of length `alpha` at most, and of length `alpha` in the direction of the
  argument wherever the argument is not zero.  The factor by which the operator scales the argument strikes
  this balance for every length, also without a penalty and for the zero vector (`balanced_shrinkage`).
  Against any other point it is then the inequality of Cauchy and Schwarz (`slope_scale`), and the way back
  from the argument to the variable does not change anything (`hasSlope_apply`).
-/
import BlockAdmm.Proofs.Prox.Scaling
import BlockAdmm.Prox.Operator

namespace BlockAdmm

open Scalar ExactScalar

variable {R : Type} [ExactRoots R]

/-- `s.euclidean alpha x = alpha * |β x + g|`. -/
def Scaling.euclidean (s : Scaling R) (alpha : R) (x : Array R) : R :=
  alpha * Scalar.sqrt (∑ i ∈ Finset.range s.beta.size, s.component x i ^ 2)

theorem Scaling.euclidean_eq {s : Scaling R} {n : Nat} {x : Array R} (hs : s.Sized n) (hx : x.size = n)
    (alpha : R) : s.euclidean alpha x = alpha * Vec.norm (s.toArg x) := by
  rw [euclidean, Vec.norm, Vec.inner_eq_sum, hs.size_toArg hx, hs.beta]
  refine congrArg (fun t => alpha * Scalar.sqrt t) (Finset.sum_congr rfl fun i hi => ?_)
  rw [hs.entry_toArg hx (Finset.mem_range.1 hi), pow_two]

namespace NormL2Operator

/-! ## The factor -/

/-- `Balanced alpha r t k`: to scale an argument of length `t` by `k` pulls it back, with the penalty `r`, by
    `alpha` at most, and by just as much unless nothing is left of it. -/
structure Balanced (alpha r t k : R) : Prop where
  nonneg : 0 ≤ k
  pull_nonneg : 0 ≤ r * (1 - k)
  pull_le : r * (1 - k) * t ≤ alpha
  pull_eq : k * t * (alpha - r * (1 - k) * t) = 0

theorem balanced_shrinkage {o : NormL2Operator R} {t : R} (halpha : 0 ≤ o.alpha) (hrate : 0 ≤ o.rate)
    (ht : 0 ≤ t) : Balanced o.alpha o.rate t (o.shrinkage t) := by
  -- where nothing is left, the penalty must not pull harder than `alpha`
  have hnothing (hle : o.rate * t ≤ o.alpha) : Balanced o.alpha o.rate t 0 := by
    refine ⟨le_rfl, ?_, ?_, by rw [zero_mul, zero_mul]⟩
    · rwa [sub_zero, mul_one]
    · rwa [sub_zero, mul_one]
  rw [shrinkage]
  split_ifs with hpos
  · obtain ⟨hr, ht⟩ : 0 < o.rate ∧ 0 < t := by simpa only [Bool.and_eq_true, decide_eq_true_eq] using hpos
    have hrt : 0 < o.rate * t := mul_pos hr ht
    rw [show Scalar.larger (1 - o.alpha / (o.rate * t)) 0 = max _ 0 from larger_eq _ _]
    rcases le_total (o.rate * t) o.alpha with hle | hle
    · rw [max_eq_right (sub_nonpos.2 ((one_le_div hrt).2 hle))]
      exact hnothing hle
    · rw [max_eq_left (sub_nonneg.2 ((div_le_one hrt).2 hle))]
      have hpull : o.rate * (1 - (1 - o.alpha / (o.rate * t))) * t = o.alpha := by
        rw [sub_sub_cancel, mul_right_comm, mul_div_cancel₀ _ hrt.ne']
      refine ⟨sub_nonneg.2 ((div_le_one hrt).2 hle), ?_, hpull.le, ?_⟩
      · rw [sub_sub_cancel]
        exact mul_nonneg hrate (div_nonneg halpha hrt.le)
      · rw [hpull, sub_self, mul_zero]
  · have hzero : o.rate * t = 0 := by
      by_contra hne
      obtain ⟨hr, ht'⟩ := mul_ne_zero_iff.1 hne
      exact hpos (by simp only [hrate.lt_of_ne' hr, ht.lt_of_ne' ht', decide_true, Bool.and_self])
    exact hnothing (hzero.trans_le halpha)

/-! ## The argument -/

/-- A balanced argument has the slope `r * (w - y)`. -/
theorem slope_scale {alpha r k : R} {w : Array R} (h : Balanced alpha r (Vec.norm w) k) :
    HasSlope (fun y => alpha * Vec.norm y) (Vec.scale k w) fun i =>
      r * (Vec.entry w i - Vec.entry (Vec.scale k w) i) := by
  intro z hz
  rw [Vec.size_scale] at hz
  dsimp only
  have hslope : ∑ i ∈ Finset.range (Vec.scale k w).size,
        r * (Vec.entry w i - Vec.entry (Vec.scale k w) i) * (Vec.entry z i - Vec.entry (Vec.scale k w) i)
      = r * (1 - k) * (Vec.inner w z - k * Vec.norm w ^ 2) := by
    rw [Vec.norm_sq, Vec.inner_eq_sum, Vec.inner_eq_sum, Vec.size_scale, Finset.mul_sum,
      ← Finset.sum_sub_distrib, Finset.mul_sum]
    refine Finset.sum_congr rfl fun i _ => ?_
    rw [Vec.entry_scale]
    ring
  rw [hslope, Vec.norm_scale, abs_of_nonneg h.nonneg]
  calc alpha * (k * Vec.norm w) + r * (1 - k) * (Vec.inner w z - k * Vec.norm w ^ 2)
      = r * (1 - k) * Vec.inner w z := by linear_combination h.pull_eq
    _ ≤ r * (1 - k) * (Vec.norm w * Vec.norm z) :=
        mul_le_mul_of_nonneg_left (Vec.inner_le_norm_mul_norm hz) h.pull_nonneg
    _ = r * (1 - k) * Vec.norm w * Vec.norm z := (mul_assoc ..).symm
    _ ≤ alpha * Vec.norm z := mul_le_mul_of_nonneg_right h.pull_le (Vec.norm_nonneg z)

/-! ## The operator -/

variable {s : Scaling R} {n : Nat} {alpha rho b : R} {v : Array R}

theorem of_eq {input : TermInput R} (hs : input.scaling = .ok s) (huniform : s.Uniform n b) :
    NormL2Operator.of input = .ok ⟨input.function.alpha, input.rho / (b * b), s⟩ := by
  refine bind_eq_ok.2 ⟨s, hs, ?_⟩
  rw [huniform.uniform?]
  rfl

theorem size_apply (hs : s.Uniform n b) (hv : v.size = n) :
    (apply ⟨alpha, rho / (b * b), s⟩ v).size = n :=
  hs.size_fromArg ((Vec.size_scale ..).trans (hs.size_toArg hv)) hv

/-- The point that the operator gives has the slopes of a proximal point. -/
theorem hasSlope_apply (hs : s.Uniform n b) (halpha : 0 ≤ alpha) (hrho : 0 ≤ rho) (hv : v.size = n) :
    HasSlope (s.euclidean alpha) (apply ⟨alpha, rho / (b * b), s⟩ v) fun i =>
      rho * (Vec.entry v i - Vec.entry (apply ⟨alpha, rho / (b * b), s⟩ v) i) := by
  have hbalanced := balanced_shrinkage (o := ⟨alpha, rho / (b * b), s⟩) halpha
    (div_nonneg hrho (mul_self_nonneg b)) (Vec.norm_nonneg (s.toArg v))
  have hslope := hs.hasSlope ((Vec.size_scale ..).trans (hs.size_toArg hv)) hv (slope_scale hbalanced)
  intro y hy
  rw [Scaling.euclidean_eq hs.toSized (size_apply hs hv),
    Scaling.euclidean_eq hs.toSized (hy.trans (size_apply hs hv))]
  exact hslope y hy

end NormL2Operator

/-- The norm of a uniformly scaled argument has a proximal point for every point, and the operator gives it.
    With a penalty there is no other. -/
theorem normL2_isProx {input : TermInput R} {s : Scaling R} {n : Nat} {b : R} (hs : input.scaling = .ok s)
    (huniform : s.Uniform n b) (halpha : 0 ≤ input.function.alpha) (hrho : 0 ≤ input.rho) :
    ∃ o : Operator R, Family.normL2.init input = .ok o ∧ ∀ v : Array R, v.size = n →
      ∃ x, o.apply v = pure x ∧ IsProx (s.euclidean input.function.alpha) input.rho v x ∧
        (0 < input.rho → ∀ y, y.size = n →
          penalized (s.euclidean input.function.alpha) input.rho v y
            ≤ penalized (s.euclidean input.function.alpha) input.rho v x → y = x) := by
  refine ⟨.normL2 ⟨input.function.alpha, input.rho / (b * b), s⟩, ?_, fun v hv => ⟨_, rfl, ?_⟩⟩
  · rw [Family.init, NormL2Operator.of_eq hs huniform]
    rfl
  have hslope := NormL2Operator.hasSlope_apply huniform halpha hrho hv
  have hx : (NormL2Operator.apply ⟨input.function.alpha, input.rho / (b * b), s⟩ v).size = v.size :=
    (NormL2Operator.size_apply huniform hv).trans hv.symm
  exact ⟨hslope.isProx hx hrho, fun hpos y hy => hslope.eq_of_penalized_le hx hpos (hy.trans hv.symm)⟩

/-- An argument of length five loses one. -/
theorem NormL2Operator.apply_doubled :
    apply ⟨1, 4 / (2 * 2), ⟨#[2, 2], #[1, 0]⟩⟩ #[1, 2] = (#[7 / 10, 8 / 5] : Array ℝ) := by
  have hnorm : Vec.norm (#[2 * 1 + 1, 2 * 2 + 0] : Array ℝ) = 5 := by
    refine sqrt_eq_of_sq (by norm_num) ?_
    show (5 : ℝ) ^ 2 = 0 + (2 * 1 + 1) * (2 * 1 + 1) + (2 * 2 + 0) * (2 * 2 + 0)
    norm_num
  have hfactor : shrinkage ⟨1, 4 / (2 * 2), ⟨#[2, 2], #[1, 0]⟩⟩ (5 : ℝ) = 4 / 5 := by
    rw [shrinkage, if_pos (by norm_num)]
    show max (1 - 1 / (4 / (2 * 2) * 5) : ℝ) 0 = 4 / 5
    norm_num
  show (⟨#[2, 2], #[1, 0]⟩ : Scaling ℝ).fromArg (Vec.scale (shrinkage _ (Vec.norm #[2 * 1 + 1, 2 * 2 + 0]))
    #[2 * 1 + 1, 2 * 2 + 0]) #[1, 2] = _
  rw [hnorm, hfactor]
  have hs : (⟨#[2, 2], #[1, 0]⟩ : Scaling ℝ).Sized 2 := ⟨rfl, rfl⟩
  have hsize : (Vec.scale (4 / 5) #[2 * 1 + 1, 2 * 2 + 0] : Array ℝ).size = 2 := Vec.size_scale ..
  refine Vec.ext_entry (hs.size_fromArg hsize rfl) fun i hi => ?_
  rw [hs.size_fromArg hsize rfl] at hi
  rw [hs.entry_fromArg hsize rfl hi, Vec.entry_scale]
  interval_cases i
  · show (if (2 : ℝ) = 0 then _ else (4 / 5 * (2 * 1 + 1) - 1) / 2) = (7 / 10 : ℝ)
    norm_num
  · show (if (2 : ℝ) = 0 then _ else (4 / 5 * (2 * 2 + 0) - 0) / 2) = (8 / 5 : ℝ)
    norm_num

/-- Two entries under the factor two: the point that comes back is the proximal point. -/
theorem normL2_isProx_doubled :
    (⟨#[2, 2], #[1, 0]⟩ : Scaling ℝ).Uniform 2 2 ∧ (0 : ℝ) ≤ 1 ∧ (0 : ℝ) ≤ 4 ∧
      (TermInput.ofScaling ⟨.normL2, 1, false⟩ ⟨#[2, 2], #[1, 0]⟩ 2 1 4).scaling
        = .ok (⟨#[2, 2], #[1, 0]⟩ : Scaling ℝ) ∧
      ∃ o : Operator ℝ, Family.normL2.init (.ofScaling ⟨.normL2, 1, false⟩ ⟨#[2, 2], #[1, 0]⟩ 2 1 4) = .ok o ∧
        o.apply #[1, 2] = pure #[7 / 10, 8 / 5] ∧
        IsProx ((⟨#[2, 2], #[1, 0]⟩ : Scaling ℝ).euclidean 1) 4 #[1, 2] #[7 / 10, 8 / 5] := by
  have huniform : (⟨#[2, 2], #[1, 0]⟩ : Scaling ℝ).Uniform 2 2 := by
    refine ⟨⟨rfl, rfl⟩, two_pos, two_ne_zero, fun i hi => ?_⟩
    interval_cases i <;> rfl
  have hscaling := TermInput.scaling_ofScaling (m := 2) (n := 1) huniform.toSized ⟨.normL2, 1, false⟩ 4
  obtain ⟨o, ho, happly⟩ := normL2_isProx hscaling huniform zero_le_one four_pos.le
  obtain ⟨x, hx, hprox, -⟩ := happly #[1, 2] rfl
  have hvalue : o.apply #[1, 2] = pure #[7 / 10, 8 / 5] := by
    rw [Family.init, NormL2Operator.of_eq hscaling huniform] at ho
    cases ho
    exact congrArg pure NormL2Operator.apply_doubled
  obtain rfl : x = #[7 / 10, 8 / 5] := Except.ok.inj (congrArg Logged.outcome (hx.symm.trans hvalue))
  exact ⟨huniform, zero_le_one, four_pos.le, hscaling, o, ho, hvalue, hprox⟩

end BlockAdmm
