/-
  The proximal operator of negative logarithms.

  In one component `y` of the argument, the term `-alpha * log y` and a penalty `r` on the distance from `w`
  balance where `r * (y - w) * y = alpha`.  The operator takes the greater root of this equation, which is the
  only positive one (`negLogPoint_pos`, `mul_negLogPoint`, `eq_negLogPoint`), however far `w` is from the
  domain.  With the factor `β` of the component and the penalty `rho / β²` this is a balance in the entry of
  the point (`balances_iff`), whatever the sign of `β`.  Where `β` is zero the entry stays.  So the operator
  can fail only before it is applied: there is no balance if a component moves and nothing holds it
  (`negLog_balances`).
-/
import BlockAdmm.Proofs.Prox.Scaling
import BlockAdmm.Prox.Operator

namespace BlockAdmm

open Scalar ExactScalar

/-! ## One component -/

section Component

variable {R : Type} [ExactRoots R] {alpha r w y : R}

theorem four_eq : (4.0 : R) = 4 := by
  rw [ofScientific_eq_cast]
  norm_num

theorem negLogPoint_eq (w alpha r : R) :
    negLogPoint w alpha r = (w + Scalar.sqrt (w ^ 2 + 4 * alpha / r)) / 2 := by
  rw [negLogPoint, four_eq, two_eq, pow_two]

/-- The point lies in the domain of the logarithm. -/
theorem negLogPoint_pos (halpha : 0 < alpha) (hr : 0 < r) (w : R) : 0 < negLogPoint w alpha r := by
  have hterm : 0 < 4 * alpha / r := div_pos (mul_pos four_pos halpha) hr
  have hsquare : |w| ^ 2 < Scalar.sqrt (w ^ 2 + 4 * alpha / r) ^ 2 := by
    rw [sqrt_sq (add_nonneg (sq_nonneg w) hterm.le), sq_abs]
    exact lt_add_of_pos_right _ hterm
  have hroot : |w| < Scalar.sqrt (w ^ 2 + 4 * alpha / r) :=
    lt_of_pow_lt_pow_left₀ 2 (sqrt_nonneg (add_nonneg (sq_nonneg w) hterm.le)) hsquare
  have hw : -|w| ≤ w := neg_abs_le w
  rw [negLogPoint_eq]
  exact half_pos (by linarith)

theorem mul_negLogPoint (halpha : 0 < alpha) (hr : 0 < r) (w : R) :
    r * (negLogPoint w alpha r - w) * negLogPoint w alpha r = alpha := by
  have hterm : 0 < 4 * alpha / r := div_pos (mul_pos four_pos halpha) hr
  have hroot := sqrt_sq (add_nonneg (sq_nonneg w) hterm.le)
  rw [negLogPoint_eq]
  calc r * ((w + Scalar.sqrt (w ^ 2 + 4 * alpha / r)) / 2 - w) * ((w + Scalar.sqrt (w ^ 2 + 4 * alpha / r)) / 2)
      = r * (Scalar.sqrt (w ^ 2 + 4 * alpha / r) ^ 2 - w ^ 2) / 4 := by ring
    _ = r * (4 * alpha / r) / 4 := by rw [hroot, add_sub_cancel_left]
    _ = alpha := by rw [mul_div_cancel₀ _ hr.ne', mul_div_cancel_left₀ _ four_ne_zero]

/-- There is no other balance in the domain. -/
theorem eq_negLogPoint (halpha : 0 < alpha) (hr : 0 < r) (hy : 0 < y) (h : r * (y - w) * y = alpha) :
    y = negLogPoint w alpha r := by
  have hpoint := negLogPoint_pos halpha hr w
  have hbalance := mul_negLogPoint halpha hr w
  generalize negLogPoint w alpha r = z at hpoint hbalance
  -- the point is above `w`, so the other root is negative
  have habove : 0 < z - w := by
    by_contra hle
    have hnonpos := mul_nonpos_of_nonpos_of_nonneg (mul_nonpos_of_nonneg_of_nonpos hr.le (not_lt.1 hle)) hpoint.le
    linarith
  have hproduct : r * (y + (z - w)) * (y - z) = 0 := by linear_combination h - hbalance
  exact sub_eq_zero.1 ((mul_eq_zero.1 hproduct).resolve_left (mul_pos hr (add_pos hy habove)).ne')

end Component

namespace NegLogOperator

/-! ## One entry -/

section Entry

variable {R : Type} [ExactRoots R] {alpha rho beta g v t : R}

/-- `Balances alpha rho beta g v t`: at the entry `t` the component `beta * t + g` is in the domain of the
    logarithm, and the slopes of the term and of the penalty on the distance from `v` cancel. -/
structure Balances (alpha rho beta g v t : R) : Prop where
  pos : 0 < beta * t + g
  slope : rho * (t - v) = alpha * beta / (beta * t + g)

/-- A balance in the entry is a balance in its component. -/
theorem balances_iff (halpha : 0 < alpha) (hrho : 0 < rho) (hbeta : beta ≠ 0) :
    Balances alpha rho beta g v t ↔
      beta * t + g = negLogPoint (beta * v + g) alpha (rho / (beta * beta)) := by
  have hr : 0 < rho / (beta * beta) := div_pos hrho (mul_self_pos.2 hbeta)
  have hscale (y : R) : rho / (beta * beta) * (beta * t + g - (beta * v + g)) * y = alpha ↔
      rho * (t - v) * y = alpha * beta := by
    rw [show rho / (beta * beta) * (beta * t + g - (beta * v + g)) * y = rho * (t - v) * y / beta by
      field_simp
      ring]
    exact div_eq_iff hbeta
  constructor
  · intro h
    exact eq_negLogPoint halpha hr h.pos ((hscale _).2 ((eq_div_iff h.pos.ne').1 h.slope))
  · intro h
    have hpos : 0 < beta * t + g := h ▸ negLogPoint_pos halpha hr _
    refine ⟨hpos, (eq_div_iff hpos.ne').2 ((hscale _).1 ?_)⟩
    rw [h]
    exact mul_negLogPoint halpha hr _

end Entry

/-! ## The operator -/

variable {s : Scaling ℝ} {n i : Nat} {alpha rho : ℝ} {v : Array ℝ}

/-- A rate is zero just if there is no penalty and the component is not constant. -/
theorem any_rates_iff (hs : s.Sized n) : (s.rates rho).any (fun r => r == 0) = true ↔
    rho = 0 ∧ ∃ i, i < n ∧ Vec.entry s.beta i ≠ 0 := by
  rw [Vec.any_iff, Scaling.size_rates, hs.beta]
  have hrate (i : Nat) (hi : i < n) : (Vec.entry (s.rates rho) i == 0) = true ↔
      rho = 0 ∧ Vec.entry s.beta i ≠ 0 := by
    rw [beq_iff_eq, s.entry_rates rho (hs.beta ▸ hi)]
    split
    · rename_i hbeta
      -- the rate of a constant component stands for no bound
      exact iff_of_false one_ne_zero fun h => h.2 hbeta
    · rename_i hbeta
      rw [div_eq_zero_iff, or_iff_left (mul_self_ne_zero.2 hbeta), and_iff_left hbeta]
  constructor
  · rintro ⟨i, hi, hzero⟩
    exact ⟨((hrate i hi).1 hzero).1, i, hi, ((hrate i hi).1 hzero).2⟩
  · rintro ⟨hrho, i, hi, hbeta⟩
    exact ⟨i, hi, (hrate i hi).2 ⟨hrho, hbeta⟩⟩

theorem apply_eq_moved (s : Scaling ℝ) (alpha rho : ℝ) (v : Array ℝ) :
    apply ⟨alpha, s.rates rho, s⟩ v = s.moved rho (fun r w => negLogPoint w alpha r) v := by
  -- every rate is an ordinary number
  have hfinite : (fun r w : ℝ => if Scalar.isFinite r = true then negLogPoint w alpha r else w)
      = fun r w => negLogPoint w alpha r := by
    funext r w
    exact if_pos rfl
  rw [← hfinite]
  rfl

theorem size_apply (hs : s.Sized n) (hv : v.size = n) :
    (apply ⟨alpha, s.rates rho, s⟩ v).size = n := by
  rw [apply_eq_moved, hs.size_moved hv]

theorem entry_apply (hs : s.Sized n) (hv : v.size = n) (hi : i < n) :
    Vec.entry (apply ⟨alpha, s.rates rho, s⟩ v) i
      = if Vec.entry s.beta i = 0 then Vec.entry v i
        else (negLogPoint (s.component v i) alpha (rho / (Vec.entry s.beta i * Vec.entry s.beta i))
          - Vec.entry s.offset i) / Vec.entry s.beta i := by
  rw [apply_eq_moved, hs.entry_moved hv hi]

/-- Where the factor is not zero, the entry that the operator gives is the one that balances. -/
theorem balances_apply (hs : s.Sized n) (halpha : 0 < alpha) (hrho : 0 < rho) (hv : v.size = n) (hi : i < n)
    (hbeta : Vec.entry s.beta i ≠ 0) {t : ℝ} :
    Balances alpha rho (Vec.entry s.beta i) (Vec.entry s.offset i) (Vec.entry v i) t ↔
      t = Vec.entry (apply ⟨alpha, s.rates rho, s⟩ v) i := by
  rw [balances_iff halpha hrho hbeta, entry_apply hs hv hi, if_neg hbeta, eq_div_iff hbeta, eq_sub_iff_add_eq,
    mul_comm t]
  rfl

end NegLogOperator

/-- The operator of negative logarithms is there unless some component moves without a penalty.  Then for
    every point the entries on which nothing depends stay, and each of the others becomes the only one that
    balances. -/
theorem negLog_balances {input : TermInput ℝ} {s : Scaling ℝ} {n : Nat} (hs : input.scaling = .ok s)
    (hsize : s.Sized n) (halpha : 0 < input.function.alpha) (hrho : 0 ≤ input.rho) :
    ((input.rho = 0 ∧ ∃ i, i < n ∧ Vec.entry s.beta i ≠ 0) →
      (Family.negLog.init input : Outcome (Operator ℝ)) = fail .negLogUnbounded) ∧
    (¬ (input.rho = 0 ∧ ∃ i, i < n ∧ Vec.entry s.beta i ≠ 0) →
      ∃ o : Operator ℝ, Family.negLog.init input = .ok o ∧ ∀ v : Array ℝ, v.size = n →
        ∃ x, o.apply v = pure x ∧ x.size = n ∧ ∀ i, i < n →
          (Vec.entry s.beta i = 0 → Vec.entry x i = Vec.entry v i) ∧
          (Vec.entry s.beta i ≠ 0 →
            NegLogOperator.Balances input.function.alpha input.rho (Vec.entry s.beta i) (Vec.entry s.offset i)
              (Vec.entry v i) (Vec.entry x i) ∧
            ∀ t, NegLogOperator.Balances input.function.alpha input.rho (Vec.entry s.beta i) (Vec.entry s.offset i)
              (Vec.entry v i) t → t = Vec.entry x i)) := by
  have hof : NegLogOperator.of input = if (s.rates input.rho).any (fun r => r == 0) = true
      then fail .negLogUnbounded else .ok ⟨input.function.alpha, s.rates input.rho, s⟩ := by
    rw [NegLogOperator.of, hs]
    rfl
  have hloose : _ ↔ (input.rho = 0 ∧ _) := NegLogOperator.any_rates_iff hsize
  refine ⟨fun h => ?_, fun h => ?_⟩
  · rw [Family.init, hof, if_pos (hloose.2 h)]
    rfl
  refine ⟨.negLog ⟨input.function.alpha, s.rates input.rho, s⟩, ?_, fun v hv => ?_⟩
  · rw [Family.init, hof, if_neg (mt hloose.1 h)]
    rfl
  refine ⟨_, rfl, NegLogOperator.size_apply hsize hv, fun i hi => ⟨fun hbeta => ?_, fun hbeta => ?_⟩⟩
  · rw [NegLogOperator.entry_apply hsize hv hi, if_pos hbeta]
  · have hpos : 0 < input.rho := hrho.lt_of_ne' fun hzero => h ⟨hzero, i, hi, hbeta⟩
    have hbalances {t : ℝ} := NegLogOperator.balances_apply hsize halpha hpos hv hi hbeta (t := t)
    exact ⟨hbalances.2 rfl, fun t => hbalances.1⟩

/-- An entry with a negative factor, whose component is outside of the domain, and one on which nothing
    depends. -/
theorem negLog_balances_descending :
    (⟨#[-2, 0], #[1, -3]⟩ : Scaling ℝ).Sized 2 ∧ (0 : ℝ) < 2 ∧ (0 : ℝ) ≤ 4 ∧
      (TermInput.ofScaling ⟨.negLog, 2, false⟩ ⟨#[-2, 0], #[1, -3]⟩ 2 1 4).scaling
        = .ok (⟨#[-2, 0], #[1, -3]⟩ : Scaling ℝ) ∧
      ∃ o : Operator ℝ, Family.negLog.init (.ofScaling ⟨.negLog, 2, false⟩ ⟨#[-2, 0], #[1, -3]⟩ 2 1 4) = .ok o ∧
        o.apply #[1, 7] = pure #[0, 7] := by
  have hsize : (⟨#[-2, 0], #[1, -3]⟩ : Scaling ℝ).Sized 2 := ⟨rfl, rfl⟩
  have hscaling := TermInput.scaling_ofScaling (m := 2) (n := 1) hsize ⟨.negLog, 2, false⟩ 4
  obtain ⟨o, ho, happly⟩ := (negLog_balances hscaling hsize two_pos four_pos.le).2 fun h => four_ne_zero h.1
  obtain ⟨x, hx, hx2, hentries⟩ := happly #[1, 7] rfl
  have hmoves : Vec.entry (#[-2, 0] : Array ℝ) 0 ≠ 0 := neg_ne_zero.2 two_ne_zero
  -- zero balances, so it is the first entry
  have hfirst : NegLogOperator.Balances (2 : ℝ) 4 (-2) 1 1 0 := ⟨by norm_num, by norm_num⟩
  have hvalue : x = #[0, 7] := by
    refine Vec.ext_entry hx2 fun i hi => ?_
    rw [hx2] at hi
    interval_cases i
    · exact (((hentries 0 two_pos).2 hmoves).2 0 hfirst).symm
    · exact (hentries 1 one_lt_two).1 rfl
  exact ⟨hsize, two_pos, four_pos.le, hscaling, o, ho, hvalue ▸ hx⟩

end BlockAdmm
