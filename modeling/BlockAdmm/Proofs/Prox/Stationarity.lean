/-
  Where Newton iterations end.

  An iteration ends where the direction is negligible, or where no step of a search was accepted and what is
  left of the direction is negligible.  The second does not say that the point is near the minimizer.  For a
  problem whose terms depend on one component each (`Separable`), it is said here when that happens.

  As long as every component moves where its function is under a parabola, and none is stopped by the domain,
  a step brings a quarter of what it promises and is accepted (`Proper.not_rejects`).  The components keep to
  one side of their balance, from which all steps lead under the parabolas (`Sided`).  So a search can be in
  vain only for two reasons (`Stuck`).  A component stands at the floor of its domain and the direction leads
  below; it stays where it is, but its share of the promised decrease is asked of the other components.  Or a
  component of the logistic function would move so far that even the shortest step is too long for it.

  The first does happen.  In `floored` one component stands at the floor, and the other never gets to move
  (`minimize_unsettled`).
-/
import BlockAdmm.Proofs.Prox.Parabola

namespace BlockAdmm.Newton

open Scalar ExactScalar Newton.Objective

/-- A problem of which every term depends on one component. -/
structure Separable (R : Type) where
  f : SmoothFunction
  alpha : R
  s : Scaling R
  rho : R

namespace Separable

section Entries

variable {R : Type} [ExactScalar R] {p : Separable R} {n i : Nat} {v x dir : Array R} {phi t : R}

/-- `p.objective`: the problem as one to be minimized. -/
def objective (p : Separable R) : Objective R := ⟨p.f.smooth, p.alpha, .scaling p.s, p.rho⟩

/-- `p.term v x i`: what the component adds to the value. -/
def term (p : Separable R) (v x : Array R) (i : Nat) : R :=
  p.alpha * p.f.value (p.s.component x i) + p.rho / 2.0 * (Vec.entry x i - Vec.entry v i) ^ 2

theorem term_eq (p : Separable R) (v x : Array R) (i : Nat) : p.term v x i
    = p.alpha * p.f.value (p.s.component x i) + p.rho / 2 * (Vec.entry x i - Vec.entry v i) ^ 2 := by
  rw [term, two_eq]

/-- `p.gradient v x i`: the derivative of the term. -/
def gradient (p : Separable R) (v x : Array R) (i : Nat) : R :=
  p.rho * (Vec.entry x i - Vec.entry v i) + p.alpha * Vec.entry p.s.beta i * p.f.slope (p.s.component x i)

/-- `p.curvature x i`: the second derivative of the term. -/
def curvature (p : Separable R) (x : Array R) (i : Nat) : R :=
  p.alpha * Vec.entry p.s.beta i ^ 2 * p.f.curvature (p.s.component x i) + p.rho

/-- `p.pull v x i`: the derivative in the component, up to a positive factor. -/
def pull (p : Separable R) (v x : Array R) (i : Nat) : R := Vec.entry p.s.beta i * p.gradient v x i

/-- `p.push dir i`: how far the component moves with a direction. -/
def push (p : Separable R) (dir : Array R) (i : Nat) : R := Vec.entry p.s.beta i * Vec.entry dir i

/-- `p.Proper n`: there are `n` components, each of which depends on its entry, and the weights are positive. -/
structure Proper (n : Nat) (p : Separable R) : Prop extends p.s.Sized n where
  factor : ∀ i, i < n → Vec.entry p.s.beta i ≠ 0
  alpha_pos : 0 < p.alpha
  rho_pos : 0 < p.rho

theorem Proper.sized (hp : p.Proper n) : p.objective.map.Sized n n := ⟨rfl, hp.toSized⟩

theorem Proper.value_eq_ok (hp : p.Proper n) (hv : v.size = n) (hx : x.size = n) :
    p.objective.value v x = .ok phi ↔ phi = ∑ i ∈ Finset.range n, p.term v x i := by
  have hsum : p.alpha * p.f.eval (p.s.toArg x) + p.rho / 2 * squareDistance v x
      = ∑ i ∈ Finset.range n, p.term v x i := by
    rw [SmoothFunction.eval, Vec.total_map, hp.size_toArg hx, squareDistance, hv, Finset.mul_sum, Finset.mul_sum,
      ← Finset.sum_add_distrib]
    refine Finset.sum_congr rfl fun i hi => ?_
    rw [hp.entry_toArg hx (Finset.mem_range.1 hi), term_eq]
  rw [Objective.value_eq_ok (hx.trans hv.symm), ← hsum]
  constructor
  · rintro ⟨y, hy, rfl⟩
    cases hy
    rfl
  · rintro rfl
    exact ⟨p.s.toArg x, rfl, rfl⟩

/-- The step has an entry for each component: its derivative, and the way to the lowest point of its parabola. -/
theorem Proper.step_eq_ok {st : Step R} (hp : p.Proper n) (hv : v.size = n) (hx : x.size = n)
    (hcurved : ∀ i, i < n → 0 < p.curvature x i) (hst : p.objective.step v x = .ok st) :
    st.grad.size = n ∧ st.dir.size = n ∧ ∀ i, i < n → Vec.entry st.grad i = p.gradient v x i ∧
      Vec.entry st.dir i = -p.gradient v x i / p.curvature x i := by
  obtain ⟨y, hy, hst⟩ := bind_eq_ok.1 hst
  cases hy
  obtain ⟨hgrad, hdir, hentry⟩ := Objective.scaledStep_eq_ok (hx.trans hv.symm) hst
  rw [hv] at hgrad hdir hentry
  refine ⟨hgrad, hdir, fun i hi => ?_⟩
  obtain ⟨hg, hd⟩ := hentry i hi
  have hi' : i < (p.s.toArg x).size := (hp.size_toArg hx).symm ▸ hi
  have hslope : Vec.entry (p.objective.f.grad (p.s.toArg x)) i = p.f.slope (p.s.component x i) :=
    (Vec.entry_map_of_lt _ hi').trans (congrArg _ (hp.entry_toArg hx hi))
  have hcurvature : Vec.entry (p.objective.f.hess (p.s.toArg x)) i = p.f.curvature (p.s.component x i) :=
    (Vec.entry_map_of_lt _ hi').trans (congrArg _ (hp.entry_toArg hx hi))
  rw [hslope] at hg
  rw [hcurvature, mul_assoc p.objective.alpha, ← pow_two, hg] at hd
  exact ⟨hg, hd.trans (if_pos (hcurved i hi))⟩

theorem Proper.exists_step (hp : p.Proper n) (hv : v.size = n) (hx : x.size = n) :
    ∃ st, p.objective.step v x = .ok st := by
  have hsize : (p.s.toArg x).size = n := hp.size_toArg hx
  have hends := ends_scaledStep (E := fun _ => False) (o := p.objective) hp.toSized hv hx
    ((p.f.size_grad _).trans hsize) ((p.f.size_hess _).trans hsize)
  cases hst : p.objective.step v x with
  | ok st => exact ⟨st, rfl⟩
  | error f => exact (hends.of_eq_error hst).elim

theorem component_advanced (hdir : dir.size = x.size) (hi : i < x.size) (t : R) :
    p.s.component (advanced x t dir) i = p.s.component x i + t * p.push dir i := by
  rw [Scaling.component, advanced, hdir, Nat.min_self, Vec.entry_build _ hi, Scaling.component, push]
  ring

theorem Proper.component_trial (hp : p.Proper n) (hx : x.size = n) (hdir : dir.size = n) (hi : i < n) (t : R) :
    p.s.component (p.objective.trial x dir t) i = p.f.raised (p.s.component x i + t * p.push dir i) := by
  have hsize : (advanced x t dir).size = n := by rw [advanced, Vec.size_build, hx, hdir, Nat.min_self]
  rw [Objective.trial, Objective.component_feasible rfl hp.toSized rfl hsize hi (hp.factor i hi),
    component_advanced (hdir.trans hx.symm) (hx.symm ▸ hi)]

/-- An entry is known by its component. -/
theorem Proper.entry_eq (hp : p.Proper n) (hi : i < n) {y : R}
    (h : p.s.component x i = Vec.entry p.s.beta i * y + Vec.entry p.s.offset i) : Vec.entry x i = y :=
  mul_left_cancel₀ (hp.factor i hi) (add_right_cancel h)

/-- Where no component is stopped by the domain, the trial is the step. -/
theorem Proper.entry_trial (hp : p.Proper n) (hx : x.size = n) (hdir : dir.size = n) (hi : i < n)
    (hinside : p.f.raised (p.s.component x i + t * p.push dir i) = p.s.component x i + t * p.push dir i) :
    Vec.entry (p.objective.trial x dir t) i = Vec.entry x i + t * Vec.entry dir i := by
  refine hp.entry_eq hi ?_
  rw [hp.component_trial hx hdir hi, hinside, Scaling.component, push]
  ring

end Entries

section Reals

variable {p : Separable ℝ} {n : Nat} {v x dir : Array ℝ} {phi slope k t : ℝ} {st : Step ℝ}

/-! ## Steps that must be accepted -/

theorem Proper.curvature_pos (hp : p.Proper n) {i : Nat} {g : ℝ} (h : p.f.OnSide (p.s.component x i) g) :
    0 < p.curvature x i := by
  have hweight : 0 ≤ p.alpha * Vec.entry p.s.beta i ^ 2 := mul_nonneg hp.alpha_pos.le (sq_nonneg _)
  exact add_pos_of_nonneg_of_pos (mul_nonneg hweight (SmoothFunction.curvature_nonneg h.pos)) hp.rho_pos

/-- Under a parabola a part of the step brings a quarter of what the derivative promises. -/
theorem Proper.term_trial_le (hp : p.Proper n) {i : Nat} {d : ℝ} (hk : 1 / 2 ≤ k) (ht : 0 ≤ t)
    (hkt : k * t ≤ 3 / 4) (hcurved : 0 < p.curvature x i) (hd : d = -p.gradient v x i / p.curvature x i)
    (hunder : p.f.Under k (p.s.component x i) (t * (Vec.entry p.s.beta i * d))) :
    p.alpha * p.f.value (p.s.component x i + t * (Vec.entry p.s.beta i * d))
        + p.rho / 2 * (Vec.entry x i + t * d - Vec.entry v i) ^ 2
      ≤ p.term v x i + 1 / 4 * t * (p.gradient v x i * d) := by
  have hbalance : p.curvature x i * d = -p.gradient v x i := by
    rw [hd, mul_div_cancel₀ _ hcurved.ne']
  have hpromise : p.gradient v x i * d ≤ 0 := by
    have hsquare : p.gradient v x i * d = -(p.curvature x i * d ^ 2) := by linear_combination d * hbalance
    rw [hsquare, neg_nonpos]
    exact mul_nonneg hcurved.le (sq_nonneg d)
  have hfunction := mul_le_mul_of_nonneg_left hunder hp.alpha_pos.le
  have hpenalty : p.rho / 2 * (t * d) ^ 2 ≤ k * p.rho * (t * d) ^ 2 :=
    mul_le_mul_of_nonneg_right (by nlinarith [hp.rho_pos]) (sq_nonneg _)
  have hquadratic : k * p.curvature x i * (t * d) ^ 2 = -(k * t) * t * (p.gradient v x i * d) := by
    calc k * p.curvature x i * (t * d) ^ 2 = k * t ^ 2 * (p.curvature x i * d) * d := by ring
      _ = -(k * t) * t * (p.gradient v x i * d) := by rw [hbalance]; ring
  calc p.alpha * p.f.value (p.s.component x i + t * (Vec.entry p.s.beta i * d))
        + p.rho / 2 * (Vec.entry x i + t * d - Vec.entry v i) ^ 2
      ≤ p.alpha * (p.f.value (p.s.component x i)
          + p.f.slope (p.s.component x i) * (t * (Vec.entry p.s.beta i * d))
          + k * p.f.curvature (p.s.component x i) * (t * (Vec.entry p.s.beta i * d)) ^ 2)
        + (p.rho / 2 * (Vec.entry x i - Vec.entry v i) ^ 2
          + p.rho * (Vec.entry x i - Vec.entry v i) * (t * d) + k * p.rho * (t * d) ^ 2) := by
        nlinarith
    _ = p.term v x i + t * (p.gradient v x i * d) + k * p.curvature x i * (t * d) ^ 2 := by
        rw [term_eq, gradient, curvature]
        ring
    _ = p.term v x i + (1 - k * t) * (t * (p.gradient v x i * d)) := by
        rw [hquadratic]
        ring
    _ ≤ p.term v x i + 1 / 4 * t * (p.gradient v x i * d) := by
        have hshare := mul_nonpos_of_nonneg_of_nonpos ht hpromise
        nlinarith

/-- If all components are under such parabolas and none is stopped by the domain, the step is accepted. -/
theorem Proper.not_rejects (hp : p.Proper n) (hv : v.size = n) (hx : x.size = n) (hk : 1 / 2 ≤ k) (ht : 0 ≤ t)
    (hkt : k * t ≤ 3 / 4) (hcurved : ∀ i, i < n → 0 < p.curvature x i)
    (hst : p.objective.step v x = .ok st) (hslope : Vec.dot st.grad st.dir = .ok slope)
    (hphi : p.objective.value v x = .ok phi)
    (hunder : ∀ i, i < n → p.f.Under k (p.s.component x i) (t * p.push st.dir i))
    (hinside : ∀ i, i < n → p.f.raised (p.s.component x i + t * p.push st.dir i)
      = p.s.component x i + t * p.push st.dir i) :
    ¬ p.objective.Rejects v x st.dir phi slope t := by
  rintro ⟨phi', hphi', hnot⟩
  refine hnot ?_
  obtain ⟨hgrad, hdir, hentry⟩ := hp.step_eq_ok hv hx hcurved hst
  have hsize : (p.objective.trial x st.dir t).size = n := size_trial hp.sized hx hdir t
  obtain ⟨-, rfl⟩ := Vec.dot_eq_ok.1 hslope
  rw [hp.value_eq_ok hv hx] at hphi
  rw [hp.value_eq_ok hv hsize] at hphi'
  rw [hphi, hphi', Vec.inner_eq_sum, hgrad, decreaseShare_eq, Finset.mul_sum, ← Finset.sum_add_distrib]
  refine Finset.sum_le_sum fun i hi => ?_
  have hi := Finset.mem_range.1 hi
  obtain ⟨hg, hd⟩ := hentry i hi
  rw [term_eq, hp.component_trial hx hdir hi, hinside i hi, hp.entry_trial hx hdir hi (hinside i hi), hg]
  exact hp.term_trial_le hk ht hkt (hcurved i hi) hd (hunder i hi)

/-! ## Sides -/

/-- All components are on the side of their balance that the function keeps to. -/
structure Sided (n : Nat) (p : Separable ℝ) (v x : Array ℝ) (phi : ℝ) : Prop where
  size : x.size = n
  value : p.objective.value v x = .ok phi
  side : ∀ i, i < n → p.f.OnSide (p.s.component x i) (p.pull v x i)

theorem Proper.sided_start (hp : p.Proper n) (hv : v.size = n)
    (hphi : p.objective.value v (p.objective.feasible v) = .ok phi) :
    p.Sided n v (p.objective.feasible v) phi := by
  refine ⟨size_feasible hp.sized hv, hphi, fun i hi => ?_⟩
  have hcomponent := component_feasible (o := p.objective) rfl hp.toSized rfl hv hi (hp.factor i hi)
  have hweight : 0 ≤ p.alpha * Vec.entry p.s.beta i ^ 2 := mul_nonneg hp.alpha_pos.le (sq_nonneg _)
  have hpull : p.pull v (p.objective.feasible v) i
      = p.alpha * Vec.entry p.s.beta i ^ 2 * p.f.slope (p.f.raised (p.s.component v i))
        + p.rho * (p.f.raised (p.s.component v i) - p.s.component v i) := by
    rw [← hcomponent, pull, gradient, Scaling.component, Scaling.component]
    ring
  rw [hcomponent, hpull]
  exact SmoothFunction.onSide_start p.f hweight p.rho _

/-- An accepted step keeps the components on their side; so would any other part of the step. -/
theorem Proper.sided_trial (hp : p.Proper n) (hv : v.size = n) (hx : p.Sided n v x phi)
    (hst : p.objective.step v x = .ok st) (ht : 0 ≤ t) (hone : t ≤ 1) {phi' : ℝ}
    (hphi' : p.objective.value v (p.objective.trial x st.dir t) = .ok phi') :
    p.Sided n v (p.objective.trial x st.dir t) phi' := by
  have hcurved (i : Nat) (hi : i < n) := hp.curvature_pos (hx.side i hi)
  obtain ⟨-, hdir, hentry⟩ := hp.step_eq_ok hv hx.size hcurved hst
  refine ⟨size_trial hp.sized hx.size hdir t, hphi', fun i hi => ?_⟩
  have hcomponent := hp.component_trial hx.size hdir hi t
  have hweight : 0 ≤ p.alpha * Vec.entry p.s.beta i ^ 2 := mul_nonneg hp.alpha_pos.le (sq_nonneg _)
  have hpush : t * p.push st.dir i = t * -(p.pull v x i
      / (p.alpha * Vec.entry p.s.beta i ^ 2 * p.f.curvature (p.s.component x i) + p.rho)) := by
    rw [push, (hentry i hi).2, pull, curvature]
    ring
  have hpull : p.pull v (p.objective.trial x st.dir t) i = p.pull v x i
      + p.alpha * Vec.entry p.s.beta i ^ 2 * (p.f.slope (p.s.component (p.objective.trial x st.dir t) i)
        - p.f.slope (p.s.component x i))
      + p.rho * (p.s.component (p.objective.trial x st.dir t) i - p.s.component x i) := by
    rw [pull, pull, gradient, gradient]
    simp only [Scaling.component]
    ring
  rw [hpull, hcomponent]
  exact (hx.side i hi).step hweight hp.rho_pos ht hone hpush

/-! ## Ends -/

/-- Why a search for a better point can be in vain although the step is not negligible: a component at the floor
    that the direction leads below it, or one that it leads far beyond the reach of the logistic parabola. -/
def Stuck (n : Nat) (p : Separable ℝ) (x dir : Array ℝ) : Prop :=
  (p.f.fullDomain = false ∧
    ∃ i, i < n ∧ p.s.component x i = SmoothFunction.feasibleFloor ∧ p.push dir i < 0) ∨
  (p.f = .logistic ∧ ∃ i, i < n ∧ ((2 ^ 39 : Nat) : ℝ) < |p.push dir i|)

theorem Proper.stuck_of_rejects (hp : p.Proper n) (hv : v.size = n) (hx : p.Sided n v x phi)
    (hst : p.objective.step v x = .ok st) (hslope : Vec.dot st.grad st.dir = .ok slope)
    (hrejects : ∀ j < 40, p.objective.Rejects v x st.dir phi slope (shrink ^ j)) : p.Stuck n x st.dir := by
  by_contra hnot
  rw [Stuck, not_or, not_and, not_and] at hnot
  obtain ⟨hfloor, hreach⟩ := hnot
  have hcurved (i : Nat) (hi : i < n) := hp.curvature_pos (hx.side i hi)
  obtain ⟨-, -, hentry⟩ := hp.step_eq_ok hv hx.size hcurved hst
  have hpush (i : Nat) (hi : i < n) : p.push st.dir i = -(p.pull v x i / p.curvature x i) := by
    rw [push, (hentry i hi).2, pull]
    ring
  -- the whole step is accepted where it goes under the parabolas
  have hwhole (hunder : ∀ i, i < n → p.f.Under (1 / 2) (p.s.component x i) (p.push st.dir i))
      (hinside : ∀ i, i < n → p.f.raised (p.s.component x i + p.push st.dir i)
        = p.s.component x i + p.push st.dir i) : False := by
    have hfirst := hrejects 0 (by omega)
    rw [pow_zero] at hfirst
    refine hp.not_rejects hv hx.size (k := 1 / 2) (t := 1) le_rfl zero_le_one (by norm_num) hcurved hst hslope
      hx.value ?_ ?_ hfirst
    · simpa only [one_mul] using hunder
    · simpa only [one_mul] using hinside
  cases hdomain : p.f.fullDomain with
  | false =>
    have hright (i : Nat) (hi : i < n) : 0 ≤ p.push st.dir i := by
      obtain ⟨-, hside⟩ := (SmoothFunction.onSide_iff hdomain).1 (hx.side i hi)
      rcases hside with hpull | hlow
      · rw [hpush i hi]
        exact neg_nonneg.2 (div_nonpos_of_nonpos_of_nonneg hpull (hcurved i hi).le)
      · by_contra hneg
        exact hfloor hdomain ⟨i, hi, hlow, not_le.1 hneg⟩
    refine hwhole (fun i hi => ?_) fun i hi => ?_
    · have hpos := (hx.side i hi).pos hdomain
      exact SmoothFunction.under_of_restricted hdomain hpos (hright i hi)
    · obtain ⟨hy, -⟩ := (SmoothFunction.onSide_iff hdomain).1 (hx.side i hi)
      rw [SmoothFunction.raised_of_restricted hdomain]
      exact max_eq_left (by linarith [hright i hi])
  | true =>
    have hinside (y : ℝ) : p.f.raised y = y := SmoothFunction.raised_of_full hdomain y
    cases hf : p.f with
    | invPos => rw [hf] at hdomain; cases hdomain
    | negLog => rw [hf] at hdomain; cases hdomain
    | sumSquare =>
      refine hwhole (fun i hi => ?_) fun i hi => hinside _
      rw [hf]
      exact SmoothFunction.under_sumSquare
    | exp =>
      refine hwhole (fun i hi => ?_) fun i hi => hinside _
      have hpull : 0 ≤ p.pull v x i := by
        have hside := hx.side i hi
        rw [hf] at hside
        exact hside
      rw [hf, hpush i hi]
      exact SmoothFunction.under_exp (neg_nonpos.2 (div_nonneg hpull (hcurved i hi).le))
    | logistic =>
      -- the last step that was tried is short enough
      have hlast := hrejects 39 (by omega)
      rw [shrink_eq] at hlast
      refine hp.not_rejects hv hx.size (k := 1) (t := (1 / 2) ^ 39) (by norm_num) (by norm_num) (by norm_num) hcurved
        hst hslope hx.value (fun i hi => ?_) (fun i hi => hinside _) hlast
      have hle : |p.push st.dir i| ≤ ((2 ^ 39 : Nat) : ℝ) := by
        by_contra hlt
        exact hreach hf ⟨i, hi, not_le.1 hlt⟩
      rw [Nat.cast_pow, Nat.cast_two] at hle
      rw [hf]
      refine SmoothFunction.under_logistic ?_
      rw [abs_mul, abs_of_pos (by positivity : (0 : ℝ) < (1 / 2) ^ 39)]
      calc (1 / 2 : ℝ) ^ 39 * |p.push st.dir i| ≤ (1 / 2) ^ 39 * 2 ^ 39 :=
            mul_le_mul_of_nonneg_left hle (by positivity)
        _ = 1 := by norm_num

/-- Where the iteration ends, the direction is negligible; or it is not, but the fortieth half of it is, and the
    search is stuck.  With the exponential and with squares it is never stuck. -/
theorem minimize_settles (hp : p.Proper n) (hv : v.size = n) (hx : (p.objective.minimize v).outcome = .ok x) :
    x.size = n ∧ ∃ st, p.objective.step v x = .ok st ∧ st.dir.size = n ∧
      (∀ i, i < n → Vec.entry st.dir i = -p.gradient v x i / p.curvature x i) ∧
      (Vec.norm st.dir ≤ tolerance * (1 + Vec.norm x) ∨
        (1 / 2) ^ 40 * Vec.norm st.dir ≤ tolerance * (1 + Vec.norm x) ∧ p.Stuck n x st.dir) := by
  obtain ⟨phi, hsided, st, hst, hends⟩ := endsAt_of_minimize (I := p.Sided n v) (fun phi => hp.sided_start hv)
    (fun x phi st slope k phi' hx hst _ haccepts =>
      hp.sided_trial hv hx hst (shrink_pow_pos k).le (shrink_pow_le_one k) haccepts.value) hx
  obtain ⟨-, hdir, hentry⟩ := hp.step_eq_ok hv hsided.size (fun i hi => hp.curvature_pos (hsided.side i hi)) hst
  refine ⟨hsided.size, st, hst, hdir, fun i hi => (hentry i hi).2, ?_⟩
  rcases hends with hclose | ⟨slope, hslope, hrejects, hclose⟩
  · left
    exact of_decide_eq_true hclose
  · right
    rw [shrink_eq] at hclose
    exact ⟨of_decide_eq_true hclose, hp.stuck_of_rejects hv hsided hst hslope hrejects⟩

/-! ## A search that is stuck -/

/-- Two components, of which the first has a small factor and an offset below the floor. -/
noncomputable def floored : Separable ℝ where
  f := .invPos
  alpha := 1
  s := ⟨#[1 / (10 ^ 9 : Nat), 1], #[-((2 : Nat) / (10 ^ 6 : Nat)), 0]⟩
  rho := 1

theorem beta_floored : Vec.entry floored.s.beta 0 = 1 / 10 ^ 9 := by
  show (1 / ((10 ^ 9 : Nat) : ℝ)) = _
  norm_num

theorem offset_floored : Vec.entry floored.s.offset 0 = -2 / 10 ^ 6 := by
  show (-(((2 : Nat) : ℝ) / ((10 ^ 6 : Nat) : ℝ))) = _
  norm_num

theorem proper_floored : floored.Proper 2 where
  beta := rfl
  offset := rfl
  factor i hi := by
    interval_cases i
    · rw [beta_floored]
      norm_num
    · show (1 : ℝ) ≠ 0
      norm_num
  alpha_pos := one_pos
  rho_pos := one_pos

theorem component_floored_zero (x : Array ℝ) :
    floored.s.component x 0 = 1 / 10 ^ 9 * Vec.entry x 0 + -2 / 10 ^ 6 := by
  rw [Scaling.component, beta_floored, offset_floored]

theorem component_floored_one (x : Array ℝ) : floored.s.component x 1 = 1 * Vec.entry x 1 + 0 := rfl

theorem raised_floored (y : ℝ) : floored.f.raised y = max y (1 / 10 ^ 6) := by
  rw [SmoothFunction.raised_of_restricted rfl, SmoothFunction.feasibleFloor_eq]

/-- The first component is raised to the floor, which is far away in its entry. -/
theorem feasible_floored : floored.objective.feasible #[0, 1] = #[3000, 1] := by
  have hsize : (floored.objective.feasible #[0, 1]).size = 2 := size_feasible proper_floored.sized rfl
  have hcomponent (i : Nat) (hi : i < 2) := component_feasible (x := #[0, 1]) (o := floored.objective) rfl
    proper_floored.toSized rfl rfl hi (proper_floored.factor i hi)
  refine Vec.ext_entry hsize fun i hi => ?_
  rw [hsize] at hi
  refine proper_floored.entry_eq hi ?_
  rw [hcomponent i hi, raised_floored]
  interval_cases i
  · rw [component_floored_zero, beta_floored, offset_floored]
    show max (1 / 10 ^ 9 * 0 + -2 / 10 ^ 6) (1 / 10 ^ 6) = (1 / 10 ^ 9 * 3000 + -2 / 10 ^ 6 : ℝ)
    norm_num
  · rw [component_floored_one]
    show max (1 * 1 + 0) (1 / 10 ^ 6) = (1 * 1 + 0 : ℝ)
    norm_num

/-- The step there: the first entry would go down, where its component cannot follow. -/
theorem step_floored : ∃ st, floored.objective.step #[0, 1] #[3000, 1] = .ok st ∧
    st.grad = #[2000, -1] ∧ st.dir = #[-2000 / 3, 1 / 3] := by
  have hfirst : floored.s.component #[3000, 1] 0 = 1 / 10 ^ 6 := by
    rw [component_floored_zero]
    show (1 / 10 ^ 9 * 3000 + -2 / 10 ^ 6 : ℝ) = _
    norm_num
  have hsecond : floored.s.component #[3000, 1] 1 = 1 := by
    rw [component_floored_one]
    show (1 * 1 + 0 : ℝ) = _
    norm_num
  have hslope (y : ℝ) : floored.f.slope y = -1 / (y * y) := rfl
  have hcurvature (y : ℝ) : floored.f.curvature y = 2 / (y * y * y) := congrArg (· / (y * y * y)) two_eq
  have hcurved (i : Nat) (hi : i < 2) : floored.curvature #[3000, 1] i = 3 := by
    interval_cases i
    · rw [curvature, hfirst, hcurvature, beta_floored]
      show (1 * (1 / 10 ^ 9) ^ 2 * _ + 1 : ℝ) = 3
      norm_num
    · rw [curvature, hsecond, hcurvature]
      show (1 * 1 ^ 2 * _ + 1 : ℝ) = 3
      norm_num
  have hgradient (i : Nat) (hi : i < 2) :
      floored.gradient #[0, 1] #[3000, 1] i = Vec.entry (#[2000, -1] : Array ℝ) i := by
    interval_cases i
    · rw [gradient, hfirst, hslope, beta_floored]
      show (1 * (3000 - 0) + 1 * (1 / 10 ^ 9) * _ : ℝ) = 2000
      norm_num
    · rw [gradient, hsecond, hslope]
      show (1 * (1 - 1) + 1 * 1 * _ : ℝ) = -1
      norm_num
  obtain ⟨st, hst⟩ := proper_floored.exists_step (v := #[0, 1]) (x := #[3000, 1]) rfl rfl
  obtain ⟨hgrad, hdir, hentry⟩ := proper_floored.step_eq_ok rfl rfl
    (fun i hi => (hcurved i hi).symm ▸ three_pos) hst
  refine ⟨st, hst, Vec.ext_entry hgrad fun i hi => ?_, Vec.ext_entry hdir fun i hi => ?_⟩
  · rw [hgrad] at hi
    rw [(hentry i hi).1, hgradient i hi]
  · rw [hdir] at hi
    rw [(hentry i hi).2, hgradient i hi, hcurved i hi]
    interval_cases i
    · show (-2000 / 3 : ℝ) = -2000 / 3
      rfl
    · show (-(-1) / 3 : ℝ) = 1 / 3
      norm_num

theorem trial_floored (ht : 0 ≤ t) :
    floored.objective.trial #[3000, 1] #[-2000 / 3, 1 / 3] t = #[3000, 1 + t / 3] := by
  have hsize : (floored.objective.trial #[3000, 1] #[-2000 / 3, 1 / 3] t).size = 2 :=
    size_trial proper_floored.sized rfl rfl t
  refine Vec.ext_entry hsize fun i hi => ?_
  rw [hsize] at hi
  refine proper_floored.entry_eq hi ?_
  rw [proper_floored.component_trial rfl rfl hi, raised_floored]
  interval_cases i
  · rw [component_floored_zero, push, beta_floored, offset_floored]
    show max (1 / 10 ^ 9 * 3000 + -2 / 10 ^ 6 + t * (1 / 10 ^ 9 * (-2000 / 3))) (1 / 10 ^ 6)
      = (1 / 10 ^ 9 * 3000 + -2 / 10 ^ 6 : ℝ)
    rw [max_eq_right (by linarith)]
    norm_num
  · rw [component_floored_one]
    show max (1 * 1 + 0 + t * (1 * (1 / 3))) (1 / 10 ^ 6) = (1 * (1 + t / 3) + 0 : ℝ)
    rw [max_eq_left (by norm_num; linarith)]
    ring

theorem value_floored {y : ℝ} (hy : 0 < y) : floored.objective.value #[0, 1] #[3000, y] = .ok phi ↔
    phi = 5500000 + 1 / y + 1 / 2 * (y - 1) ^ 2 := by
  have hvalue (z : ℝ) (hz : 0 < z) : floored.f.value z = 1 / z := SmoothFunction.value_invPos hz
  rw [proper_floored.value_eq_ok rfl rfl, Finset.sum_range_succ, Finset.sum_range_one, term_eq, term_eq,
    component_floored_zero, component_floored_one]
  show phi = 1 * floored.f.value (1 / 10 ^ 9 * 3000 + -2 / 10 ^ 6) + 1 / 2 * (3000 - 0) ^ 2
    + (1 * floored.f.value (1 * y + 0) + 1 / 2 * (y - 1) ^ 2) ↔ _
  have hsum : 1 * floored.f.value (1 / 10 ^ 9 * 3000 + -2 / 10 ^ 6) + 1 / 2 * (3000 - 0) ^ 2
      + (1 * floored.f.value (1 * y + 0) + 1 / 2 * (y - 1) ^ 2) = 5500000 + 1 / y + 1 / 2 * (y - 1) ^ 2 := by
    rw [hvalue _ (by norm_num), hvalue _ (by linarith), one_mul y, add_zero]
    ring
  rw [hsum]

/-- Whatever part of the step is tried, only the second component gains from it, and much less than the first
    promises. -/
theorem rejects_floored (ht : 0 < t) :
    floored.objective.Rejects #[0, 1] #[3000, 1] #[-2000 / 3, 1 / 3] 5500001 (-4000001 / 3) t := by
  have hpos : 0 < 1 + t / 3 := by linarith
  refine ⟨5500000 + 1 / (1 + t / 3) + 1 / 2 * (1 + t / 3 - 1) ^ 2, ?_, ?_⟩
  · rw [trial_floored ht.le, value_floored hpos]
  · have hgain : 1 - t / 3 ≤ 1 / (1 + t / 3) := by
      rw [le_div_iff₀ hpos]
      linarith [sq_nonneg (t / 3)]
    rw [decreaseShare_eq, not_le]
    linarith [sq_nonneg (1 + t / 3 - 1)]

theorem norm_floored : 600 ≤ Vec.norm (#[-2000 / 3, 1 / 3] : Array ℝ)
    ∧ Vec.norm (#[-2000 / 3, 1 / 3] : Array ℝ) ≤ 700 ∧ 2000 ≤ Vec.norm (#[3000, 1] : Array ℝ)
    ∧ Vec.norm (#[3000, 1] : Array ℝ) ≤ 4000 := by
  have hdir : Vec.norm (#[-2000 / 3, 1 / 3] : Array ℝ) ^ 2 = 4000001 / 9 := by
    rw [Vec.norm_sq, Vec.inner_eq_sum]
    show ∑ i ∈ Finset.range 2, _ = _
    rw [Finset.sum_range_succ, Finset.sum_range_one]
    show (-2000 / 3 * (-2000 / 3) + 1 / 3 * (1 / 3) : ℝ) = _
    norm_num
  have hx : Vec.norm (#[3000, 1] : Array ℝ) ^ 2 = 9000001 := by
    rw [Vec.norm_sq, Vec.inner_eq_sum]
    show ∑ i ∈ Finset.range 2, _ = _
    rw [Finset.sum_range_succ, Finset.sum_range_one]
    show (3000 * 3000 + 1 * 1 : ℝ) = _
    norm_num
  have hdir0 := Vec.norm_nonneg (#[-2000 / 3, 1 / 3] : Array ℝ)
  have hx0 := Vec.norm_nonneg (#[3000, 1] : Array ℝ)
  exact ⟨by nlinarith, by nlinarith, by nlinarith, by nlinarith⟩

theorem minimize_eq_floored : (floored.objective.minimize #[0, 1]).outcome = .ok #[3000, 1] := by
  obtain ⟨st, hst, hgrad, hdir⟩ := step_floored
  obtain ⟨-, hshort, hlong, -⟩ := norm_floored
  have hvalue : floored.objective.value #[0, 1] #[3000, 1] = .ok 5500001 := by
    rw [value_floored one_pos]
    norm_num
  have hslope : Vec.dot st.grad st.dir = .ok (-4000001 / 3) := by
    rw [hgrad, hdir, Vec.dot_eq_ok, Vec.inner_eq_sum]
    refine ⟨rfl, ?_⟩
    show _ = ∑ i ∈ Finset.range 2, _
    rw [Finset.sum_range_succ, Finset.sum_range_one]
    show _ = (2000 * (-2000 / 3) + -1 * (1 / 3) : ℝ)
    norm_num
  have hclose : isClose (shrink ^ 40 * Vec.norm st.dir) (#[3000, 1] : Array ℝ) = true := by
    refine decide_eq_true ?_
    rw [hdir, tolerance_eq, shrink_eq]
    linarith
  rw [← feasible_floored] at hvalue hst hclose ⊢
  refine minimize_of_rejects hvalue hst rfl hslope (fun k _ => ?_) hclose
  rw [feasible_floored, hdir]
  exact rejects_floored (shrink_pow_pos k)

/-- The iteration ends where it starts, although the direction there is not negligible: the first component is
    stuck at the floor, and the second never gets to move. -/
theorem minimize_unsettled : floored.Proper 2 ∧ (floored.objective.minimize #[0, 1]).outcome = .ok #[3000, 1] ∧
    ∃ st, floored.objective.step #[0, 1] #[3000, 1] = .ok st ∧
      ¬ Vec.norm st.dir ≤ tolerance * (1 + Vec.norm (#[3000, 1] : Array ℝ)) := by
  obtain ⟨st, hst, -, hdir⟩ := step_floored
  obtain ⟨hlong, -, -, hshort⟩ := norm_floored
  refine ⟨proper_floored, minimize_eq_floored, st, hst, ?_⟩
  rw [hdir, tolerance_eq]
  intro hclose
  linarith

/-- The search there is stuck, and the fortieth half of the direction is negligible. -/
theorem minimize_settles_floored : floored.Proper 2 ∧
    (floored.objective.minimize #[0, 1]).outcome = .ok #[3000, 1] ∧
    ∃ st, floored.objective.step #[0, 1] #[3000, 1] = .ok st ∧
      (Vec.norm st.dir ≤ tolerance * (1 + Vec.norm (#[3000, 1] : Array ℝ)) ∨
        (1 / 2) ^ 40 * Vec.norm st.dir ≤ tolerance * (1 + Vec.norm (#[3000, 1] : Array ℝ)) ∧
          floored.Stuck 2 #[3000, 1] st.dir) := by
  obtain ⟨-, st, hst, -, -, hends⟩ := minimize_settles proper_floored rfl minimize_eq_floored
  exact ⟨proper_floored, minimize_eq_floored, st, hst, hends⟩

end Reals
end Separable
end BlockAdmm.Newton
