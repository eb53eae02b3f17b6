/-
  Newton iterations never make things worse.

  A direction never leads up.  For a scaling this is plain in every component; for a dense map the factored
  system has a matrix `alpha * hᵀ diag(f'') h + rho * I`, which is positive semidefinite as long as no second
  derivative is negative (`system_nonneg`), so its solution has no negative product with the gradient
  (`slope_nonpos`).  A search accepts a step only if the function falls by a share of that product, and it
  compares the point after it was moved into the domain (`Searched`).  So from round to round the value does
  not rise (`Descended`), and the point is one that was moved into the domain (`moved_of_minimize`).

  What holds of the rounds is derived from one principle: what an accepted step keeps, the iteration keeps, and
  it ends where a step is negligible (`endsAt_of_minimize`).
-/
import BlockAdmm.Proofs.Prox.Scaling
import BlockAdmm.Proofs.Safety.Operator

namespace BlockAdmm

open Scalar ExactScalar

variable {R : Type} [ExactScalar R]

namespace SmoothFunction

variable {f : SmoothFunction}

/-- `f.raised y`: a component moved into the domain. -/
def raised (f : SmoothFunction) (y : R) : R := if f.fullDomain then y else max y feasibleFloor

theorem raised_of_full (hdomain : f.fullDomain = true) (y : R) : f.raised y = y := if_pos hdomain

theorem raised_of_restricted (hdomain : f.fullDomain = false) (y : R) : f.raised y = max y feasibleFloor :=
  if_neg (by rw [hdomain]; exact Bool.false_ne_true)

theorem entry_feasible (f : SmoothFunction) {y : Array R} {i : Nat} (hi : i < y.size) :
    Vec.entry (f.feasible y) i = f.raised (Vec.entry y i) := by
  rw [feasible, raised]
  split
  · rfl
  · rw [Vec.entry_map_of_lt _ hi]
    exact larger_eq _ _

end SmoothFunction

namespace Newton

/-! ## Constants -/

theorem shrink_eq : (shrink : R) = 1 / 2 := by
  rw [shrink, ofScientific_eq_cast]
  norm_num

theorem decreaseShare_eq : (decreaseShare : R) = 1 / 4 := by
  rw [decreaseShare, ofScientific_eq_cast]
  norm_num

theorem tolerance_eq : (tolerance : R) = 1 / 10 ^ 10 := by
  rw [tolerance, ofScientific_eq_cast]
  norm_num

theorem leastStep_eq : (leastStep : R) = 1 / 10 ^ 12 := by
  rw [leastStep, ofScientific_eq_cast]
  norm_num

theorem shrink_pow_pos (k : Nat) : 0 < (shrink : R) ^ k := by
  rw [shrink_eq]
  positivity

theorem shrink_pow_le_one (k : Nat) : (shrink : R) ^ k ≤ 1 := by
  rw [shrink_eq]
  exact pow_le_one₀ (by norm_num) (by norm_num)

/-- Forty steps are long enough. -/
theorem shrink_pow_lt_leastStep_iff (k : Nat) : (shrink : R) ^ k < leastStep ↔ 40 ≤ k := by
  rw [shrink_eq, leastStep_eq, one_div_pow, one_div_lt_one_div (pow_pos two_pos k) (pow_pos (by norm_num) 12)]
  constructor
  · intro h
    by_contra hlt
    have hle : (2 : R) ^ k ≤ 2 ^ 39 := pow_le_pow_right₀ one_le_two (by omega)
    norm_num at h hle
    linarith
  · intro h
    have hle : (2 : R) ^ 40 ≤ 2 ^ k := pow_le_pow_right₀ one_le_two h
    norm_num at hle ⊢
    linarith

namespace Objective

variable {o : Objective R} {m n : Nat} {v x dir : Array R} {phi slope t : R}

/-! ## Searches -/

/-- `o.trial x dir t`: the point that a search tries with the step `t`. -/
def trial (o : Objective R) (x dir : Array R) (t : R) : Array R := o.feasible (advanced x t dir)

/-- The step `t` leads to the value `phi'`, and this is below `phi` by a share of what the slope promises. -/
structure Accepts (o : Objective R) (v x dir : Array R) (phi slope t phi' : R) : Prop where
  value : o.value v (o.trial x dir t) = .ok phi'
  decrease : phi' ≤ phi + decreaseShare * t * slope

/-- The step `t` leads to a value that is not low enough. -/
def Rejects (o : Objective R) (v x dir : Array R) (phi slope t : R) : Prop :=
  ∃ phi', o.value v (o.trial x dir t) = .ok phi' ∧ ¬ phi' ≤ phi + decreaseShare * t * slope

/-- What a search says of what it found: one of its steps was accepted, or none of the forty was. -/
def Searched (o : Objective R) (v x dir : Array R) (phi slope : R) : Found R → Prop
  | .better x' phi' => ∃ k : Nat, x' = o.trial x dir (shrink ^ k) ∧
      o.Accepts v x dir phi slope (shrink ^ k) phi'
  | .tooShort t => t = shrink ^ 40 ∧ ∀ k < 40, o.Rejects v x dir phi slope (shrink ^ k)

theorem searched_of_halvings {tries k : Nat} {found : Found R} (hk : k < 40) (htries : k + tries = maxHalvings)
    (hbefore : ∀ j < k, o.Rejects v x dir phi slope (shrink ^ j))
    (h : o.search v x phi dir slope tries (shrink ^ k) = .ok found) :
    o.Searched v x dir phi slope found := by
  induction tries generalizing k with
  | zero =>
    simp only [maxHalvings] at htries
    omega
  | succ tries ih =>
    obtain ⟨phi', hvalue, h⟩ := bind_eq_ok.1 h
    split at h
    · rename_i hle
      cases h
      exact ⟨k, rfl, hvalue, hle⟩
    · rename_i hle
      have hall : ∀ j < k + 1, o.Rejects v x dir phi slope (shrink ^ j) := by
        intro j hj
        rcases Nat.lt_succ_iff_lt_or_eq.1 hj with hj | rfl
        · exact hbefore j hj
        · exact ⟨phi', hvalue, hle⟩
      simp only [← pow_succ, shrink_pow_lt_leastStep_iff] at h
      split at h
      · cases h
        obtain rfl : k = 39 := by omega
        exact ⟨rfl, hall⟩
      · exact ih (by omega) (by omega) hall h

theorem searched_of_search {found : Found R}
    (h : o.search v x phi dir slope maxHalvings 1 = .ok found) : o.Searched v x dir phi slope found := by
  refine searched_of_halvings (by omega : 0 < 40) (Nat.zero_add maxHalvings) ?_ ?_
  · intro j hj
    exact absurd hj (Nat.not_lt_zero j)
  · rw [pow_zero]
    exact h

/-- Conversely a search all of whose steps are rejected ends with the fortieth half. -/
theorem search_of_rejects {tries k : Nat} (hk : k < 40) (htries : 40 ≤ k + tries)
    (h : ∀ j, k ≤ j → j < 40 → o.Rejects v x dir phi slope (shrink ^ j)) :
    o.search v x phi dir slope tries (shrink ^ k) = .ok (.tooShort (shrink ^ 40)) := by
  induction tries generalizing k with
  | zero => omega
  | succ tries ih =>
    obtain ⟨phi', hvalue, hle⟩ := h k le_rfl hk
    refine bind_eq_ok.2 ⟨phi', hvalue, ?_⟩
    simp only [if_neg hle, ← pow_succ, shrink_pow_lt_leastStep_iff]
    split
    · obtain rfl : k = 39 := by omega
      rfl
    · exact ih (by omega) (by omega) fun j hj => h j (by omega)

/-! ## Rounds -/

/-- How the iteration ends at a point with the value `phi`: the step there is negligible, or none of the forty
    steps of a search is accepted and the one after them is negligible. -/
def EndsAt (o : Objective R) (v x : Array R) (phi : R) : Prop :=
  ∃ st, o.step v x = .ok st ∧ (isClose (Vec.norm st.dir) x = true ∨
    ∃ slope, Vec.dot st.grad st.dir = .ok slope ∧
      (∀ k < 40, o.Rejects v x st.dir phi slope (shrink ^ k)) ∧
      isClose (shrink ^ 40 * Vec.norm st.dir) x = true)

/-- What an accepted step keeps, the iteration keeps. -/
theorem endsAt_of_rounds {I : Array R → R → Prop}
    (hstep : ∀ x phi st slope k phi', I x phi → o.step v x = .ok st → Vec.dot st.grad st.dir = .ok slope →
      o.Accepts v x st.dir phi slope (shrink ^ k) phi' → I (o.trial x st.dir (shrink ^ k)) phi')
    {left round : Nat} {z : Array R} (hx : I x phi) (hz : (o.rounds v left round x phi).outcome = .ok z) :
    ∃ phi', I z phi' ∧ o.EndsAt v z phi' := by
  induction left generalizing round x phi with
  | zero => cases hz
  | succ left ih =>
    obtain ⟨st, hst, hz⟩ := Logged.bind_eq_ok.1 hz
    obtain ⟨_, -, hz⟩ := Logged.bind_eq_ok.1 hz
    split at hz
    · cases hz
    split at hz
    · rename_i hclose
      cases hz
      exact ⟨phi, hx, st, hst, Or.inl hclose⟩
    obtain ⟨slope, hslope, hz⟩ := Logged.bind_eq_ok.1 hz
    obtain ⟨found, hfound, hz⟩ := Logged.bind_eq_ok.1 hz
    have hsearched := searched_of_search hfound
    cases found with
    | better x' phi' =>
      obtain ⟨k, rfl, haccepts⟩ := hsearched
      exact ih (hstep x phi st slope k phi' hx hst hslope haccepts) hz
    | tooShort t =>
      obtain ⟨rfl, hrejects⟩ := hsearched
      dsimp only at hz
      split at hz
      · rename_i hclose
        cases hz
        exact ⟨phi, hx, st, hst, Or.inr ⟨slope, hslope, hrejects, hclose⟩⟩
      · cases hz

/-- The same for the whole iteration, which begins at the point moved into the domain. -/
theorem endsAt_of_minimize {I : Array R → R → Prop}
    (hstart : ∀ phi, o.value v (o.feasible v) = .ok phi → I (o.feasible v) phi)
    (hstep : ∀ x phi st slope k phi', I x phi → o.step v x = .ok st → Vec.dot st.grad st.dir = .ok slope →
      o.Accepts v x st.dir phi slope (shrink ^ k) phi' → I (o.trial x st.dir (shrink ^ k)) phi')
    {z : Array R} (hz : (o.minimize v).outcome = .ok z) : ∃ phi', I z phi' ∧ o.EndsAt v z phi' := by
  obtain ⟨phi, hphi, hz⟩ := Logged.bind_eq_ok.1 hz
  exact endsAt_of_rounds hstep (hstart phi hphi) hz

/-- If no step from the start is accepted and the last is negligible, the start is where the iteration ends. -/
theorem minimize_of_rejects {st : Step R} (hphi : o.value v (o.feasible v) = .ok phi)
    (hst : o.step v (o.feasible v) = .ok st) (hfinite : Scalar.isFinite (Vec.norm st.dir) = true)
    (hslope : Vec.dot st.grad st.dir = .ok slope)
    (hrejects : ∀ k < 40, o.Rejects v (o.feasible v) st.dir phi slope (shrink ^ k))
    (hclose : isClose (shrink ^ 40 * Vec.norm st.dir) (o.feasible v) = true) :
    (o.minimize v).outcome = .ok (o.feasible v) := by
  refine Logged.bind_eq_ok.2 ⟨phi, hphi, Logged.bind_eq_ok.2 ⟨st, hst, Logged.bind_eq_ok.2 ⟨(), rfl, ?_⟩⟩⟩
  have hsearch : o.search v (o.feasible v) phi st.dir slope maxHalvings (shrink ^ 0)
      = .ok (.tooShort (shrink ^ 40)) :=
    search_of_rejects (by omega) (by decide) fun j _ => hrejects j
  rw [pow_zero] at hsearch
  split
  · rename_i hinfinite
    rw [hfinite] at hinfinite
    cases hinfinite
  split
  · rfl
  · refine Logged.bind_eq_ok.2 ⟨slope, hslope, Logged.bind_eq_ok.2 ⟨_, hsearch, ?_⟩⟩
    dsimp only
    rw [if_pos hclose]
    rfl

/-! ## Values -/

theorem squaredDistance_eq (hx : x.size = v.size) : squaredDistance x v = squareDistance v x := by
  rw [squaredDistance, Vec.total_zip _ hx.symm, squareDistance, hx]
  exact Finset.sum_congr rfl fun i _ => (pow_two _).symm

theorem value_eq_ok (hx : x.size = v.size) : o.value v x = .ok phi ↔
    ∃ y, o.argument x = .ok y ∧ phi = o.alpha * o.f.eval y + o.rho / 2 * squareDistance v x := by
  have hhalf : (0.5 : R) * o.rho = o.rho / 2 := by
    rw [half_eq]
    ring
  rw [value, bind_eq_ok]
  refine exists_congr fun y => and_congr_right fun _ => ?_
  rw [pure_eq_ok, squaredDistance_eq hx, hhalf, eq_comm]

/-! ## Slopes -/

/-- The step for a scaling, component by component. -/
theorem scaledStep_eq_ok {s : Scaling R} {gy hy : Array R} {st : Step R} (hx : x.size = v.size)
    (h : o.scaledStep s v x gy hy = .ok st) : st.grad.size = v.size ∧ st.dir.size = v.size ∧
      ∀ i, i < v.size → Vec.entry st.grad i
          = o.rho * (Vec.entry x i - Vec.entry v i) + o.alpha * Vec.entry s.beta i * Vec.entry gy i ∧
        Vec.entry st.dir i = if 0 < o.alpha * Vec.entry s.beta i * Vec.entry s.beta i * Vec.entry hy i + o.rho
          then -Vec.entry st.grad i
            / (o.alpha * Vec.entry s.beta i * Vec.entry s.beta i * Vec.entry hy i + o.rho)
          else 0 := by
  obtain ⟨_, -, h⟩ := bind_eq_ok.1 h
  cases pure_eq_ok.1 h
  refine ⟨Vec.size_build .., Vec.size_build .., fun i hi => ⟨?_, ?_⟩⟩
  · rw [Vec.entry_build _ hi, penaltyGrad, hx, Nat.min_self, Vec.entry_build _ hi]
  · rw [Vec.entry_build _ hi]

theorem inner_nonpos_of_scaledStep {s : Scaling R} {gy hy : Array R} {st : Step R} (hx : x.size = v.size)
    (h : o.scaledStep s v x gy hy = .ok st) : Vec.inner st.grad st.dir ≤ 0 := by
  obtain ⟨hgrad, -, hentry⟩ := scaledStep_eq_ok hx h
  rw [Vec.inner_eq_sum, hgrad]
  refine Finset.sum_nonpos fun i hi => ?_
  rw [(hentry i (Finset.mem_range.1 hi)).2]
  split
  · rename_i hpos
    rw [mul_div_assoc', mul_neg, neg_div, neg_nonpos]
    exact div_nonneg (mul_self_nonneg _) hpos.le
  · rw [mul_zero]

/-- `o.system h hy`: the matrix `alpha * hᵀ diag(hy) h + rho * I`. -/
def system (o : Objective R) (h : Dense R) (hy : Array R) (r c : Nat) : R :=
  ∑ i ∈ Finset.range h.m, o.alpha * Vec.entry hy i * (h.entry i r * h.entry i c) + if r = c then o.rho else 0

/-- With second derivatives that are not negative the matrix is positive semidefinite. -/
theorem system_nonneg {h : Dense R} {hy : Array R} (halpha : 0 ≤ o.alpha) (hrho : 0 ≤ o.rho)
    (hcurved : ∀ i, 0 ≤ Vec.entry hy i) (z : Nat → R) :
    0 ≤ ∑ r ∈ Finset.range n, z r * rowSum n (o.system h hy) z r := by
  have hform := sum_mul_rowSum_gram h.m n h.entry (fun i => o.alpha * Vec.entry hy i) o.rho z
  refine le_of_le_of_eq ?_ hform.symm
  refine add_nonneg (Finset.sum_nonneg fun i _ => ?_) (mul_nonneg hrho ?_)
  · exact mul_nonneg (mul_nonneg halpha (hcurved i)) (sq_nonneg _)
  · exact Finset.sum_nonneg fun r _ => sq_nonneg _

theorem hessian_eq_ok {h a : Dense R} {hy : Array R} (hn : h.n = n) (ha : o.hessian h n hy = .ok a) :
    a.size = (n, n) ∧ ∀ r c, r < n → c < n → a.entry r c = o.system h hy r c := by
  obtain ⟨p, hp, ha⟩ := bind_eq_ok.1 ha
  cases pure_eq_ok.1 ha
  obtain ⟨-, -, hp⟩ := Dense.mulMat_eq_ok.1 hp
  have hrows : p.m = n := by rw [hp]; exact hn
  have hcols : p.n = n := by rw [hp]; rfl
  refine ⟨Prod.ext hrows hcols, fun r c hr hc => ?_⟩
  have hr' : r < h.n := hn.symm ▸ hr
  have hproduct : p.entry r c
      = ∑ i ∈ Finset.range h.m, o.alpha * Vec.entry hy i * (h.entry i r * h.entry i c) := by
    rw [hp, Dense.entry_product (a := h.transpose) hr' hc]
    refine Finset.sum_congr rfl fun i hi => ?_
    have hi := Finset.mem_range.1 hi
    rw [Dense.entry_transpose h hr' hi, Dense.entry_build _ hi hc]
    ring
  rw [Dense.entry_build _ (hrows.symm ▸ hr) (hcols.symm ▸ hc), hproduct, system]
  split
  · rfl
  · rw [add_zero]

theorem inner_nonpos_of_denseStep {h : Dense R} {gy hy : Array R} {st : Step R} (hn : h.n = v.size)
    (halpha : 0 ≤ o.alpha) (hrho : 0 ≤ o.rho) (hcurved : ∀ i, 0 ≤ Vec.entry hy i)
    (hst : o.denseStep h v x gy hy = .ok st) : Vec.inner st.grad st.dir ≤ 0 := by
  obtain ⟨gx, -, hst⟩ := bind_eq_ok.1 hst
  obtain ⟨grad, hgrad, hst⟩ := bind_eq_ok.1 hst
  obtain ⟨a, ha, hst⟩ := bind_eq_ok.1 hst
  obtain ⟨hsize, hentry⟩ := hessian_eq_ok hn ha
  obtain ⟨hm, hcols⟩ := Prod.mk.inj hsize
  split at hst
  · exact absurd hst fail_ne_ok
  rename_i lu hlu
  obtain ⟨d, hd, hst⟩ := bind_eq_ok.1 hst
  cases pure_eq_ok.1 hst
  obtain ⟨hsquare, hfactor⟩ := Lu.of?_eq_some_iff.1 hlu
  have hinverts := Lu.inverts_of_factor hsquare le_rfl hfactor
  obtain ⟨_, hfit, -⟩ := bind_eq_ok.1 hd
  have hb : grad.size = v.size := by
    rw [beq_iff_eq.1 (promise_eq_ok.1 hfit), hinverts.n, hm]
  obtain ⟨d', hd', -, hsolves⟩ := hinverts.solve grad (hb.trans hm.symm)
  obtain rfl : d = d' := Except.ok.inj (hd.symm.trans hd')
  have hform : Vec.inner grad (d.map fun t => -t) = -∑ r ∈ Finset.range v.size,
      Vec.entry d r * rowSum v.size (o.system h hy) (Vec.entry d) r := by
    rw [Vec.inner_eq_sum, hb, ← Finset.sum_neg_distrib]
    refine Finset.sum_congr rfl fun r hr => ?_
    have hr := Finset.mem_range.1 hr
    have hrow := hsolves r (hm.symm ▸ hr)
    have hsystem : rowSum v.size a.entry (Vec.entry d) r = rowSum v.size (o.system h hy) (Vec.entry d) r :=
      rowSum_congr (fun c hc => hentry r c hr hc) fun _ _ => rfl
    rw [hcols, hsystem] at hrow
    rw [Vec.entry_map neg_zero, ← hrow]
    ring
  rw [hform, neg_nonpos]
  exact system_nonneg halpha hrho hcurved _

/-- `o.Regular`: no factor of a scaling is zero, and under a dense map the function is defined everywhere with
    second derivatives that are not negative. -/
def Regular (o : Objective R) : Prop :=
  match o.map with
  | .scaling s => ∀ i, i < s.beta.size → Vec.entry s.beta i ≠ 0
  | .dense _ _ => o.f.fullDomain = true ∧ ∀ y i, 0 ≤ Vec.entry (o.f.hess y) i

/-- The direction leads down, or it leads nowhere. -/
theorem slope_nonpos {st : Step R} (ho : o.map.Sized m n) (hregular : o.Regular) (halpha : 0 ≤ o.alpha)
    (hrho : 0 ≤ o.rho) (hv : v.size = n) (hx : x.size = n) (hst : o.step v x = .ok st)
    (hslope : Vec.dot st.grad st.dir = .ok slope) : slope ≤ 0 := by
  obtain ⟨y, -, hst⟩ := bind_eq_ok.1 hst
  obtain ⟨-, rfl⟩ := Vec.dot_eq_ok.1 hslope
  rw [Regular] at hregular
  cases hmap : o.map with
  | scaling s =>
    rw [hmap] at hst
    exact inner_nonpos_of_scaledStep (hx.trans hv.symm) hst
  | dense h g =>
    rw [hmap] at hst hregular ho
    have hn : h.n = v.size := (Prod.mk.inj ho.1).2.trans hv.symm
    exact inner_nonpos_of_denseStep hn halpha hrho (hregular.2 y) hst

theorem size_trial (ho : o.map.Sized m n) (hx : x.size = n) (hdir : dir.size = n) (t : R) :
    (o.trial x dir t).size = n := by
  refine size_feasible ho ?_
  rw [advanced, Vec.size_build, hx, hdir, Nat.min_self]

theorem size_step {st : Step R} (ho : o.map.Sized m n) (hv : v.size = n) (hx : x.size = n)
    (hst : o.step v x = .ok st) : st.grad.size = n ∧ st.dir.size = n :=
  (ends_step (E := fun _ => True) ho hv hx).of_eq_ok hst

/-! ## Domains -/

/-- The iteration ends at a point that was moved into the domain. -/
theorem moved_of_minimize (ho : o.map.Sized m n) (hv : v.size = n) (hx : (o.minimize v).outcome = .ok x) :
    ∃ w, w.size = n ∧ x = o.feasible w := by
  have hends := endsAt_of_minimize (I := fun x _ => ∃ w, w.size = n ∧ x = o.feasible w) (fun phi _ => ?_)
    (fun x phi st slope k phi' hx hst _ _ => ?_) hx
  · obtain ⟨-, hmoved, -⟩ := hends
    exact hmoved
  · exact ⟨v, hv, rfl⟩
  · obtain ⟨w, hw, rfl⟩ := hx
    have hsize : (o.feasible w).size = n := size_feasible ho hw
    refine ⟨advanced (o.feasible w) (shrink ^ k) st.dir, ?_, rfl⟩
    rw [advanced, Vec.size_build, hsize, (size_step ho hv hsize hst).2, Nat.min_self]

/-- A point of the right length with a value that is not above that of the start. -/
structure Descended (o : Objective R) (v x : Array R) (start phi : R) : Prop where
  size : x.size = v.size
  value : o.value v x = .ok phi
  le : phi ≤ start

/-- From round to round the value does not rise. -/
theorem descended_of_minimize (ho : o.map.Sized m n) (hregular : o.Regular) (halpha : 0 ≤ o.alpha)
    (hrho : 0 ≤ o.rho) (hv : v.size = n) (hx : (o.minimize v).outcome = .ok x) :
    ∃ start phi, o.value v (o.feasible v) = .ok start ∧ o.Descended v x start phi := by
  obtain ⟨start, hstart, -⟩ := Logged.bind_eq_ok.1 hx
  have hends := endsAt_of_minimize (I := fun x phi => o.Descended v x start phi) (fun phi hphi => ?_)
    (fun x phi st slope k phi' hx hst hslope haccepts => ?_) hx
  · obtain ⟨phi, hphi, -⟩ := hends
    exact ⟨start, phi, hstart, hphi⟩
  · exact ⟨(size_feasible ho hv).trans hv.symm, hphi, (Except.ok.inj (hphi.symm.trans hstart)).le⟩
  · have hsize : x.size = n := hx.size.trans hv
    have hdown := slope_nonpos ho hregular halpha hrho hv hsize hst hslope
    have hpart : decreaseShare * shrink ^ k * slope ≤ 0 := by
      rw [decreaseShare_eq]
      exact mul_nonpos_of_nonneg_of_nonpos (mul_nonneg (by norm_num) (shrink_pow_pos k).le) hdown
    refine ⟨?_, haccepts.value, ?_⟩
    · rw [size_trial ho hsize (size_step ho hv hsize hst).2, hv]
    · linarith [haccepts.decrease, hx.le]

variable {s : Scaling R} {i : Nat}

/-- A component of a point that was moved into the domain. -/
theorem component_feasible {f : SmoothFunction} (hf : o.f = f.smooth) (hs : s.Sized n)
    (hmap : o.map = .scaling s) (hx : x.size = n) (hi : i < n) (hbeta : Vec.entry s.beta i ≠ 0) :
    s.component (o.feasible x) i = f.raised (s.component x i) := by
  have hsize : (s.toArg x).size = n := hs.size_toArg hx
  have hmoved : (o.f.feasible (s.toArg x)).size = n := (o.f.size_feasible _).trans hsize
  rw [feasible, hmap]
  show s.component (s.fromArg (o.f.feasible (s.toArg x)) x) i = _
  rw [hs.component_fromArg hmoved hx hi hbeta, hf, ← hs.entry_toArg hx hi]
  exact f.entry_feasible (hsize.symm ▸ hi)

/-- Where the function keeps every point, so does the iteration. -/
theorem feasible_eq_self (ho : o.map.Sized m n) (hregular : o.Regular) (hx : x.size = n)
    (hfull : ∀ y, o.f.feasible y = y) : o.feasible x = x := by
  cases hmap : o.map with
  | dense h g => rw [feasible, hmap]
  | scaling s =>
    rw [hmap] at ho
    rw [Regular, hmap] at hregular
    obtain ⟨-, hs⟩ := ho
    have hsize : (s.toArg x).size = n := hs.size_toArg hx
    rw [feasible, hmap]
    show s.fromArg (o.f.feasible (s.toArg x)) x = x
    rw [hfull]
    refine Vec.ext_entry ((hs.size_fromArg hsize hx).trans hx.symm) fun i hi => ?_
    rw [hs.size_fromArg hsize hx] at hi
    have hbeta := hregular i (hs.beta.symm ▸ hi)
    rw [hs.entry_fromArg hsize hx hi, if_neg hbeta, hs.entry_toArg hx hi, Scaling.component, add_sub_cancel_right,
      mul_div_cancel_left₀ _ hbeta]

/-- With a function that is not defined everywhere only a scaling is left. -/
theorem Regular.exists_scaling (hregular : o.Regular) (hdomain : o.f.fullDomain = false) :
    ∃ s, o.map = .scaling s ∧ ∀ i, i < s.beta.size → Vec.entry s.beta i ≠ 0 := by
  cases hmap : o.map with
  | scaling s =>
    rw [Regular, hmap] at hregular
    exact ⟨s, rfl, hregular⟩
  | dense h g =>
    rw [Regular, hmap] at hregular
    exact absurd (hdomain.symm.trans hregular.1) Bool.false_ne_true

/-- The iteration never makes things worse: where it ends, the function is not above its value at the start,
    which is the point itself or, for a function on the positive numbers, the point with its components
    raised to the floor.  It does not end below the floor. -/
theorem minimize_descends (ho : o.map.Sized m n) (hregular : o.Regular) (halpha : 0 ≤ o.alpha) (hrho : 0 ≤ o.rho)
    (hv : v.size = n) (hx : (o.minimize v).outcome = .ok x) :
    ∃ start y, o.argument (o.feasible v) = .ok start ∧ o.argument x = .ok y ∧
      o.alpha * o.f.eval y + o.rho / 2 * squareDistance v x
        ≤ o.alpha * o.f.eval start + o.rho / 2 * squareDistance v (o.feasible v) ∧
      ((∀ z, o.f.feasible z = z) → o.feasible v = v) ∧
      ∀ f : SmoothFunction, o.f = f.smooth → f.fullDomain = false →
        (∀ i, i < m → SmoothFunction.feasibleFloor ≤ Vec.entry y i) ∧
        ∃ w, o.argument v = .ok w ∧ ∀ i, i < m →
          Vec.entry start i = max (Vec.entry w i) SmoothFunction.feasibleFloor := by
  obtain ⟨phi₀, phi, hphi₀, hdescended⟩ := descended_of_minimize ho hregular halpha hrho hv hx
  obtain ⟨u, hu, rfl⟩ := moved_of_minimize ho hv hx
  have hsize : (o.feasible v).size = v.size := (size_feasible ho hv).trans hv.symm
  obtain ⟨start, hstart, rfl⟩ := (value_eq_ok hsize).1 hphi₀
  obtain ⟨y, hy, rfl⟩ := (value_eq_ok hdescended.size).1 hdescended.value
  refine ⟨start, y, hstart, hy, hdescended.le, feasible_eq_self ho hregular hv, fun f hf hdomain => ?_⟩
  obtain ⟨s, hmap, hbeta⟩ := hregular.exists_scaling (by rw [hf]; exact hdomain)
  rw [hmap] at ho
  obtain ⟨rfl, hs⟩ := ho
  have hargument (x : Array R) : o.argument x = .ok (s.toArg x) := by rw [argument, hmap]
  -- a component of a point that was moved, by that of the point
  have hraised {w z : Array R} (hw : w.size = m) (hz : o.argument (o.feasible w) = .ok z) {i : Nat} (hi : i < m) :
      Vec.entry z i = max (Vec.entry (s.toArg w) i) SmoothFunction.feasibleFloor := by
    obtain rfl : s.toArg (o.feasible w) = z := Except.ok.inj ((hargument _).symm.trans hz)
    have hfeasible := component_feasible hf hs hmap hw hi (hbeta i (hs.beta.symm ▸ hi))
    have hmoved : (o.feasible w).size = m := size_feasible (by rw [hmap]; exact ⟨rfl, hs⟩) hw
    rw [hs.entry_toArg hmoved hi, hfeasible, SmoothFunction.raised_of_restricted hdomain, hs.entry_toArg hw hi]
  constructor
  · intro i hi
    exact (hraised hu hy hi).symm ▸ le_max_right _ _
  · exact ⟨s.toArg v, hargument v, fun i hi => hraised hv hstart hi⟩

/-- Two squares of one variable, of which the second is twice as steep. -/
def steep : Objective ℚ where
  f := SmoothFunction.sumSquare.smooth
  alpha := 1
  map := .dense (Dense.build 2 1 fun r _ => if r = 0 then 1 else 2) #[1, 0]
  rho := 2

/-- One full step leads to the minimizer. -/
theorem minimize_descends_steep :
    steep.map.Sized 2 1 ∧ steep.Regular ∧ (0 : ℚ) ≤ steep.alpha ∧ (0 : ℚ) ≤ steep.rho ∧
      (steep.minimize #[3]).outcome = .ok #[1 / 3] ∧
      steep.alpha * steep.f.eval #[4 / 3, 2 / 3] + steep.rho / 2 * squareDistance #[3] #[1 / 3]
        ≤ steep.alpha * steep.f.eval #[4, 6] + steep.rho / 2 * squareDistance #[3] #[3] := by
  have hsize : steep.map.Sized 2 1 := ⟨rfl, rfl⟩
  have hregular : steep.Regular := by
    refine ⟨rfl, fun y i => ?_⟩
    show 0 ≤ Vec.entry (y.map _) i
    rcases Nat.lt_or_ge i y.size with hi | hi
    · rw [Vec.entry_map_of_lt _ hi]
      exact zero_le_two.trans_eq (two_eq (R := ℚ)).symm
    · rw [Vec.entry_of_size_le (by rw [Array.size_map]; exact hi)]
  have halpha : (0 : ℚ) ≤ steep.alpha := by decide +kernel
  have hrho : (0 : ℚ) ≤ steep.rho := by decide +kernel
  obtain ⟨x, hx, hvalue⟩ := exists_eq_ok_and (x := (steep.minimize #[3]).outcome)
    (p := fun x => x == #[1 / 3]) (by decide +kernel)
  rw [eq_of_beq hvalue] at hx
  obtain ⟨start, y, hstart, hy, hle, -⟩ := minimize_descends hsize hregular halpha hrho rfl hx
  have hargument (x y : Array ℚ) (h : (steep.argument x).toOption.any (· == y) = true) :
      steep.argument x = .ok y := by
    obtain ⟨z, hz, heq⟩ := exists_eq_ok_and h
    exact hz.trans (congrArg _ (eq_of_beq heq))
  cases (hargument #[3] #[4, 6] (by decide +kernel)).symm.trans hstart
  cases (hargument #[1 / 3] #[4 / 3, 2 / 3] (by decide +kernel)).symm.trans hy
  exact ⟨hsize, hregular, halpha, hrho, hx, hle⟩

end Objective
end Newton
end BlockAdmm
