/-
  The proximal operator of a sum of squares.

  A point that solves the normal equations `(2 alpha HᵀH + rho I) x = rho v - 2 alpha Hᵀ g` has the slopes
  of a proximal point of `alpha * |H x + g|²` (`Squares.Solves.hasSlope`), and if the matrix of the equations
  is not singular, it is the only solution (`Squares.Solves.unique`).  Both forms of the operator solve these
  equations: component by component where `H` is a diagonal (`exists_solves_scaling`), where a component
  on which nothing depends may stay as it is, and otherwise through the factors of the matrix, which are
  there just if it is not singular (`ends_generalForm_solves`).
-/
import BlockAdmm.Proofs.Dense.Lu
import BlockAdmm.Proofs.LinearMap.Kernel
import BlockAdmm.Proofs.Prox.Argument
import BlockAdmm.Proofs.Prox.Minimizer
import BlockAdmm.Proofs.Safety.Operator

namespace BlockAdmm

open Scalar ExactScalar

variable {R : Type} [ExactScalar R]

/-! ## Normal equations -/

omit [ExactScalar R] in
/-- The problem `alpha * |H x + g|² + (rho / 2) * |x - v|²`, with `H` of `m` rows and `n` columns. -/
structure Squares (R : Type) where
  alpha : R
  rho : R
  m : Nat
  n : Nat
  h : Nat → Nat → R
  g : Array R

namespace Squares

variable {p : Squares R} {v x y : Array R}

/-- `p.cost x = alpha * |H x + g|²`. -/
def cost (p : Squares R) (x : Array R) : R :=
  p.alpha * ∑ i ∈ Finset.range p.m, (rowSum p.n p.h (Vec.entry x) i + Vec.entry p.g i) ^ 2

/-- `p.normal`: the matrix `2 alpha HᵀH + rho I`. -/
def normal (p : Squares R) (r c : Nat) : R :=
  2.0 * p.alpha * ∑ i ∈ Finset.range p.m, p.h i r * p.h i c + if r = c then p.rho else 0

/-- `p.Solves v x`: the point solves the normal equations. -/
def Solves (p : Squares R) (v x : Array R) : Prop :=
  ∀ j, j < p.n → rowSum p.n p.normal (Vec.entry x) j
    = p.rho * Vec.entry v j - 2.0 * p.alpha * ∑ i ∈ Finset.range p.m, p.h i j * Vec.entry p.g i

theorem normal_eq (p : Squares R) (r c : Nat) : p.normal r c
    = 2 * p.alpha * ∑ i ∈ Finset.range p.m, p.h i r * p.h i c + if r = c then p.rho else 0 := by
  rw [normal, two_eq]

theorem rowSum_normal (p : Squares R) (x : Nat → R) {j : Nat} (hj : j < p.n) :
    rowSum p.n p.normal x j
      = 2 * p.alpha * ∑ i ∈ Finset.range p.m, p.h i j * rowSum p.n p.h x i + p.rho * x j := by
  have hgram : ∑ c ∈ Finset.range p.n, 2 * p.alpha * (∑ i ∈ Finset.range p.m, p.h i j * p.h i c) * x c
      = 2 * p.alpha * ∑ i ∈ Finset.range p.m, p.h i j * rowSum p.n p.h x i := by
    simp only [rowSum, Finset.mul_sum, Finset.sum_mul]
    rw [Finset.sum_comm]
    exact Finset.sum_congr rfl fun i _ => Finset.sum_congr rfl fun c _ => by ring
  have hpenalty : ∑ c ∈ Finset.range p.n, (if j = c then p.rho else 0) * x c = p.rho * x j :=
    rowSum_diagonal (k := fun r c => if r = c then p.rho else 0) x hj fun c _ => rfl
  rw [← hgram, ← hpenalty, ← Finset.sum_add_distrib]
  exact Finset.sum_congr rfl fun c _ => by rw [normal_eq, add_mul]

/-- The slope of the sum of squares at a solution is the one that a proximal point needs. -/
theorem Solves.slope (h : p.Solves v x) {j : Nat} (hj : j < p.n) :
    2 * p.alpha * ∑ i ∈ Finset.range p.m,
        p.h i j * (rowSum p.n p.h (Vec.entry x) i + Vec.entry p.g i)
      = p.rho * (Vec.entry v j - Vec.entry x j) := by
  have hsolve := h j hj
  rw [p.rowSum_normal _ hj, two_eq] at hsolve
  simp only [mul_add, Finset.sum_add_distrib]
  linear_combination hsolve

theorem Solves.hasSlope (h : p.Solves v x) (halpha : 0 ≤ p.alpha) (hx : x.size = p.n) :
    HasSlope p.cost x fun j => p.rho * (Vec.entry v j - Vec.entry x j) := by
  intro y _
  -- what the components change by, in terms of what the entries do
  have hchange (i : Nat) : rowSum p.n p.h (Vec.entry y) i - rowSum p.n p.h (Vec.entry x) i
      = ∑ j ∈ Finset.range p.n, p.h i j * (Vec.entry y j - Vec.entry x j) := (rowSum_sub ..).symm
  have hslope : ∑ j ∈ Finset.range x.size,
        p.rho * (Vec.entry v j - Vec.entry x j) * (Vec.entry y j - Vec.entry x j)
      = p.alpha * ∑ i ∈ Finset.range p.m, 2 * (rowSum p.n p.h (Vec.entry x) i + Vec.entry p.g i)
          * (rowSum p.n p.h (Vec.entry y) i - rowSum p.n p.h (Vec.entry x) i) := by
    rw [hx]
    calc ∑ j ∈ Finset.range p.n,
          p.rho * (Vec.entry v j - Vec.entry x j) * (Vec.entry y j - Vec.entry x j)
        = ∑ j ∈ Finset.range p.n, ∑ i ∈ Finset.range p.m, 2 * p.alpha
            * (p.h i j * (rowSum p.n p.h (Vec.entry x) i + Vec.entry p.g i))
            * (Vec.entry y j - Vec.entry x j) := by
          refine Finset.sum_congr rfl fun j hj => ?_
          rw [← h.slope (Finset.mem_range.1 hj), Finset.mul_sum, Finset.sum_mul]
      _ = ∑ i ∈ Finset.range p.m, ∑ j ∈ Finset.range p.n, 2 * p.alpha
            * (p.h i j * (rowSum p.n p.h (Vec.entry x) i + Vec.entry p.g i))
            * (Vec.entry y j - Vec.entry x j) := Finset.sum_comm
      _ = _ := by
          rw [Finset.mul_sum]
          refine Finset.sum_congr rfl fun i _ => ?_
          rw [hchange i, Finset.mul_sum, Finset.mul_sum]
          exact Finset.sum_congr rfl fun j _ => by ring
  rw [hslope, cost, cost, ← mul_add, ← Finset.sum_add_distrib]
  refine mul_le_mul_of_nonneg_left (Finset.sum_le_sum fun i _ => ?_) halpha
  -- a square stays above its tangent
  have hsquare := sq_nonneg (rowSum p.n p.h (Vec.entry y) i - rowSum p.n p.h (Vec.entry x) i)
  linarith

/-- With a penalty the matrix is positive definite. -/
theorem regular_of_pos (halpha : 0 ≤ p.alpha) (hrho : 0 < p.rho) : ¬ IsSingular p.n p.normal := by
  intro hsingular
  obtain ⟨z, ⟨j, hj, hne⟩, hz⟩ := isSingular_iff.1 hsingular
  have hnormal : p.normal = fun r c =>
      ∑ i ∈ Finset.range p.m, 2 * p.alpha * (p.h i r * p.h i c) + if r = c then p.rho else 0 := by
    funext r c
    rw [normal_eq, Finset.mul_sum]
  have hquadratic : ∑ c ∈ Finset.range p.n, z c * rowSum p.n p.normal z c
      = ∑ i ∈ Finset.range p.m, 2 * p.alpha * rowSum p.n p.h z i ^ 2
        + p.rho * ∑ c ∈ Finset.range p.n, z c ^ 2 := by
    rw [hnormal]
    exact sum_mul_rowSum_gram p.m p.n p.h (fun _ => 2 * p.alpha) p.rho z
  have hzero : ∑ c ∈ Finset.range p.n, z c * rowSum p.n p.normal z c = 0 :=
    Finset.sum_eq_zero fun c hc => by rw [hz c (Finset.mem_range.1 hc), mul_zero]
  have himage : 0 ≤ ∑ i ∈ Finset.range p.m, 2 * p.alpha * rowSum p.n p.h z i ^ 2 :=
    Finset.sum_nonneg fun _ _ => mul_nonneg (mul_nonneg zero_le_two halpha) (sq_nonneg _)
  have hpoint : 0 < ∑ c ∈ Finset.range p.n, z c ^ 2 :=
    Finset.sum_pos' (fun _ _ => sq_nonneg _) ⟨j, Finset.mem_range.2 hj, sq_pos_of_ne_zero hne⟩
  have hpenalty := mul_pos hrho hpoint
  linarith

/-- With a matrix that is not singular the normal equations have one solution. -/
theorem Solves.unique (hregular : ¬ IsSingular p.n p.normal) (h : p.Solves v x) (h' : p.Solves v y)
    (hx : x.size = p.n) (hy : y.size = p.n) : x = y := by
  by_contra hne
  refine hregular (isSingular_iff.2 ⟨fun j => Vec.entry x j - Vec.entry y j, ?_, fun i hi => ?_⟩)
  · by_contra hall
    push Not at hall
    exact hne (Vec.ext_entry (hx.trans hy.symm) fun j hj => sub_eq_zero.1 (hall j (hx ▸ hj)))
  · have hdiff := (h i hi).trans (h' i hi).symm
    rwa [← sub_eq_zero, ← rowSum_sub] at hdiff

end Squares

/-! ## The two forms -/

theorem TermInput.scaling_eq {input : TermInput R} {a : Argument R} (hargs : input.args = [a]) :
    input.scaling = a.diagonal? input.layout >>= fun
      | some beta => .ok ⟨beta, a.offset⟩
      | none => fail (.notDiagonal input.function.kind) := by
  rw [TermInput.scaling, TermInput.single, hargs]
  rfl

namespace SumSquareOperator

variable {v : Array R}

/-- Component by component the normal equations are solved wherever the argument is a diagonal. -/
theorem exists_solves_scaling {p : Squares R} {s : Scaling R} (hs : s.Sized p.n) (hm : p.m = p.n)
    (hdiag : ∀ r c, r < p.n → c < p.n → p.h r c = if r = c then Vec.entry s.beta r else 0)
    (hg : p.g = s.offset) (halpha : 0 ≤ p.alpha) (hrho : 0 ≤ p.rho) (hv : v.size = p.n) :
    ∃ x, apply ⟨p.alpha, p.rho, .scaling s⟩ v = .ok x ∧ x.size = p.n ∧ p.Solves v x := by
  have hfit : (decide (v.size ≤ s.beta.size) && decide (v.size ≤ s.offset.size)) = true := by
    rw [hs.beta, hs.offset, hv]
    simp
  refine ⟨_, bind_eq_ok.2 ⟨(), promise_eq_ok.2 hfit, rfl⟩, (Vec.size_build ..).trans hv, fun j hj => ?_⟩
  -- the columns of a diagonal have one entry each
  have hcolumn (f : Nat → R) : ∑ i ∈ Finset.range p.m, p.h i j * f i = Vec.entry s.beta j * f j := by
    rw [hm]
    refine rowSum_diagonal (k := fun r c => p.h c r) f hj fun c hc => ?_
    rw [hdiag c j hc hj]
    by_cases hjc : j = c
    · rw [if_pos hjc, if_pos hjc.symm, hjc]
    · rw [if_neg hjc, if_neg (Ne.symm hjc)]
  have hrow (x : Nat → R) : rowSum p.n p.h x j = Vec.entry s.beta j * x j :=
    rowSum_diagonal x hj fun c hc => hdiag j c hj hc
  rw [p.rowSum_normal _ hj, hcolumn, hcolumn, hrow, Vec.entry_build _ (hv ▸ hj), hg]
  dsimp only
  rw [two_eq]
  split
  · rename_i hpos
    linear_combination mul_div_cancel₀ (p.rho * Vec.entry v j
      - 2 * p.alpha * Vec.entry s.beta j * Vec.entry s.offset j) hpos.ne'
  · rename_i hnonpos
    -- nothing depends on the component: there is no penalty, and the squares do not contain it
    have hsquare : 0 ≤ 2 * p.alpha * Vec.entry s.beta j * Vec.entry s.beta j := by
      rw [mul_assoc]
      exact mul_nonneg (mul_nonneg zero_le_two halpha) (mul_self_nonneg _)
    have hzero : p.rho = 0 := by linarith
    have hflat : p.alpha * Vec.entry s.beta j = 0 := by
      have hprod : p.alpha * (Vec.entry s.beta j * Vec.entry s.beta j) = 0 := by linarith
      rcases mul_eq_zero.1 hprod with h | h
      · rw [h, zero_mul]
      · rw [mul_self_eq_zero.1 h, mul_zero]
    rw [hzero]
    linear_combination (2 * Vec.entry s.beta j * Vec.entry v j + 2 * Vec.entry s.offset j) * hflat

/-- The matrix of the normal equations. -/
theorem ends_normalMatrix_entries {E : Fault → Prop} {p : Squares R} {d : Dense R} (hd : d.size = (p.m, p.n))
    (hentry : ∀ r c, r < p.m → c < p.n → d.entry r c = p.h r c) (hroom : Allows E (p.n * p.n)) :
    Ends E (fun k => k.size = (p.n, p.n) ∧ ∀ r c, r < p.n → c < p.n → k.entry r c = p.normal r c)
      (normalMatrix p.alpha p.rho d) := by
  obtain ⟨hm, hn⟩ : d.m = p.m ∧ d.n = p.n := Prod.mk.inj hd
  have hends : Ends E (fun k => k.size = (d.transpose.m, d.n)) (d.transpose.mulMat d) :=
    Dense.ends_mulMat (by rwa [show d.transpose.m = p.n from hn, hn]) rfl
  refine (hends.and_eq fun k hk => (Dense.mulMat_eq_ok.1 hk).2.2).bind fun k hk => ends_ok ⟨?_, ?_⟩
  · rw [hk.2]
    exact Prod.ext hn hn
  · intro r c hr hc
    have hr : r < d.n := hn.symm ▸ hr
    have hc : c < d.n := hn.symm ▸ hc
    have hscaled : (k.scale (2.0 * p.alpha)).entry r c
        = 2 * p.alpha * ∑ i ∈ Finset.range p.m, p.h i r * p.h i c := by
      rw [Dense.entry_scale, hk.2, two_eq, Dense.entry_product (a := d.transpose) hr hc]
      refine congrArg (2 * p.alpha * ·) ?_
      rw [← hm]
      refine Finset.sum_congr rfl fun i hi => ?_
      have hi := Finset.mem_range.1 hi
      rw [Dense.entry_transpose d hr hi, hentry i r (hm ▸ hi) (hn ▸ hr), hentry i c (hm ▸ hi) (hn ▸ hc)]
    rw [Dense.entry_build _ (by rw [hk.2]; exact hr) (by rw [hk.2]; exact hc), hscaled, Squares.normal_eq]
    split
    · rfl
    · rw [add_zero]

/-- The vector `Hᵀ g`. -/
theorem ends_transMulVec_entries {E : Fault → Prop} {p : Squares R} {d : Dense R} (hd : d.size = (p.m, p.n))
    (hentry : ∀ r c, r < p.m → c < p.n → d.entry r c = p.h r c) (hg : p.g.size = p.m)
    (hroom : Allows E p.n) : Ends E (fun y => y.size = p.n ∧ ∀ j, j < p.n →
      Vec.entry y j = ∑ i ∈ Finset.range p.m, p.h i j * Vec.entry p.g i) (d.transMulVec p.g) := by
  obtain ⟨hm, hn⟩ : d.m = p.m ∧ d.n = p.n := Prod.mk.inj hd
  have hfit : p.g.size = d.transpose.n := hg.trans hm.symm
  have hends : Ends E (fun y => y.size = d.transpose.m) (d.transpose.mulVec p.g) :=
    Dense.ends_mulVec (show Allows E d.n from hn.symm ▸ hroom) hfit
  rw [Dense.transMulVec_eq_mulVec]
  refine (hends.and_eq fun y hy => ((Dense.mulVec_eq_ok hfit).1 hy).2).imp fun y hy => ⟨hy.1.trans hn, ?_⟩
  intro j hj
  have hj : j < d.n := hn.symm ▸ hj
  rw [hy.2, Vec.entry_build _ (show j < d.transpose.m from hj), ← hm]
  refine Finset.sum_congr rfl fun i hi => ?_
  have hi := Finset.mem_range.1 hi
  rw [Dense.entry_transpose d hj hi, hentry i j (hm ▸ hi) (hn ▸ hj)]

/-- The factors of the matrix solve the normal equations. -/
theorem exists_solves_general {p : Squares R} {k : Dense R} {lu : Lu R} {y : Array R} (hk : k.size = (p.n, p.n))
    (hentry : ∀ r c, r < p.n → c < p.n → k.entry r c = p.normal r c) (hlu : lu.Inverts k) (hy : y.size = p.n)
    (hg : ∀ j, j < p.n → Vec.entry y j = ∑ i ∈ Finset.range p.m, p.h i j * Vec.entry p.g i)
    (hv : v.size = p.n) : ∃ x,
      apply ⟨p.alpha, p.rho, .general lu (y.map fun t => t * (2.0 * p.alpha))⟩ v = .ok x ∧
        x.size = p.n ∧ p.Solves v x := by
  obtain ⟨hkm, hkn⟩ : k.m = p.n ∧ k.n = p.n := Prod.mk.inj hk
  let b := Vec.build (min v.size (y.map fun t => t * (2.0 * p.alpha)).size) fun i =>
    p.rho * Vec.entry v i - Vec.entry (y.map fun t => t * (2.0 * p.alpha)) i
  have hb : b.size = p.n := by rw [Vec.size_build, hv, Array.size_map, hy, Nat.min_self]
  obtain ⟨x, hx, hsize, hsolve⟩ := hlu.solve b (hb.trans hkm.symm)
  refine ⟨x, hx, hsize.trans hkm, fun j hj => ?_⟩
  have hrow : rowSum p.n p.normal (Vec.entry x) j = rowSum k.n k.entry (Vec.entry x) j := by
    rw [hkn]
    exact rowSum_congr (fun c hc => (hentry j c hj hc).symm) fun _ _ => rfl
  have hjmin : j < min v.size (y.map fun t => t * (2.0 * p.alpha)).size := by
    rw [hv, Array.size_map, hy, Nat.min_self]
    exact hj
  rw [hrow, hsolve j (hkm.symm ▸ hj), Vec.entry_build _ hjmin, Vec.entry_map (zero_mul _), hg j hj, two_eq,
    mul_comm (2 * p.alpha)]

variable {input : TermInput R} {a : Argument R} {g : Lore R} {h : Nat → Nat → R}

/-- `problem input a h`: what the operator of a term is to solve. -/
def problem (input : TermInput R) (a : Argument R) (h : Nat → Nat → R) : Squares R :=
  ⟨input.function.alpha, input.rho, a.dim, input.layout.n, h, a.offset⟩

/-- Either the matrix of the normal equations is singular, and that is reported, or the factored form is
    there and solves them. -/
theorem ends_generalForm_solves (hb : a.Bears g input.layout h) (ha : a.Matches input.layout)
    (hroom : Allows g.faults (a.dim * input.layout.n))
    (hsquare : Allows g.faults (input.layout.n * input.layout.n))
    (hmaps : ∀ kl ∈ a.maps.entries, Allows g.faults kl.2.extent) :
    Ends (fun f => (f = .failed .noUniqueMinimizer ∧ IsSingular input.layout.n (problem input a h).normal)
        ∨ g.faults f)
      (fun form => ¬ IsSingular input.layout.n (problem input a h).normal ∧
        ∀ v : Array R, v.size = input.layout.n →
          ∃ x, apply ⟨input.function.alpha, input.rho, form⟩ v = .ok x ∧ x.size = input.layout.n ∧
            (problem input a h).Solves v x)
      (generalForm input a) := by
  have hor {α : Type} {Q : α → Prop} {x : Outcome α} (hx : Ends g.faults Q x) :
      Ends (fun f => (f = .failed .noUniqueMinimizer ∧ IsSingular input.layout.n (problem input a h).normal)
        ∨ g.faults f) Q x := hx.mono (fun _ hf => Or.inr hf) fun _ hq => hq
  refine (hor (hb.ends_dense ha hroom hmaps)).bind fun d hd => ?_
  obtain ⟨hdsize, hdentry⟩ := hd
  refine (hor (ends_normalMatrix_entries (p := problem input a h) hdsize hdentry hsquare)).bind fun k hk => ?_
  obtain ⟨hksize, hkentry⟩ := hk
  obtain ⟨hkm, hkn⟩ : k.m = input.layout.n ∧ k.n = input.layout.n := Prod.mk.inj hksize
  have hsingular : (k.matrix k.m).det = 0 ↔ IsSingular input.layout.n (problem input a h).normal := by
    rw [hkm]
    exact isSingular_congr hkentry
  cases hlu : Lu.of? k 0 with
  | none =>
    obtain ⟨s, hstuck⟩ := Lu.exists_stuck_of_of? (hkm.trans hkn.symm) hlu
    exact Or.inl ⟨rfl, hsingular.1 (Lu.det_eq_zero_of_stuck (hkm.trans hkn.symm) hstuck)⟩
  | some lu =>
    obtain ⟨hksquare, hfactor⟩ := Lu.of?_eq_some_iff.1 hlu
    have hcolumns : Allows g.faults input.layout.n := hsquare.mono (Nat.le_mul_self _)
    refine (hor (ends_transMulVec_entries (p := problem input a h) hdsize hdentry ha.offset hcolumns)).bind
      fun y hy => ends_ok ⟨mt hsingular.2 (Lu.det_ne_zero_of_factor hksquare le_rfl hfactor), fun v hv => ?_⟩
    exact exists_solves_general (p := problem input a h) hksize hkentry
      (Lu.inverts_of_factor hksquare le_rfl hfactor) hy.1 hy.2 hv

/-- A diagonal is that of the matrix of the argument, and its form solves the normal equations. -/
theorem exists_solves_of_scaling {s : Scaling R} (hb : a.Bears g input.layout h) (ha : a.Matches input.layout)
    (hargs : input.args = [a]) (hs : input.scaling = .ok s) (halpha : 0 ≤ input.function.alpha)
    (hrho : 0 ≤ input.rho) (hv : v.size = input.layout.n) :
    ∃ x, apply ⟨input.function.alpha, input.rho, .scaling s⟩ v = .ok x ∧ x.size = input.layout.n ∧
      (problem input a h).Solves v x := by
  rw [TermInput.scaling_eq hargs] at hs
  obtain ⟨o, ho, hs⟩ := bind_eq_ok.1 hs
  cases o with
  | none => exact absurd hs fail_ne_ok
  | some d =>
    cases pure_eq_ok.1 hs
    obtain ⟨hsquare, hsize, hdiag⟩ := hb.diagonal? ha ho
    exact exists_solves_scaling (p := problem input a h) ⟨hsize, ha.offset.trans hsquare⟩ hsquare hdiag rfl
      halpha hrho hv

end SumSquareOperator

/-! ## Proximal points -/

/-- `input.General`: the argument shows no diagonal, so the operator is made from the factors. -/
def TermInput.General (input : TermInput R) : Prop := ∃ e, input.scaling = .error (.failed e)

namespace SumSquareOperator

variable {input : TermInput R} {a : Argument R} {h : Nat → Nat → R}

/-- The operator of a term gives solutions of the normal equations, whichever form it has. -/
theorem ends_of_solves (hb : a.Bears (Lore.alone (a.Usable input.layout)) input.layout h)
    (ha : a.Matches input.layout) (hargs : input.args = [a]) (halpha : 0 ≤ input.function.alpha)
    (hrho : 0 ≤ input.rho) :
    Ends (fun f => (f = .failed .noUniqueMinimizer ∧ input.General ∧
          IsSingular input.layout.n (problem input a h).normal) ∨ Fault.Unless (a.Usable input.layout) f)
      (fun o => (input.General → ¬ IsSingular input.layout.n (problem input a h).normal) ∧
        ∀ v : Array R, v.size = input.layout.n →
          ∃ x, o.apply v = .ok x ∧ x.size = input.layout.n ∧ (problem input a h).Solves v x)
      (of input) := by
  have hscaling : Ends (fun f => f = .failed (.notDiagonal input.function.kind) ∨
      Fault.Unless (a.Usable input.layout) f) (fun _ => True) input.scaling := by
    rw [TermInput.scaling_eq hargs]
    refine (ha.ends_diagonal?.mono (fun _ hf => Or.inr hf) fun _ ho => ho).bind fun o _ => ?_
    cases o with
    | none => exact Or.inl rfl
    | some d => exact ends_ok trivial
  rw [of, TermInput.single, hargs]
  cases hs : input.scaling with
  | ok s =>
    refine ends_ok ⟨?_, fun v hv => exists_solves_of_scaling hb ha hargs hs halpha hrho hv⟩
    rintro ⟨e, he⟩
    cases hs.symm.trans he
  | error f =>
    rcases hscaling.of_eq_error hs with rfl | ⟨rfl, hc⟩
    · have hgeneral : input.General := ⟨_, hs⟩
      have hform := ends_generalForm_solves hb ha (allows_unless Argument.Usable.dense)
        (allows_unless Argument.Usable.normal) fun kl hkl => allows_unless fun hu => (hu.maps kl hkl).1
      refine (hform.mono (fun f hf => ?_) fun _ hq => hq).bind fun form hform =>
        ends_ok ⟨fun _ => hform.1, hform.2⟩
      exact hf.imp_left fun hf => ⟨hf.1, hgeneral, hf.2⟩
    · exact Or.inr ⟨rfl, hc⟩

end SumSquareOperator

open SumSquareOperator in
/-- The operator of a sum of squares gives proximal points.  An argument without a diagonal has one unless
    its normal equations are singular, and that is reported; where a diagonal argument could have been
    treated as a general one, both forms give the same point.  Otherwise only the room can run out. -/
theorem sumSquare_minimizes {input : TermInput R} {a : Argument R} (hargs : input.args = [a])
    (ha : a.Matches input.layout) (hlin : a.Linear) (halpha : 0 ≤ input.function.alpha)
    (hrho : 0 ≤ input.rho) :
    ∃ h, a.Bears (Lore.alone (a.Usable input.layout)) input.layout h ∧
      Ends (Fault.Unless (a.Usable input.layout)) (fun d => d.size = (a.dim, input.layout.n) ∧
        ∀ r j, r < a.dim → j < input.layout.n → d.entry r j = h r j) (a.dense input.layout) ∧
      Ends (fun f => (f = .failed .noUniqueMinimizer ∧ input.General ∧
            IsSingular input.layout.n (problem input a h).normal) ∨ Fault.Unless (a.Usable input.layout) f)
        (fun o => (input.General → ¬ IsSingular input.layout.n (problem input a h).normal) ∧
          ∀ v : Array R, v.size = input.layout.n →
            ∃ x, o.apply v = pure x ∧ IsProx (problem input a h).cost input.rho v x)
        (Family.sumSquare.init input) ∧
      ∀ s form, input.scaling = .ok s → generalForm input a = .ok form →
        ∀ v : Array R, v.size = input.layout.n →
          ∃ x, apply ⟨input.function.alpha, input.rho, .scaling s⟩ v = .ok x ∧
            apply ⟨input.function.alpha, input.rho, form⟩ v = .ok x := by
  obtain ⟨h, hb⟩ := hlin.exists_bears ha
  have hdense : Allows (Fault.Unless (a.Usable input.layout)) (a.dim * input.layout.n) :=
    allows_unless fun hu => hu.dense
  have hnormal : Allows (Fault.Unless (a.Usable input.layout)) (input.layout.n * input.layout.n) :=
    allows_unless fun hu => hu.normal
  have hmaps (kl) (hkl : kl ∈ a.maps.entries) : Allows (Fault.Unless (a.Usable input.layout)) kl.2.extent :=
    allows_unless fun hu => (hu.maps kl hkl).1
  refine ⟨h, hb, hb.ends_dense ha hdense hmaps, ?_, fun s form hs hform v hv => ?_⟩
  · refine (ends_of_solves hb ha hargs halpha hrho).map fun o ho => ⟨ho.1, fun v hv => ?_⟩
    obtain ⟨x, hx, hsize, hsolves⟩ := ho.2 v hv
    have hslope := hsolves.hasSlope halpha hsize
    exact ⟨x, congrArg Logged.ofOutcome hx, hslope.isProx (hsize.trans hv.symm) hrho⟩
  · obtain ⟨x, hx, hsize, hsolves⟩ := exists_solves_of_scaling hb ha hargs hs halpha hrho hv
    obtain ⟨hregular, hgeneral⟩ := (ends_generalForm_solves hb ha hdense hnormal hmaps).of_eq_ok hform
    obtain ⟨y, hy, hsize', hsolves'⟩ := hgeneral v hv
    cases hsolves.unique (p := problem input a h) hregular hsolves' hsize hsize'
    exact ⟨x, hx, hy⟩

/-- An argument of two variables: a column of ones, and a mirror known through its function only. -/
def twofold : Argument ℚ where
  maps := ⟨[("x", .dense ⟨2, 1, #[1, 1], rfl⟩ none), ("y", .opaqueMap (OpaqueMap.mirror 2))],
    List.pairwise_pair.2 (by decide)⟩
  offset := #[1, 0]
  m := 2
  n := 1

/-- Half the sum of the squares of the twofold argument, with a penalty. -/
def joined : TermInput ℚ where
  function := ⟨.sumSquare, 1 / 2, false⟩
  args := [twofold]
  layout := ⟨⟨[("x", 1), ("y", 2)], List.pairwise_pair.2 (by decide)⟩⟩
  rho := 1

theorem twofold_linear : twofold.Linear := by
  refine List.forall_mem_cons.2 ⟨LinearMap.Plain.linear trivial, List.forall_mem_singleton.2 ?_⟩
  exact LinearMap.linear_opaqueMap (OpaqueMap.mirror_isLinear 2)

theorem twofold_matches : twofold.Matches joined.layout :=
  ⟨rfl, List.forall_mem_cons.2 ⟨⟨1, rfl, rfl⟩, List.forall_mem_singleton.2 ⟨2, rfl, rfl⟩⟩⟩

open SumSquareOperator in
/-- The point at zero, through the factors. -/
theorem sumSquare_minimizes_joined :
    joined.args = [twofold] ∧ twofold.Matches joined.layout ∧ twofold.Linear ∧
      (0 : ℚ) ≤ joined.function.alpha ∧ (0 : ℚ) ≤ joined.rho ∧
      ∃ h, twofold.Bears (Lore.alone (twofold.Usable joined.layout)) joined.layout h ∧
        ∃ o : Operator ℚ, Family.sumSquare.init joined = .ok o ∧
          o.apply #[0, 0, 0] = pure #[-1 / 4, 1 / 8, -3 / 8] ∧
          IsProx (problem joined twofold h).cost 1 #[0, 0, 0] #[-1 / 4, 1 / 8, -3 / 8] := by
  have halpha : (0 : ℚ) ≤ joined.function.alpha := by decide +kernel
  have hrho : (0 : ℚ) ≤ joined.rho := by decide +kernel
  obtain ⟨h, hb, -, hinit, -⟩ := sumSquare_minimizes rfl twofold_matches twofold_linear halpha hrho
  obtain ⟨x, hx, hvalue⟩ := exists_eq_ok_and
    (x := Family.sumSquare.init joined >>= fun o => (o.apply #[0, 0, 0]).outcome)
    (p := fun x => x == #[-1 / 4, 1 / 8, -3 / 8]) (by decide +kernel)
  obtain ⟨o, ho, hx⟩ := bind_eq_ok.1 hx
  obtain ⟨y, hy, hprox⟩ := (hinit.of_eq_ok ho).2 #[0, 0, 0] rfl
  rw [hy] at hx
  rw [show y = x from Except.ok.inj hx, eq_of_beq hvalue] at hy hprox
  exact ⟨rfl, twofold_matches, twofold_linear, halpha, hrho, h, hb, o, ho, hy, hprox⟩

/-- A variable with one entry. -/
def narrow : Argument ℚ where
  maps := ⟨[("x", .scalar 1 1 none)], List.pairwise_singleton ..⟩
  offset := #[0]
  m := 1
  n := 1

/-- Its square, beside a variable with so many entries that no matrix has room for their columns. -/
def crowded : TermInput ℚ where
  function := ⟨.sumSquare, 1, false⟩
  args := [narrow]
  layout := ⟨⟨[("x", 1), ("y", 4611686018427387904)], List.pairwise_pair.2 (by decide)⟩⟩
  rho := 1

open SumSquareOperator in
/-- The normal equations have a solution, and there is no room for their matrix. -/
theorem init_crowded :
    crowded.args = [narrow] ∧ narrow.Matches crowded.layout ∧ narrow.Linear ∧
      (0 : ℚ) ≤ crowded.function.alpha ∧ (0 : ℚ) ≤ crowded.rho ∧ crowded.General ∧
      (∀ h, ¬ IsSingular crowded.layout.n (problem crowded narrow h).normal) ∧
      Family.sumSquare.init crowded = .error .breach := by
  have halpha : (0 : ℚ) ≤ crowded.function.alpha := by decide +kernel
  have hrho : (0 : ℚ) < crowded.rho := by decide +kernel
  refine ⟨rfl, ⟨rfl, List.forall_mem_singleton.2 ⟨1, rfl, rfl⟩⟩,
    List.forall_mem_singleton.2 (LinearMap.Plain.linear trivial), halpha, hrho.le, ⟨.notDiagonal .sumSquare, rfl⟩,
    fun h => ?_, eq_breach_of_breached (by decide +kernel)⟩
  exact Squares.regular_of_pos (p := problem crowded narrow h) halpha hrho

end BlockAdmm
