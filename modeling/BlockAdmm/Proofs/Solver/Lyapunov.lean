/-
  What never increases in a run with two blocks.

  With two blocks the change of the image of the second block is all that lags behind.  If the columns of
  both blocks are orthogonal and of one length, then the monotonicity of each operator, at two sweeps in
  succession, is an inequality between the points of the constraints (`System.inner_moves_nonneg`), and the
  inequalities of both blocks together say that the square of what the iterate leaves of the constraints,
  with the square of that change, does not grow (`System.lyapunov_sweep_le`).
-/
import BlockAdmm.Proofs.Solver.Optimality

namespace BlockAdmm

open Scalar ExactScalar

variable {R : Type} [ExactScalar R]

/-- `blk.Monotone`: the operator of a block is the resolvent of a monotone operator. -/
def TermBlock.Monotone (blk : TermBlock R) : Prop :=
  ∀ v v' x x' : Array R, v.size = blk.layout.n → v'.size = blk.layout.n → x.size = blk.layout.n →
    x'.size = blk.layout.n → (blk.operator.apply v).outcome = .ok x →
    (blk.operator.apply v').outcome = .ok x' →
    0 ≤ ∑ t ∈ Finset.range blk.layout.n,
      (Vec.entry v t - Vec.entry x t - (Vec.entry v' t - Vec.entry x' t))
        * (Vec.entry x t - Vec.entry x' t)

/-- The operator of a linear term shifts all points alike, so it is one. -/
theorem TermBlock.monotone_linear {blk : TermBlock R} {c : Array R} {rho : R}
    (hop : blk.operator = .linear ⟨c, rho⟩) (hsize : c.size = blk.layout.n) : blk.Monotone := by
  intro v v' x x' hv hv' hx hx' h h'
  rw [hop] at h h'
  obtain rfl : LinearOperator.apply ⟨c, rho⟩ v = x := Except.ok.inj h
  obtain rfl : LinearOperator.apply ⟨c, rho⟩ v' = x' := Except.ok.inj h'
  refine Finset.sum_nonneg fun t ht => le_of_eq ?_
  have ht := Finset.mem_range.1 ht
  rw [LinearOperator.sub_apply (hsize.trans hv.symm) (ht.trans_eq hv.symm),
    LinearOperator.sub_apply (hsize.trans hv'.symm) (ht.trans_eq hv'.symm), sub_self, zero_mul]

namespace System

variable {s : System R} {it it₁ it₂ : Iterate R} {K : Coefs R}

/-- `s.violation it`: what an iterate leaves of the constraints. -/
def violation (s : System R) (it : Iterate R) (r : String) (i : Nat) : R :=
  s.b.coord r i + imageSum s.blocks it.x r i

/-- `s.lyapunov blk it`: the square of what an iterate leaves of the constraints, with the square of the
    last change of the image of a block. -/
def lyapunov (s : System R) (blk : TermBlock R) (it : Iterate R) : R :=
  ∑ q ∈ s.rows, (s.violation it q.1 q.2 ^ 2 + lag [blk] it q.1 q.2 ^ 2)

theorem lag_singleton (blk : TermBlock R) (it : Iterate R) (r : String) (i : Nat) :
    lag [blk] it r i = blk.image it.x r i - blk.image it.previous r i := by
  rw [lag, imageSum_cons, imageSum_cons]
  show _ + 0 - (_ + 0) = _
  rw [add_zero, add_zero]

theorem slope_scalar {blk : TermBlock R} {alpha : R} (hc : blk.coupling = .scalar alpha)
    (rest : List (TermBlock R)) (c : String) (j : Nat) :
    slope K 1 blk rest it c j = blk.backProduct K (fun r i => it.u.coord r i + lag rest it r i) c j := by
  rw [slope, TermBlock.stepError, hc, one_mul]
  exact add_zero _

/-- The monotonicity of an operator at two sweeps in succession, in the rows of the constraints. -/
theorem inner_moves_nonneg (hd : Divided s.blocks) (h₁ : (s.sweep it).outcome = .ok it₁)
    (h₂ : (s.sweep it₁).outcome = .ok it₂) (through : List (TermBlock R)) {rest : List (TermBlock R)}
    {blk : TermBlock R} (hs : s.blocks = through ++ blk :: rest) (hK : blk.Carries K) {alpha : R}
    (hc : blk.coupling = .scalar alpha) (hgram : blk.HasGram K alpha) (hm : blk.Monotone) :
    0 ≤ ∑ q ∈ s.rows,
      (it₂.u.coord q.1 q.2 + lag rest it₂ q.1 q.2 - (it₁.u.coord q.1 q.2 + lag rest it₁ q.1 q.2))
        * (blk.image it₂.x q.1 q.2 - blk.image it₁.x q.1 q.2) := by
  have hmem : blk ∈ s.blocks := hs ▸ List.mem_append_right _ List.mem_cons_self
  have hconsistent : blk.Consistent K := by rw [TermBlock.Consistent, hc]; exact hgram
  obtain ⟨v₁, z₁, hz₁, hv₁, hsize₁, hx₁, hrate₁⟩ := exists_move hd h₁ hs hK hconsistent
  obtain ⟨v₂, z₂, hz₂, hv₂, hsize₂, hx₂, hrate₂⟩ := exists_move hd h₂ hs hK hconsistent
  have hmono := hm v₂ v₁ z₂ z₁ hv₂ hv₁ hsize₂ hsize₁ hz₂ hz₁
  rw [Layout.sum_range_eq_sum_cells] at hmono
  have hnonneg : 0 ≤ ∑ p ∈ blk.places, alpha * ((Vec.entry v₂ (blk.place p) - Vec.entry z₂ (blk.place p)
      - (Vec.entry v₁ (blk.place p) - Vec.entry z₁ (blk.place p)))
        * (Vec.entry z₂ (blk.place p) - Vec.entry z₁ (blk.place p))) := by
    rcases blk.places.eq_empty_or_nonempty with hempty | ⟨p, hp⟩
    · rw [hempty, Finset.sum_empty]
    · rw [← Finset.mul_sum]
      exact mul_nonneg (hgram.nonneg hp) hmono
  -- the penalty with the weight one is the length of the columns
  have hback (p : Cell) (hp : p ∈ blk.places) :
      alpha * ((Vec.entry v₂ (blk.place p) - Vec.entry z₂ (blk.place p)
        - (Vec.entry v₁ (blk.place p) - Vec.entry z₁ (blk.place p)))
          * (Vec.entry z₂ (blk.place p) - Vec.entry z₁ (blk.place p)))
      = blk.backProduct K (fun r i => it₂.u.coord r i + lag rest it₂ r i
          - (it₁.u.coord r i + lag rest it₁ r i)) p.1 p.2
        * (it₂.x.coord p.1 p.2 - it₁.x.coord p.1 p.2) := by
    have hr₁ := hrate₁ 1 p hp
    have hr₂ := hrate₂ 1 p hp
    rw [slope_scalar hc, hc, Coupling.penalty, one_mul] at hr₁ hr₂
    rw [TermBlock.backProduct_sub, ← hr₁, ← hr₂, hx₁ p hp, hx₂ p hp]
    ring
  rw [Finset.sum_congr rfl hback, hK.sum_backProduct_mul (rows_of_mem hmem) _
    fun k i => it₂.x.coord k i - it₁.x.coord k i] at hnonneg
  obtain ⟨⟨y₁, hy₁⟩, -⟩ := apply_of_sweep hd h₁ hmem
  obtain ⟨⟨y₂, hy₂⟩, -⟩ := apply_of_sweep hd h₂ hmem
  refine hnonneg.trans_eq (Finset.sum_congr rfl fun q _ => ?_)
  rw [TermBlock.product_sub, ← hK.image_eq hy₁, ← hK.image_eq hy₂]

/-! ## Two blocks -/

variable {b₁ b₂ : TermBlock R} {alpha₁ alpha₂ : R}

/-- Two blocks whose columns are orthogonal, those of each block of one length, with monotone operators. -/
structure TwoScalarBlocks (s : System R) (K : Coefs R) (b₁ b₂ : TermBlock R) (alpha₁ alpha₂ : R) : Prop where
  blocks : s.blocks = [b₁, b₂]
  divided : Divided s.blocks
  carries₁ : b₁.Carries K
  carries₂ : b₂.Carries K
  coupling₁ : b₁.coupling = .scalar alpha₁
  coupling₂ : b₂.coupling = .scalar alpha₂
  gram₁ : b₁.HasGram K alpha₁
  gram₂ : b₂.HasGram K alpha₂
  monotone₁ : b₁.Monotone
  monotone₂ : b₂.Monotone

/-- From one sweep to the next the sum of the two squares does not grow. -/
theorem TwoScalarBlocks.lyapunov_sweep_le (ht : TwoScalarBlocks s K b₁ b₂ alpha₁ alpha₂)
    (h₁ : (s.sweep it).outcome = .ok it₁) (h₂ : (s.sweep it₁).outcome = .ok it₂) :
    s.lyapunov b₂ it₂ ≤ s.lyapunov b₂ it₁ := by
  have hfirst := inner_moves_nonneg ht.divided h₁ h₂ [] ht.blocks ht.carries₁ ht.coupling₁ ht.gram₁
    ht.monotone₁
  have hsecond := inner_moves_nonneg ht.divided h₁ h₂ [b₁] ht.blocks ht.carries₂ ht.coupling₂ ht.gram₂
    ht.monotone₂
  have hu (r : String) (i : Nat) : it₂.u.coord r i - it₁.u.coord r i = -s.violation it₂ r i := by
    rw [coord_u_sweep ht.divided h₂, violation]
    ring
  have hprevious := (swept_sweep ht.divided h₂).previous
  have hlag (r : String) (i : Nat) : lag [b₂] it₂ r i = b₂.image it₂.x r i - b₂.image it₁.x r i := by
    rw [lag_singleton, hprevious]
  have hviolation (it : Iterate R) (r : String) (i : Nat) :
      s.violation it r i = s.b.coord r i + b₁.image it.x r i + b₂.image it.x r i := by
    rw [violation, ht.blocks, imageSum_cons, imageSum_cons]
    show _ + (_ + (_ + 0)) = _
    ring
  -- the first block sees what the second one changes afterwards, the second sees nothing behind it
  have hfirst : 0 ≤ ∑ q ∈ s.rows, (-s.violation it₂ q.1 q.2 + lag [b₂] it₂ q.1 q.2 - lag [b₂] it₁ q.1 q.2)
      * (s.violation it₂ q.1 q.2 - s.violation it₁ q.1 q.2 - lag [b₂] it₂ q.1 q.2) := by
    refine hfirst.trans_eq (Finset.sum_congr rfl fun q _ => ?_)
    rw [← hu, hviolation it₂, hviolation it₁, hlag]
    ring
  have hsecond : 0 ≤ ∑ q ∈ s.rows, -s.violation it₂ q.1 q.2 * lag [b₂] it₂ q.1 q.2 := by
    refine hsecond.trans_eq (Finset.sum_congr rfl fun q _ => ?_)
    have hnone (it : Iterate R) : lag [] it q.1 q.2 = 0 := sub_self _
    rw [hnone, hnone, add_zero, add_zero, hu, hlag]
  have hdiff : s.lyapunov b₂ it₁ - s.lyapunov b₂ it₂
      = 2 * ∑ q ∈ s.rows, (-s.violation it₂ q.1 q.2 + lag [b₂] it₂ q.1 q.2 - lag [b₂] it₁ q.1 q.2)
          * (s.violation it₂ q.1 q.2 - s.violation it₁ q.1 q.2 - lag [b₂] it₂ q.1 q.2)
        + 2 * ∑ q ∈ s.rows, -s.violation it₂ q.1 q.2 * lag [b₂] it₂ q.1 q.2
        + ∑ q ∈ s.rows, (s.violation it₁ q.1 q.2 - lag [b₂] it₁ q.1 q.2 - s.violation it₂ q.1 q.2
          + lag [b₂] it₂ q.1 q.2) ^ 2 := by
    rw [lyapunov, lyapunov, Finset.mul_sum, Finset.mul_sum, ← Finset.sum_sub_distrib,
      ← Finset.sum_add_distrib, ← Finset.sum_add_distrib]
    exact Finset.sum_congr rfl fun q _ => by ring
  have hsquares : 0 ≤ ∑ q ∈ s.rows, (s.violation it₁ q.1 q.2 - lag [b₂] it₁ q.1 q.2
      - s.violation it₂ q.1 q.2 + lag [b₂] it₂ q.1 q.2) ^ 2 := Finset.sum_nonneg fun _ _ => sq_nonneg _
  linarith

/-- Along every run of sweeps, from any state, the sum of the two squares never increases from the end of
    the first sweep on. -/
theorem lyapunov_antitone (ht : TwoScalarBlocks s K b₁ b₂ alpha₁ alpha₂) (its : Nat → Iterate R) (n : Nat)
    (hrun : ∀ t, t < n → (s.sweep (its t)).outcome = .ok (its (t + 1))) :
    ∀ j k, 1 ≤ j → j ≤ k → k ≤ n → s.lyapunov b₂ (its k) ≤ s.lyapunov b₂ (its j) := by
  intro j k hj hjk hkn
  induction k, hjk using Nat.le_induction with
  | base => exact le_rfl
  | succ k hjk ih =>
    have hprev : (s.sweep (its (k - 1))).outcome = .ok (its k) := by
      have h := hrun (k - 1) (by omega)
      rwa [Nat.sub_add_cancel (by omega)] at h
    exact (ht.lyapunov_sweep_le hprev (hrun k (by omega))).trans (ih (by omega))

/-- `tilted`: minimize `x + 2 y` subject to `1 + x + y = 0`, with a block for each variable. -/
def tilted : System ℚ := { pair with blocks := [sloped "x" 1, sloped "y" 2] }

theorem twoScalarBlocks_tilted : TwoScalarBlocks tilted
    (fun r _ i j => if r = "r" ∧ i = 0 ∧ j = 0 then 1 else 0) (sloped "x" 1) (sloped "y" 2) 1 1 := by
  have hx := carries_plain (k := "x") (K := fun r _ i j => if r = "r" ∧ i = 0 ∧ j = 0 then 1 else 0)
    fun _ _ _ => rfl
  have hy := carries_plain (k := "y") (K := fun r _ i j => if r = "r" ∧ i = 0 ∧ j = 0 then 1 else 0)
    fun _ _ _ => rfl
  exact
    { blocks := rfl
      divided := ⟨by decide, by decide⟩
      carries₁ := ⟨hx.represents, hx.transpose, hx.cols⟩
      carries₂ := ⟨hy.represents, hy.transpose, hy.cols⟩
      coupling₁ := rfl
      coupling₂ := rfl
      gram₁ := by rw [TermBlock.HasGram]; decide +kernel
      gram₂ := by rw [TermBlock.HasGram]; decide +kernel
      monotone₁ := TermBlock.monotone_linear rfl rfl
      monotone₂ := TermBlock.monotone_linear rfl rfl }

theorem lyapunov_antitone_tilted : ∃ its : Nat → Iterate ℚ, its 0 = tilted.start ∧
    (∀ t, t < 2 → (tilted.sweep (its t)).outcome = .ok (its (t + 1))) ∧
      tilted.lyapunov (sloped "y" 2) (its 2) ≤ tilted.lyapunov (sloped "y" 2) (its 1) := by
  obtain ⟨it₂, h⟩ := exists_eq_ok
    (x := (tilted.sweep tilted.start >>= fun it => tilted.sweep it).outcome) (by decide +kernel)
  obtain ⟨it₁, h₁, h₂⟩ := Logged.bind_eq_ok.1 h
  have hrun : ∀ t, t < 2 → (tilted.sweep ([tilted.start, it₁].getD t it₂)).outcome
      = .ok ([tilted.start, it₁].getD (t + 1) it₂)
    | 0, _ => h₁
    | 1, _ => h₂
  exact ⟨fun t => [tilted.start, it₁].getD t it₂, rfl, hrun,
    lyapunov_antitone twoScalarBlocks_tilted _ 2 hrun 1 2 le_rfl (by decide) le_rfl⟩

end System

end BlockAdmm
