/-
  States that a sweep does not change.

  If the proximal operator of a block is exact for its term, then after each sweep the slope of the block
  is a subgradient of the term (`System.isSubgradient_slope`).  In a state that a sweep does not change
  nothing lags behind and no step errs, so the slopes of all blocks come from one and the same multiplier,
  the running sum (`System.isSubgradient_of_unchanged`); the constraints hold, since the running sum stays;
  and along points that satisfy the constraints the slopes add up to nothing
  (`System.sum_backProduct_mul_sub`).  So the iterate is optimal (`System.sum_le_of_isSubgradient`).
-/
import BlockAdmm.Proofs.Solver.Step

namespace BlockAdmm

open Scalar ExactScalar

variable {R : Type} [ExactScalar R]

/-! ## Exact proximal operators -/

/-- `IsSubgradient f x g`: the function `f`, which is `⊤` where it is not defined, stays above its value at
    `x` with the slope `g`. -/
def IsSubgradient {n : Nat} (f : (Fin n → R) → WithTop R) (x g : Fin n → R) : Prop :=
  ∀ y, f x + ((∑ t, g t * (y t - x t) : R) : WithTop R) ≤ f y

/-- `blk.ProxOf f`: what the operator of a block gives satisfies the condition of optimality for the
    term `f` with the penalty of the block. -/
def TermBlock.ProxOf (blk : TermBlock R) (f : (Fin blk.layout.n → R) → WithTop R) : Prop :=
  ∀ v x : Array R, v.size = blk.layout.n → x.size = blk.layout.n → (blk.operator.apply v).outcome = .ok x →
    IsSubgradient f (fun t => Vec.entry x t) fun t => blk.rho * (Vec.entry v t - Vec.entry x t)

/-- The operator of a linear term shifts its point by the gradient over the penalty. -/
theorem LinearOperator.sub_apply {c v : Array R} {rho : R} (hsize : c.size = v.size) {t : Nat}
    (ht : t < v.size) : Vec.entry v t - Vec.entry (apply ⟨c, rho⟩ v) t = Vec.entry c t / rho := by
  rw [apply]
  split
  · rename_i hzero
    have hzero : rho = 0 := beq_iff_eq.1 hzero
    rw [hzero, div_zero, sub_self]
  · rw [Vec.entry_build _ (by rw [hsize, min_self]; exact ht), sub_sub_cancel]

/-- The operator of a linear term is exact, if without a penalty there is nothing to minimize. -/
theorem TermBlock.proxOf_linear {blk : TermBlock R} {c : Array R} (hop : blk.operator = .linear ⟨c, blk.rho⟩)
    (hsize : c.size = blk.layout.n) (hbounded : blk.rho = 0 → ∀ t, Vec.entry c t = 0) :
    blk.ProxOf fun y => ((∑ t : Fin blk.layout.n, Vec.entry c t * y t : R) : WithTop R) := by
  intro v x hv hx h y
  rw [hop] at h
  obtain rfl : LinearOperator.apply ⟨c, blk.rho⟩ v = x := Except.ok.inj h
  have hslope (t : Fin blk.layout.n) : blk.rho
      * (Vec.entry v t - Vec.entry (LinearOperator.apply ⟨c, blk.rho⟩ v) t) = Vec.entry c t := by
    rw [LinearOperator.sub_apply (hsize.trans hv.symm) (t.isLt.trans_eq hv.symm)]
    rcases eq_or_ne blk.rho 0 with hzero | hne
    · rw [hbounded hzero, zero_div, mul_zero]
    · exact mul_div_cancel₀ _ hne
  rw [← WithTop.coe_add, WithTop.coe_le_coe, ← Finset.sum_add_distrib]
  refine (Finset.sum_congr rfl fun t _ => ?_).le
  beta_reduce
  rw [hslope]
  ring

namespace System

variable {s : System R} {it it' : Iterate R} {K : Coefs R}

/-- After a sweep the slope of a block is a subgradient of its term. -/
theorem isSubgradient_slope (hd : Divided s.blocks) (h : (s.sweep it).outcome = .ok it')
    {through rest : List (TermBlock R)} {blk : TermBlock R} (hs : s.blocks = through ++ blk :: rest)
    (hK : blk.Carries K) (hc : blk.Consistent K) {rho : R} (hp : blk.rho = blk.coupling.penalty rho)
    {f : (Fin blk.layout.n → R) → WithTop R} (hf : blk.ProxOf f) :
    IsSubgradient f (blk.layout.read it'.x.coord) (blk.layout.read (slope K rho blk rest it')) := by
  obtain ⟨v, z, hz, hvsize, hzsize, hnew, hrate⟩ := exists_move hd h hs hK hc
  have hx : (fun t : Fin blk.layout.n => Vec.entry z t) = blk.layout.read it'.x.coord := by
    funext t
    obtain ⟨hcell, hplace⟩ := TermBlock.place_cellAt t.isLt
    rw [Layout.read, ← hnew _ hcell, hplace]
  have hg : (fun t : Fin blk.layout.n => blk.rho * (Vec.entry v t - Vec.entry z t))
      = blk.layout.read (slope K rho blk rest it') := by
    funext t
    obtain ⟨hcell, hplace⟩ := TermBlock.place_cellAt t.isLt
    rw [Layout.read, ← hrate rho _ hcell, hplace, hp]
  rw [← hx, ← hg]
  exact hf v z hvsize hzsize hz

/-! ## Fixed points -/

/-- `s.rows`: the rows of the constraints. -/
def rows (s : System R) : Finset Cell :=
  s.blocks.foldr (fun blk S => cells blk.a.rowDims ∪ S) (cells (s.b.blocks.map Array.size))

omit [ExactScalar R] in
theorem rows_of_mem {blk : TermBlock R} (hblk : blk ∈ s.blocks) : cells blk.a.rowDims ⊆ s.rows := by
  rw [rows]
  generalize s.blocks = blocks at hblk
  induction blocks with
  | nil => exact absurd hblk List.not_mem_nil
  | cons b blocks ih =>
    rw [List.foldr_cons]
    rcases List.mem_cons.1 hblk with rfl | hblk
    · exact Finset.subset_union_left
    · exact (ih hblk).trans Finset.subset_union_right

theorem productSum_eq_sum (K : Coefs R) (blocks : List (TermBlock R)) (x : String → Nat → R) (r : String)
    (i : Nat) : productSum K blocks x r i = ∑ t : Fin blocks.length, (blocks.get t).product K x r i :=
  (Fin.sum_univ_fun_getElem blocks fun blk => blk.product K x r i).symm

/-- Slopes that come from one multiplier add up to nothing along points with the same products. -/
theorem sum_backProduct_mul_sub (hK : ∀ blk ∈ s.blocks, blk.Carries K) (u x y : String → Nat → R)
    (hxy : ∀ r i, productSum K s.blocks x r i = productSum K s.blocks y r i) :
    ∑ t : Fin s.blocks.length, ∑ p ∈ (s.blocks.get t).places,
      (s.blocks.get t).backProduct K u p.1 p.2 * (y p.1 p.2 - x p.1 p.2) = 0 := by
  have hblock (t : Fin s.blocks.length) : ∑ p ∈ (s.blocks.get t).places,
        (s.blocks.get t).backProduct K u p.1 p.2 * (y p.1 p.2 - x p.1 p.2)
      = ∑ q ∈ s.rows, u q.1 q.2
          * ((s.blocks.get t).product K y q.1 q.2 - (s.blocks.get t).product K x q.1 q.2) := by
    have hmem := List.get_mem s.blocks t
    rw [(hK _ hmem).sum_backProduct_mul (rows_of_mem hmem) u fun k i => y k i - x k i]
    exact Finset.sum_congr rfl fun q _ => by rw [TermBlock.product_sub]
  rw [Finset.sum_congr rfl fun t _ => hblock t, Finset.sum_comm]
  refine Finset.sum_eq_zero fun q _ => ?_
  rw [← Finset.mul_sum, Finset.sum_sub_distrib, ← productSum_eq_sum, ← productSum_eq_sum, hxy, sub_self,
    mul_zero]

/-- Where nothing changed the slope of a block is `ρ Aᵀ u`. -/
theorem slope_of_unchanged {rho : R} {blk : TermBlock R} {rest : List (TermBlock R)}
    (hx : it.x.coord = it.previous.coord) (hlag : ∀ r i, lag rest it r i = 0) :
    slope K rho blk rest it = fun c j => rho * blk.backProduct K it.u.coord c j := by
  funext c j
  have herror : blk.stepError K rho (fun k i => it.x.coord k i - it.previous.coord k i) c j = 0 := by
    rw [hx, TermBlock.stepError]
    cases blk.coupling with
    | linearized mu =>
      have hzero : blk.product K (fun k i => it.previous.coord k i - it.previous.coord k i)
          = fun r i => blk.product K it.previous.coord r i - blk.product K it.previous.coord r i := by
        funext r i
        exact TermBlock.product_sub ..
      show rho * (blk.backProduct K _ c j - mu * (it.previous.coord c j - it.previous.coord c j)) = 0
      rw [hzero, TermBlock.backProduct_sub]
      ring
    | _ => rfl
  rw [slope, herror, add_zero]
  simp only [hlag, add_zero]

omit [ExactScalar R] in
/-- The turn of a block, between those before it and those behind it. -/
theorem blocks_eq_append (s : System R) (t : Fin s.blocks.length) :
    s.blocks = s.blocks.take t ++ s.blocks.get t :: s.blocks.drop (t + 1) := by
  rw [List.get_eq_getElem, List.getElem_cons_drop, List.take_append_drop]

/-- A state that a sweep leaves as it is satisfies the constraints. -/
theorem feasible_of_unchanged (hd : Divided s.blocks) (hK : ∀ blk ∈ s.blocks, blk.Carries K)
    (h : (s.sweep it).outcome = .ok it') (hu : it'.u.coord = it.u.coord) (r : String) (i : Nat) :
    s.b.coord r i + productSum K s.blocks it'.x.coord r i = 0 := by
  have hstep := coord_u_sweep hd h r i
  rw [hu, imageSum_eq_productSum hK fun blk hblk => (apply_of_sweep hd h hblk).1] at hstep
  linarith

section Terms

variable {f : (t : Fin s.blocks.length) → (Fin (s.blocks.get t).layout.n → R) → WithTop R}

/-- In a state that a sweep leaves as it is `ρ Aᵀ u` is a subgradient of each term. -/
theorem isSubgradient_of_unchanged (hd : Divided s.blocks) (hK : ∀ blk ∈ s.blocks, blk.Carries K)
    (hc : ∀ blk ∈ s.blocks, blk.Consistent K)
    (hp : ∀ blk ∈ s.blocks, blk.rho = blk.coupling.penalty s.settings.rho)
    (hf : ∀ t, (s.blocks.get t).ProxOf (f t)) (h : (s.sweep it).outcome = .ok it')
    (hx : it'.x.coord = it.x.coord) (t : Fin s.blocks.length) :
    IsSubgradient (f t) ((s.blocks.get t).layout.read it'.x.coord) ((s.blocks.get t).layout.read
      fun c j => s.settings.rho * (s.blocks.get t).backProduct K it'.u.coord c j) := by
  have hprevious := (swept_sweep hd h).previous
  have hmem := List.get_mem s.blocks t
  have hrest {blk : TermBlock R} (hblk : blk ∈ s.blocks.drop (t + 1)) : blk ∈ s.blocks :=
    List.mem_of_mem_drop hblk
  have hlag (r : String) (i : Nat) : lag (s.blocks.drop (t + 1)) it' r i = 0 := by
    rw [lag, imageSum_eq_productSum (fun _ hblk => hK _ (hrest hblk))
        fun _ hblk => (apply_of_sweep hd h (hrest hblk)).1,
      imageSum_eq_productSum (fun _ hblk => hK _ (hrest hblk))
        fun _ hblk => (apply_of_sweep hd h (hrest hblk)).2, hprevious, hx, sub_self]
  have hslope := isSubgradient_slope hd h (s.blocks_eq_append t) (hK _ hmem) (hc _ hmem) (hp _ hmem) (hf t)
  rwa [slope_of_unchanged (by rw [hprevious, hx]) hlag] at hslope

/-- Subgradients that come from one multiplier make a point optimal among those with the same products. -/
theorem sum_le_of_isSubgradient (hK : ∀ blk ∈ s.blocks, blk.Carries K) {rho : R}
    {u x y : String → Nat → R}
    (hxy : ∀ r i, productSum K s.blocks x r i = productSum K s.blocks y r i)
    (hsub : ∀ t, IsSubgradient (f t) ((s.blocks.get t).layout.read x)
      ((s.blocks.get t).layout.read fun c j => rho * (s.blocks.get t).backProduct K u c j)) :
    ∑ t, f t ((s.blocks.get t).layout.read x) ≤ ∑ t, f t ((s.blocks.get t).layout.read y) := by
  let gap (t : Fin s.blocks.length) : R := ∑ i, (s.blocks.get t).layout.read
      (fun c j => rho * (s.blocks.get t).backProduct K u c j) i
    * ((s.blocks.get t).layout.read y i - (s.blocks.get t).layout.read x i)
  -- the slopes of all blocks together say nothing
  have hgap : ∑ t, gap t = 0 := by
    have hread (t : Fin s.blocks.length) : gap t = rho * ∑ p ∈ (s.blocks.get t).places,
        (s.blocks.get t).backProduct K u p.1 p.2 * (y p.1 p.2 - x p.1 p.2) := by
      rw [Finset.mul_sum]
      refine (Layout.sum_read _ fun c j =>
        rho * (s.blocks.get t).backProduct K u c j * (y c j - x c j)).trans ?_
      exact Finset.sum_congr rfl fun p _ => mul_assoc ..
    rw [Finset.sum_congr rfl fun t _ => hread t, ← Finset.mul_sum, sum_backProduct_mul_sub hK u x y hxy,
      mul_zero]
  calc ∑ t, f t ((s.blocks.get t).layout.read x)
      = ∑ t, (f t ((s.blocks.get t).layout.read x) + ((gap t : R) : WithTop R)) := by
        rw [Finset.sum_add_distrib, ← WithTop.coe_sum, hgap, WithTop.coe_zero, add_zero]
    _ ≤ ∑ t, f t ((s.blocks.get t).layout.read y) := Finset.sum_le_sum fun t _ => hsub t _

end Terms

/-- A state that a sweep leaves as it is satisfies the constraints and is optimal among all points that
    do. -/
theorem fixed_point_optimal (hd : Divided s.blocks) (hK : ∀ blk ∈ s.blocks, blk.Carries K)
    (hc : ∀ blk ∈ s.blocks, blk.Consistent K)
    (hp : ∀ blk ∈ s.blocks, blk.rho = blk.coupling.penalty s.settings.rho)
    {f : (t : Fin s.blocks.length) → (Fin (s.blocks.get t).layout.n → R) → WithTop R}
    (hf : ∀ t, (s.blocks.get t).ProxOf (f t)) (h : (s.sweep it).outcome = .ok it')
    (hx : it'.x.coord = it.x.coord) (hu : it'.u.coord = it.u.coord) :
    (∀ r i, s.b.coord r i + productSum K s.blocks it'.x.coord r i = 0) ∧
      ∀ y, (∀ r i, s.b.coord r i + productSum K s.blocks y r i = 0) →
        ∑ t, f t ((s.blocks.get t).layout.read it'.x.coord) ≤ ∑ t, f t ((s.blocks.get t).layout.read y) := by
  have hfeasible := feasible_of_unchanged hd hK h hu
  refine ⟨hfeasible, fun y hy => ?_⟩
  refine sum_le_of_isSubgradient hK (fun r i => ?_) (isSubgradient_of_unchanged hd hK hc hp hf h hx)
  have hxr := hfeasible r i
  have hyr := hy r i
  linarith

/-- `sloped k c`: a block of one scalar variable with the coefficient one in the row `r`, and the term
    `c x`. -/
def sloped (k : String) (c : ℚ) : TermBlock ℚ := { plain k with operator := .linear ⟨#[c], 1⟩ }

/-- `mixed`: minimize `x + y` subject to `1 + x + y = 0`, with a block of each coupling; no constraint
    touches `z`. -/
def mixed : System ℚ where
  settings := Settings.default
  blocks := [sloped "x" 1,
    { sloped "y" 1 with coupling := .linearized 2, rho := 2, operator := .linear ⟨#[1], 2⟩ },
    { sloped "z" 0 with
      a := BlockMatrix.empty, back := BlockMatrix.empty, coupling := .unconstrained, rho := 0,
      operator := .linear ⟨#[0], 0⟩ }]
  b := ⟨Keyed.ofList [("r", #[1])]⟩
  n := 2

/-- `balanced`: a state of `mixed` that a sweep leaves as it is. -/
def balanced : Iterate ℚ where
  x := ⟨Keyed.ofList [("x", #[-1]), ("y", #[0]), ("z", #[5])]⟩
  previous := ⟨Keyed.ofList [("x", #[-1]), ("y", #[0]), ("z", #[5])]⟩
  u := ⟨Keyed.ofList [("r", #[1])]⟩

/-- `sameState it it'`: whether two states have the same blocks. -/
def sameState (it it' : Iterate ℚ) : Bool :=
  decide (it.x.blocks.entries = it'.x.blocks.entries ∧ it.u.blocks.entries = it'.u.blocks.entries)

theorem sweep_balanced : ∃ it, (mixed.sweep balanced).outcome = .ok it ∧ it.x.coord = balanced.x.coord ∧
    it.u.coord = balanced.u.coord := by
  obtain ⟨it, hit, hsame⟩ := exists_eq_ok_and (x := (mixed.sweep balanced).outcome)
    (p := fun it => sameState it balanced) (by decide +kernel)
  obtain ⟨hx, hu⟩ := of_decide_eq_true hsame
  refine ⟨it, hit, ?_, ?_⟩
  · funext k i
    rw [BlockVector.coord, BlockVector.get?, Keyed.get?, hx]
    rfl
  · funext k i
    rw [BlockVector.coord, BlockVector.get?, Keyed.get?, hu]
    rfl

/-- `mixedCoefs`: the coefficients of the constraint of `mixed`. -/
def mixedCoefs : Coefs ℚ := fun r c i j => if (r = "r" ∧ i = 0 ∧ j = 0) ∧ c ≠ "z" then 1 else 0

/-- `mixedTerms t`: the term of a block of `mixed`. -/
def mixedTerms (t : Fin mixed.blocks.length) (y : Fin (mixed.blocks.get t).layout.n → ℚ) : WithTop ℚ :=
  let c : Array ℚ := #[[1, 1, 0].getD t 0]
  ((∑ i : Fin (mixed.blocks.get t).layout.n, Vec.entry c i * y i : ℚ) : WithTop ℚ)

theorem carries_mixed : ∀ blk ∈ mixed.blocks, blk.Carries mixedCoefs := by
  have hK (k : String) (hk : k ≠ "z") (r : String) (i j : Nat) :
      mixedCoefs r k i j = if r = "r" ∧ i = 0 ∧ j = 0 then 1 else 0 :=
    if_congr (and_iff_left hk) rfl rfl
  have hx := carries_plain (hK "x" (by decide))
  have hy := carries_plain (hK "y" (by decide))
  have hz : mixedCoefs.on ["z"] = 0 := by
    funext r c i j
    rw [Coefs.on]
    split
    · rename_i hc
      exact if_neg fun h => h.2 (List.mem_singleton.1 hc)
    · rfl
  intro blk hblk
  simp only [mixed, List.mem_cons, List.not_mem_nil, or_false] at hblk
  rcases hblk with rfl | rfl | rfl
  · exact ⟨hx.represents, hx.transpose, hx.cols⟩
  · exact ⟨hy.represents, hy.transpose, hy.cols⟩
  · exact ⟨⟨⟨0, fun _ _ _ => 0⟩, hz ▸ BlockMatrix.represents_empty _⟩, rfl, Keyed.extends_empty _⟩

theorem consistent_mixed : ∀ blk ∈ mixed.blocks, blk.Consistent mixedCoefs := by
  intro blk hblk
  simp only [mixed, List.mem_cons, List.not_mem_nil, or_false] at hblk
  rcases hblk with rfl | rfl | rfl
  · show ∀ p ∈ cells _, ∀ q ∈ cells _, ∑ s ∈ cells _, _ = _
    decide +kernel
  · exact two_pos
  · intro p hp r i
    have hz : p.1 = "z" := List.mem_singleton.1 (TermBlock.mem_ids_of_mem_places hp)
    exact if_neg fun h => h.2 hz

theorem fixed_point_optimal_mixed : ∃ it, (mixed.sweep balanced).outcome = .ok it ∧
    (∀ r i, mixed.b.coord r i + productSum mixedCoefs mixed.blocks it.x.coord r i = 0) ∧
      ∀ y, (∀ r i, mixed.b.coord r i + productSum mixedCoefs mixed.blocks y r i = 0) →
        ∑ t, mixedTerms t ((mixed.blocks.get t).layout.read it.x.coord)
          ≤ ∑ t, mixedTerms t ((mixed.blocks.get t).layout.read y) := by
  have hd : Divided mixed.blocks := ⟨by decide +kernel, by decide +kernel⟩
  have hp : ∀ blk ∈ mixed.blocks, blk.rho = blk.coupling.penalty mixed.settings.rho := by decide +kernel
  have hf (t : Fin mixed.blocks.length) : (mixed.blocks.get t).ProxOf (mixedTerms t) := by
    match t with
    | ⟨0, _⟩ => exact TermBlock.proxOf_linear rfl rfl fun h => absurd h one_ne_zero
    | ⟨1, _⟩ => exact TermBlock.proxOf_linear rfl rfl fun h => absurd h two_ne_zero
    | ⟨2, _⟩ =>
      refine TermBlock.proxOf_linear rfl rfl fun _ t => ?_
      match t with
      | 0 => rfl
      | t + 1 => rfl
  obtain ⟨it, hit, hx, hu⟩ := sweep_balanced
  exact ⟨it, hit, fixed_point_optimal hd carries_mixed consistent_mixed hp hf hit hx hu⟩

end System

end BlockAdmm
