/-
  What the dual residual is worth.

  After a sweep the slope of a block is `ρ` times the running sum and what the blocks behind it changed
  afterwards, under the transpose, and the error of a linearized step.  The dual residual adds up the
  squares of the second parts (`dualSquare_eq_ok`, `System.sNorm_eq`), so it is the distance of the slopes
  from `ρ Aᵀ u` but for the errors of the steps: an iterate that is called optimal has subgradients of all
  terms that near (`System.optimal_certifies_stationary`).  The errors themselves are in none of the
  residuals, and with one block that is linearized there is nothing else (`System.optimal_shifted`).
-/
import BlockAdmm.Proofs.Solver.Coupling
import BlockAdmm.Proofs.Solver.Feasible
import BlockAdmm.Proofs.Solver.Optimality

namespace BlockAdmm

open Scalar ExactScalar

/-! ## The dual residual -/

section Exact

variable {R : Type} [ExactScalar R] {K : Coefs R}

/-- `lagSquares K blocks it`: the sum of the squares `|A_iᵀ d_i|²`, where `d_i` is the change of the images
    of the blocks behind block `i`. -/
def lagSquares (K : Coefs R) : List (TermBlock R) → Iterate R → R
  | [], _ => 0
  | blk :: rest, it => ∑ p ∈ blk.places, blk.backProduct K (lag rest it) p.1 p.2 ^ 2 + lagSquares K rest it

theorem lagSquares_eq_sum (K : Coefs R) (blocks : List (TermBlock R)) (it : Iterate R) :
    lagSquares K blocks it = ∑ t : Fin blocks.length, ∑ p ∈ (blocks.get t).places,
      (blocks.get t).backProduct K (lag (blocks.drop (t + 1)) it) p.1 p.2 ^ 2 := by
  induction blocks with
  | nil => rfl
  | cons blk blocks ih =>
    rw [lagSquares, ih]
    exact (Fin.sum_univ_succ fun t : Fin (blocks.length + 1) => ∑ p ∈ ((blk :: blocks).get t).places,
      ((blk :: blocks).get t).backProduct K (lag ((blk :: blocks).drop (t + 1)) it) p.1 p.2 ^ 2).symm

theorem lag_cons (blk : TermBlock R) (rest : List (TermBlock R)) (it : Iterate R) (r : String) (i : Nat) :
    lag (blk :: rest) it r i = lag rest it r i + blk.image it.x r i - blk.image it.previous r i := by
  rw [lag, lag, imageSum_cons, imageSum_cons]
  ring

theorem lagSquares_singleton (blk : TermBlock R) (it : Iterate R) : lagSquares K [blk] it = 0 := by
  have hnone : lag [] it = fun r i => blk.image it.x r i - blk.image it.x r i := by
    funext r i
    rw [sub_self]
    exact sub_self _
  rw [lagSquares, lagSquares, add_zero]
  refine Finset.sum_eq_zero fun p _ => ?_
  rw [hnone, TermBlock.backProduct_sub, sub_self, zero_pow two_ne_zero]

end Exact

variable {S : Type} [ExactRoots S] {K : Coefs S}

/-- The blocks come from the last to the first; `done` are those that came before.  Each adds the square of
    the block before it. -/
theorem System.dualSquare_eq_ok {it : Iterate S} {blocks done : List (TermBlock S)} {diff : BlockVector S}
    {sum dual : S} (hK : ∀ blk ∈ blocks, blk.Carries K) (hdiff : diff.coord = lag done it)
    (h : dualSquare it blocks diff sum = .ok dual) :
    dual + lagSquares K (blocks.take 1 ++ done) it = sum + lagSquares K (blocks.reverse ++ done) it := by
  induction blocks generalizing done diff sum with
  | nil => cases h; rfl
  | cons next blocks ih =>
    cases blocks with
    | nil => cases h; rfl
    | cons blk blocks =>
      obtain ⟨ax, hax, h⟩ := bind_eq_ok.1 h
      obtain ⟨diff₁, hdiff₁, h⟩ := bind_eq_ok.1 h
      obtain ⟨ax', hax', h⟩ := bind_eq_ok.1 h
      obtain ⟨diff₂, hdiff₂, h⟩ := bind_eq_ok.1 h
      obtain ⟨g, hg, h⟩ := bind_eq_ok.1 h
      have hnext : diff₂.coord = lag (next :: done) it := by
        funext r i
        rw [BlockVector.coord_addScaled hdiff₂, BlockVector.coord_addScaled hdiff₁, hdiff, lag_cons,
          TermBlock.image_of_apply hax, TermBlock.image_of_apply hax']
        ring
      have hrest : ∀ b ∈ blk :: blocks, b.Carries K := fun b hb => hK b (List.mem_cons_of_mem _ hb)
      have hsquare : g.norm * g.norm
          = ∑ p ∈ blk.places, blk.backProduct K (lag (next :: done) it) p.1 p.2 ^ 2 := by
        rw [BlockVector.norm_eq_sqrt, ← sq, sqrt_sq g.normSq_nonneg,
          (hrest blk List.mem_cons_self).normSq_back hg, hnext]
      have hdual := ih hrest hnext h
      rw [hsquare] at hdual
      have htake : lagSquares K ((blk :: blocks).take 1 ++ next :: done) it
          = ∑ p ∈ blk.places, blk.backProduct K (lag (next :: done) it) p.1 p.2 ^ 2
            + lagSquares K (next :: done) it := rfl
      rw [htake] at hdual
      have hreverse : (next :: blk :: blocks).reverse ++ done = (blk :: blocks).reverse ++ next :: done := by
        rw [List.reverse_cons, List.append_assoc, List.singleton_append]
      rw [hreverse]
      show dual + lagSquares K (next :: done) it = _
      linarith

/-- The only slope of a function that is zero everywhere is zero. -/
theorem IsSubgradient.eq_zero {n : Nat} {x g : Fin n → S}
    (h : IsSubgradient (fun _ => (0 : WithTop S)) x g) (t : Fin n) : g t = 0 := by
  have hle := h fun t => x t + g t
  rw [zero_add, ← WithTop.coe_zero, WithTop.coe_le_coe] at hle
  have hsquares : ∑ t, g t * g t ≤ 0 := by simpa using hle
  have hzero := (Finset.sum_eq_zero_iff_of_nonneg fun t _ => mul_self_nonneg (g t)).1
    (hsquares.antisymm (Finset.sum_nonneg fun t _ => mul_self_nonneg (g t)))
  exact mul_self_eq_zero.1 (hzero t (Finset.mem_univ t))

/-- A point whose flat vector is zero is zero at the variables. -/
theorem Layout.eq_zero_of_read (l : Layout) {g : String → Nat → S} (h : ∀ t, l.read g t = 0) {p : Cell}
    (hp : p ∈ cells l.sizes) : g p.1 p.2 = 0 := by
  have hsum : ∑ p ∈ cells l.sizes, g p.1 p.2 * g p.1 p.2 = 0 := by
    rw [← l.sum_read fun c j => g c j * g c j]
    exact Finset.sum_eq_zero fun t _ => mul_eq_zero_of_left (h t) _
  rw [Finset.sum_eq_zero_iff_of_nonneg fun p _ => mul_self_nonneg _] at hsum
  exact mul_self_eq_zero.1 (hsum p hp)

namespace System

variable {s : System S} {it : Iterate S} {r : Residuals S}

/-- The dual residual is `ρ` times the root of the sum of the squares. -/
theorem sNorm_eq (hK : ∀ blk ∈ s.blocks, blk.Carries K) (h : s.residuals it = .ok r) :
    r.sNorm = s.settings.rho * Scalar.sqrt (lagSquares K s.blocks it) := by
  obtain ⟨_, _, dual, _, -, hdual, -, -, hnorm, -⟩ := residuals_eq_ok h
  have hempty : (BlockVector.empty : BlockVector S).coord = lag [] it := by
    funext r i
    exact (BlockVector.coord_empty r i).trans (sub_self _).symm
  have hsum := dualSquare_eq_ok (fun blk hblk => hK blk (List.mem_reverse.1 hblk)) hempty hdual
  rw [List.append_nil, List.append_nil, List.reverse_reverse, zero_add] at hsum
  have hlast : lagSquares K (s.blocks.reverse.take 1) it = 0 := by
    cases s.blocks.reverse with
    | nil => rfl
    | cons blk _ => exact lagSquares_singleton blk it
  rw [hlast, add_zero] at hsum
  rw [hnorm, hsum]

/-- After a sweep the dual residual is the distance of the slopes from `ρ Aᵀ u` and the errors of the
    steps. -/
theorem sNorm_eq_distance (hrho : 0 ≤ s.settings.rho) (hK : ∀ blk ∈ s.blocks, blk.Carries K)
    (h : s.residuals it = .ok r) :
    Scalar.sqrt (∑ t : Fin s.blocks.length, ∑ p ∈ (s.blocks.get t).places,
      (slope K s.settings.rho (s.blocks.get t) (s.blocks.drop (t + 1)) it p.1 p.2
        - s.settings.rho * (s.blocks.get t).backProduct K it.u.coord p.1 p.2
        - (s.blocks.get t).stepError K s.settings.rho
            (fun k i => it.x.coord k i - it.previous.coord k i) p.1 p.2) ^ 2) = r.sNorm := by
  have hsquare : ∑ t : Fin s.blocks.length, ∑ p ∈ (s.blocks.get t).places,
      (slope K s.settings.rho (s.blocks.get t) (s.blocks.drop (t + 1)) it p.1 p.2
        - s.settings.rho * (s.blocks.get t).backProduct K it.u.coord p.1 p.2
        - (s.blocks.get t).stepError K s.settings.rho
            (fun k i => it.x.coord k i - it.previous.coord k i) p.1 p.2) ^ 2
      = s.settings.rho ^ 2 * lagSquares K s.blocks it := by
    rw [lagSquares_eq_sum, Finset.mul_sum]
    refine Finset.sum_congr rfl fun t _ => ?_
    rw [Finset.mul_sum]
    refine Finset.sum_congr rfl fun p _ => ?_
    rw [slope, TermBlock.backProduct_add it.u.coord (lag (s.blocks.drop (t + 1)) it)]
    ring
  have hnonneg : 0 ≤ lagSquares K s.blocks it := by
    rw [lagSquares_eq_sum]
    exact Finset.sum_nonneg fun _ _ => Finset.sum_nonneg fun _ _ => sq_nonneg _
  rw [hsquare, sqrt_sq_mul hrho hnonneg, sNorm_eq hK h]

variable {w : Marks S} {all : BlockMatrix S} {layouts : List Layout} {ending : Ending S}

/-- An iterate that is called optimal has subgradients of all terms that are as near to `ρ Aᵀ u` as the
    dual tolerance says, but for the errors of the steps that are linearized. -/
theorem optimal_certifies_stationary (hrep : all.Represents w K) (hshares : Objective.Shares all layouts)
    (hblocks : List.Forall₂ (TermBlock.Of all s.settings.rho) layouts s.blocks)
    (hrho : 0 < s.settings.rho)
    (huntouched : ∀ blk ∈ s.blocks, blk.coupling = .unconstrained → blk.Untouched K)
    {f : (t : Fin s.blocks.length) → (Fin (s.blocks.get t).layout.n → S) → WithTop S}
    (hf : ∀ t, (s.blocks.get t).ProxOf (f t)) (h : s.iterate.outcome = .ok ending)
    (hoptimal : ending.status.state = .optimal) :
    ∃ g : Fin s.blocks.length → String → Nat → S,
      (∀ t, IsSubgradient (f t) ((s.blocks.get t).layout.read ending.last.x.coord)
        ((s.blocks.get t).layout.read (g t))) ∧
      Scalar.sqrt (∑ t, ∑ p ∈ (s.blocks.get t).places, (g t p.1 p.2
        - s.settings.rho * (s.blocks.get t).backProduct K ending.last.u.coord p.1 p.2
        - (s.blocks.get t).stepError K s.settings.rho
            (fun k i => ending.last.x.coord k i - ending.last.previous.coord k i) p.1 p.2) ^ 2)
        ≤ ending.status.residuals.epsilonDual := by
  have hd := divided_of_shares hshares hblocks
  have hK : ∀ blk ∈ s.blocks, blk.Carries K := fun blk hblk => by
    obtain ⟨l, hl, hof⟩ := exists_of_forall₂ hblocks hblk
    exact hof.carries hrep (hshares.sizes l hl)
  have hc : ∀ blk ∈ s.blocks, blk.Consistent K := fun blk hblk => by
    obtain ⟨l, hl, hof⟩ := exists_of_forall₂ hblocks hblk
    exact hof.consistent hrep (hshares.sizes l hl) (huntouched blk hblk)
  have hp : ∀ blk ∈ s.blocks, blk.rho = blk.coupling.penalty s.settings.rho := fun blk hblk => by
    obtain ⟨l, -, hof⟩ := exists_of_forall₂ hblocks hblk
    exact hof.penalty
  obtain ⟨htells, -⟩ := rounds_eq_ok (fun _ => True) (fun _ _ _ _ => trivial) trivial h
  obtain ⟨it, hsweep⟩ := htells.swept hoptimal
  refine ⟨fun t => slope K s.settings.rho (s.blocks.get t) (s.blocks.drop (t + 1)) ending.last,
    fun t => ?_, ?_⟩
  · have hmem := List.get_mem s.blocks t
    exact isSubgradient_slope hd hsweep (s.blocks_eq_append t) (hK _ hmem) (hc _ hmem) (hp _ hmem) (hf t)
  · rw [sNorm_eq_distance hrho.le hK htells.residuals]
    rcases htells.state with ⟨-, hconv⟩ | hmax
    · rw [Residuals.converged, Bool.and_eq_true, decide_eq_true_iff, decide_eq_true_iff] at hconv
      exact hconv.2
    · exact absurd (hoptimal.symm.trans hmax) (by decide)

/-! ## A step that errs -/

/-- The norms are not less than the one that the sum starts with. -/
theorem le_of_foldlM_addImage {blocks : List (TermBlock S)} {x : BlockVector S}
    {acc acc' : BlockVector S × S} (h : blocks.foldlM (addImage x) acc = .ok acc') : acc.2 ≤ acc'.2 := by
  induction blocks generalizing acc with
  | nil => rw [foldlM_nil_eq_ok.1 h]
  | cons blk blocks ih =>
    obtain ⟨mid, hmid, h⟩ := foldlM_cons_eq_ok.1 h
    obtain ⟨y, -, hmid⟩ := bind_eq_ok.1 hmid
    obtain ⟨z, -, hmid⟩ := bind_eq_ok.1 hmid
    cases pure_eq_ok.1 hmid
    exact ((le_max_left _ _).trans_eq (larger_eq _ _).symm).trans (ih h)

/-- The square of the part of the dual tolerance that depends on the iterate. -/
theorem foldlM_addBackSquare_eq_ok {blocks : List (TermBlock S)} {u : BlockVector S} {sum back : S}
    (hK : ∀ blk ∈ blocks, blk.Carries K) (h : blocks.foldlM (addBackSquare u) sum = .ok back) :
    back = sum + (blocks.map fun blk =>
      ∑ p ∈ blk.places, blk.backProduct K u.coord p.1 p.2 ^ 2).sum := by
  refine foldlM_sum (fun back => back) _ (fun blk hblk s s' hs => ?_) h
  obtain ⟨g, hg, hs⟩ := bind_eq_ok.1 hs
  cases pure_eq_ok.1 hs
  rw [BlockVector.norm_eq_sqrt, ← sq, sqrt_sq g.normSq_nonneg, (hK blk hblk).normSq_back hg]

/-- `single`: a constraint on `x` with the coefficient one. -/
noncomputable def single : BlockMatrix ℝ where
  blocks := Keyed.ofList [("0", Keyed.ofList [("x", .ofScalar 1 1)])]
  rowDims := Keyed.ofList [("0", 1)]
  colDims := Keyed.ofList [("x", 1)]

/-- `shiftedBlock`: a block of `x` and `y` with no term, where only `x` is in the constraint. -/
noncomputable def shiftedBlock : TermBlock ℝ where
  index := 0
  layout := ⟨Keyed.ofList [("x", 1), ("y", 1)]⟩
  a := single
  back := ⟨Keyed.ofList [("x", Keyed.ofList [("0", .ofScalar 1 1)])], Keyed.ofList [("x", 1)],
    Keyed.ofList [("0", 1)]⟩
  coupling := .linearized Coupling.margin
  rho := 1 * Coupling.margin
  operator := .zero

/-- `shifted`: minimize `0` over `x` and `y` subject to `x + 1 = 0`, with one iteration and the tolerance
    `0.01` of the lengths. -/
noncomputable def shifted : System ℝ where
  settings := ⟨1, 0, 1 / 100, 1, 1⟩
  blocks := [shiftedBlock]
  b := ⟨Keyed.ofList [("0", #[1])]⟩
  n := 1

theorem ofScalars_single : single.OfScalars := by
  have htoList : single.toList = [⟨"0", "x", .ofScalar 1 1⟩] := rfl
  refine ⟨fun b hb => ?_, fun b hb => ?_, fun b hb => ?_⟩ <;> rw [htoList] at hb <;>
    cases List.mem_singleton.1 hb
  exacts [⟨_, rfl⟩, rfl, rfl]

theorem cells_single : cells single.rowDims = {⟨"0", 0⟩} ∧ cells single.colDims = {⟨"x", 0⟩} := by
  decide

theorem backProduct_single (u : String → Nat → ℝ) :
    sumCells single.rowDims single.scalars.transpose u "x" 0 = u "0" 0 ∧
      sumCells single.rowDims single.scalars.transpose u "y" 0 = 0 := by
  constructor <;> rw [sumCells, cells_single.1, Finset.sum_singleton]
  · exact one_mul _
  · exact zero_mul _

/-- The estimate is right here. -/
theorem single_eq_linearized :
    Coupling.of single shiftedBlock.layout = .ok (.linearized Coupling.margin) := by
  obtain ⟨c, hest, hof⟩ := Coupling.exists_estimated (l := shiftedBlock.layout) ofScalars_single rfl rfl rfl rfl
  have hproduct (x : String → Nat → ℝ) : sumCells single.colDims single.scalars x "0" 0 = x "x" 0 := by
    rw [sumCells, cells_single.2, Finset.sum_singleton]
    exact one_mul _
  have hne : sumCells single.colDims single.scalars single.startVector.coord "0" 0 ≠ 0 := by
    rw [hproduct]
    show (startEntry 0 : ℝ) ≠ 0
    rw [Coupling.startEntry_eq.1]
    exact one_ne_zero
  rw [hof, Coupling.estimated_eq_linearized ofScalars_single.represents 1 (fun q hq => ?_) hne hest, mul_one]
  rw [cells_single.1, Finset.mem_singleton] at hq
  rw [hq, hproduct, gramMap, (backProduct_single _).1, one_mul]

theorem blocks_shifted : List.Forall₂ (TermBlock.Of single shifted.settings.rho)
    [shiftedBlock.layout] shifted.blocks :=
  List.Forall₂.cons ⟨rfl, rfl, rfl, single_eq_linearized, rfl⟩ List.Forall₂.nil

theorem shares_shifted : Objective.Shares single [shiftedBlock.layout] := by
  refine ⟨List.pairwise_singleton _ _, fun l hl k d n hd hn => ?_⟩
  cases List.mem_singleton.1 hl
  cases List.mem_singleton.1 (show (k, n) ∈ [("x", 1)] from Keyed.get?_eq_some_iff.1 hn)
  exact Option.some.inj hd

theorem proxOf_shifted : ∀ t, (shifted.blocks.get t).ProxOf fun _ => (0 : WithTop ℝ)
  | ⟨0, _⟩ => by
    intro v x hv hx h y
    obtain rfl : v = x := Except.ok.inj h
    simp

theorem exists_residuals_shifted : ∃ it r, (shifted.sweep shifted.start).outcome = .ok it ∧
    shifted.residuals it = .ok r := by
  obtain ⟨r, h⟩ := exists_eq_ok
    (x := (shifted.sweep shifted.start).outcome >>= fun it => shifted.residuals it) (by decide +kernel)
  obtain ⟨it, hit, hr⟩ := bind_eq_ok.1 h
  exact ⟨it, r, hit, hr⟩

theorem carries_shifted : shiftedBlock.Carries single.scalars := by
  obtain ⟨hof, -⟩ := List.forall₂_cons.1 blocks_shifted
  exact hof.carries ofScalars_single.represents (shares_shifted.sizes _ List.mem_cons_self)

theorem product_shifted (x : String → Nat → ℝ) :
    shiftedBlock.product single.scalars x "0" 0 = x "x" 0 := by
  have hcells : cells shiftedBlock.layout.sizes = {⟨"x", 0⟩, ⟨"y", 0⟩} := by decide
  rw [TermBlock.product, sumCells, hcells, Finset.sum_pair (by decide)]
  show 1 * x "x" 0 + 0 * x "y" 0 = _
  ring

theorem sum_backProduct_shifted (u : String → Nat → ℝ) :
    ∑ p ∈ shiftedBlock.places, shiftedBlock.backProduct single.scalars u p.1 p.2 ^ 2 = u "0" 0 ^ 2 := by
  have hcells : shiftedBlock.places = {⟨"x", 0⟩, ⟨"y", 0⟩} := by decide
  obtain ⟨hx, hy⟩ := backProduct_single u
  rw [hcells, Finset.sum_pair (by decide)]
  show sumCells single.rowDims single.scalars.transpose u "x" 0 ^ 2
    + sumCells single.rowDims single.scalars.transpose u "y" 0 ^ 2 = _
  rw [hx, hy, zero_pow two_ne_zero, add_zero]

/-- What the sweep of `shifted` comes to. -/
theorem sweep_shifted {it : Iterate ℝ} (h : (shifted.sweep shifted.start).outcome = .ok it) :
    it.x.coord "x" 0 = -100 / 101 ∧ it.u.coord "0" 0 = -1 / 101 := by
  have hd := divided_of_shares shares_shifted blocks_shifted
  have hs : shifted.blocks = [] ++ shiftedBlock :: [] := rfl
  obtain ⟨v, z, hz, -, -, -, hrate⟩ := exists_move hd h hs carries_shifted Coupling.margin_pos
  obtain rfl : v = z := Except.ok.inj hz
  have hstart : it.previous.coord "x" 0 = 0 := by
    rw [(swept_sweep hd h).previous]
    rfl
  have hu : it.u.coord "0" 0 = 0 - (1 + it.x.coord "x" 0) := by
    obtain ⟨⟨ax, hax⟩, -⟩ := apply_of_sweep hd h (List.mem_cons_self (a := shiftedBlock))
    rw [coord_u_sweep hd h, ← product_shifted it.x.coord, ← carries_shifted.image_eq hax]
    show _ - (_ + (shiftedBlock.image it.x "0" 0 + 0)) = _
    rw [add_zero]
    rfl
  -- the operator leaves every point where it is, so the slope is zero
  have hslope : slope single.scalars 1 shiftedBlock [] it "x" 0 = 0 := by
    refine (hrate 1 ⟨"x", 0⟩ (by decide)).symm.trans ?_
    rw [sub_self, mul_zero]
  have herror : shiftedBlock.stepError single.scalars 1 (fun k i => it.x.coord k i - it.previous.coord k i)
      "x" 0 = 1 * (it.x.coord "x" 0 - it.previous.coord "x" 0
        - Coupling.margin * (it.x.coord "x" 0 - it.previous.coord "x" 0)) := by
    have hback := (backProduct_single (shiftedBlock.product single.scalars
      fun k i => it.x.coord k i - it.previous.coord k i)).1
    rw [product_shifted] at hback
    exact congrArg (fun d => 1 * (d - Coupling.margin * (it.x.coord "x" 0 - it.previous.coord "x" 0))) hback
  have hleft : shiftedBlock.backProduct single.scalars (fun r i => it.u.coord r i + lag [] it r i) "x" 0
      = it.u.coord "0" 0 + lag [] it "0" 0 := (backProduct_single _).1
  have hlag : lag [] it "0" 0 = 0 := sub_self _
  rw [slope, hleft, herror, hlag, hstart, Coupling.margin_eq] at hslope
  constructor <;> linarith

theorem norm_b_shifted : shifted.b.norm = 1 := by
  have hsum : shifted.b.normSq = ([Vec.inner #[1] #[1]] : List ℝ).sum := rfl
  rw [BlockVector.norm_eq_sqrt, hsum, Vec.inner_eq_sum]
  simp only [List.size_toArray, List.length_cons, List.length_nil, Nat.zero_add,
    Finset.sum_range_one, List.sum_cons, List.sum_nil, add_zero]
  exact sqrt_eq_of_sq zero_le_one (by rw [sq]; rfl)

/-- What the sweep leaves of the constraint. -/
theorem normSq_left_shifted {it : Iterate ℝ} {acc : BlockVector ℝ × ℝ}
    (hsweep : (shifted.sweep shifted.start).outcome = .ok it)
    (h : shifted.blocks.foldlM (addImage it.x) (shifted.b, shifted.b.norm) = .ok acc) :
    acc.1.normSq = (1 / 101) ^ 2 := by
  obtain ⟨-, hcoord, hsize⟩ := foldlM_addImage_eq_ok h
  rw [BlockVector.normSq_eq_sqOver (D := single.rowDims), sqOver, cells_single.1, Finset.sum_singleton]
  · have hstep := coord_u_sweep (divided_of_shares shares_shifted blocks_shifted) hsweep "0" 0
    rw [(sweep_shifted hsweep).2, coord_u_start, ← hcoord] at hstep
    have hentry : acc.1.coord "0" 0 = 1 / 101 := by linarith
    rw [hentry]
  · intro k n hk
    rcases hsize k n hk with hk | ⟨blk, hblk, y, hy, hk⟩
    · obtain ⟨v, hv, rfl⟩ := BlockVector.sizeAt?_eq_some_iff.1 hk
      cases List.mem_singleton.1 (show (k, v) ∈ [("0", #[1])] from Keyed.get?_eq_some_iff.1 hv)
      rfl
    · cases List.mem_singleton.1 hblk
      exact ofScalars_single.represents.sizeAt?_apply hy hk

/-- The residuals of `shifted` after the sweep. -/
theorem residuals_shifted {it : Iterate ℝ} {r : Residuals ℝ}
    (hsweep : (shifted.sweep shifted.start).outcome = .ok it) (h : shifted.residuals it = .ok r) :
    r.rNorm = 1 / 101 ∧ 1 / 100 ≤ r.epsilonPrimal ∧ r.sNorm = 0 ∧ r.epsilonDual = 1 / 100 * (1 / 101) := by
  have hK : ∀ blk ∈ shifted.blocks, blk.Carries single.scalars := fun blk hblk => by
    cases List.mem_singleton.1 hblk
    exact carries_shifted
  have hzero := sNorm_eq hK h
  obtain ⟨left, maxNorm, dual, back, hleft, -, hback, hr, -, hp, hdual⟩ := residuals_eq_ok h
  have hmax : 1 ≤ maxNorm := norm_b_shifted ▸ le_of_foldlM_addImage hleft
  have hsquares : back = (1 / 101) ^ 2 := by
    rw [foldlM_addBackSquare_eq_ok hK hback]
    show 0 + (∑ p ∈ shiftedBlock.places, shiftedBlock.backProduct single.scalars it.u.coord p.1 p.2 ^ 2 + 0)
      = _
    rw [sum_backProduct_shifted, (sweep_shifted hsweep).2]
    norm_num
  have hpos : (0 : ℝ) ≤ 1 / 101 := by norm_num
  refine ⟨?_, ?_, ?_, ?_⟩
  · rw [hr, BlockVector.norm_eq_sqrt, normSq_left_shifted hsweep hleft, sqrt_eq_of_sq hpos rfl]
  · rw [hp]
    show 1 / 100 ≤ 0 * _ + 1 / 100 * maxNorm
    linarith
  · rw [hzero]
    show 1 * Scalar.sqrt (lagSquares single.scalars [shiftedBlock] it) = 0
    rw [lagSquares_singleton, sqrt_zero, mul_zero]
  · rw [hdual, hsquares, sqrt_eq_of_sq hpos rfl]
    show 0 * _ + 1 / 100 * 1 * (1 / 101 : ℝ) = _
    ring

theorem iterate_shifted : ∃ it r, (shifted.sweep shifted.start).outcome = .ok it ∧
    shifted.residuals it = .ok r ∧ shifted.iterate.outcome = .ok ⟨⟨.optimal, 0, r⟩, it⟩ := by
  obtain ⟨it, r, hsweep, hr⟩ := exists_residuals_shifted
  refine ⟨it, r, hsweep, hr, rounds_of_converged rfl hsweep hr ?_⟩
  obtain ⟨hprimal, hp, hdual, hd⟩ := residuals_shifted hsweep hr
  rw [Residuals.converged, Bool.and_eq_true, decide_eq_true_iff, decide_eq_true_iff, hprimal, hdual, hd]
  exact ⟨le_trans (by norm_num) hp, by norm_num⟩

theorem optimal_certifies_stationary_shifted : ∃ ending, shifted.iterate.outcome = .ok ending ∧
    ending.status.state = .optimal ∧ ∃ g : Fin shifted.blocks.length → String → Nat → ℝ,
      (∀ t, IsSubgradient (fun _ => (0 : WithTop ℝ))
        ((shifted.blocks.get t).layout.read ending.last.x.coord)
        ((shifted.blocks.get t).layout.read (g t))) ∧
      Scalar.sqrt (∑ t, ∑ p ∈ (shifted.blocks.get t).places, (g t p.1 p.2 - shifted.settings.rho
        * (shifted.blocks.get t).backProduct single.scalars ending.last.u.coord p.1 p.2
        - (shifted.blocks.get t).stepError single.scalars shifted.settings.rho
            (fun k i => ending.last.x.coord k i - ending.last.previous.coord k i) p.1 p.2) ^ 2)
        ≤ ending.status.residuals.epsilonDual := by
  obtain ⟨it, r, -, -, hiterate⟩ := iterate_shifted
  refine ⟨_, hiterate, rfl, ?_⟩
  refine optimal_certifies_stationary ofScalars_single.represents shares_shifted blocks_shifted one_pos
    (fun blk hblk hc => ?_) proxOf_shifted hiterate rfl
  cases List.mem_singleton.1 hblk
  cases hc

/-- The iterate of `shifted` is called optimal although no subgradients of the terms are as near to
    `ρ Aᵀ u` as the dual tolerance says. -/
theorem optimal_shifted : ∃ ending, shifted.iterate.outcome = .ok ending ∧
    ending.status.state = .optimal ∧
    List.Forall₂ (TermBlock.Of single shifted.settings.rho) [shiftedBlock.layout] shifted.blocks ∧
    (∀ t, (shifted.blocks.get t).ProxOf fun _ => (0 : WithTop ℝ)) ∧
    ∀ g : Fin shifted.blocks.length → String → Nat → ℝ,
      (∀ t, IsSubgradient (fun _ => (0 : WithTop ℝ))
        ((shifted.blocks.get t).layout.read ending.last.x.coord)
        ((shifted.blocks.get t).layout.read (g t))) →
      ¬ Scalar.sqrt (∑ t, ∑ p ∈ (shifted.blocks.get t).places, (g t p.1 p.2 - shifted.settings.rho
        * (shifted.blocks.get t).backProduct single.scalars ending.last.u.coord p.1 p.2) ^ 2)
        ≤ ending.status.residuals.epsilonDual := by
  obtain ⟨it, r, hsweep, hr, hiterate⟩ := iterate_shifted
  obtain ⟨-, -, -, hdual⟩ := residuals_shifted hsweep hr
  obtain ⟨-, hu⟩ := sweep_shifted hsweep
  refine ⟨_, hiterate, rfl, blocks_shifted, proxOf_shifted, fun g hg => ?_⟩
  have hzero (p : Cell) (hp : p ∈ shiftedBlock.places) : g ⟨0, one_pos⟩ p.1 p.2 = 0 :=
    shiftedBlock.layout.eq_zero_of_read (fun t => (hg ⟨0, one_pos⟩).eq_zero t) hp
  have hsum : ∑ t, ∑ p ∈ (shifted.blocks.get t).places, (g t p.1 p.2 - shifted.settings.rho
      * (shifted.blocks.get t).backProduct single.scalars it.u.coord p.1 p.2) ^ 2 = (1 / 101) ^ 2 := by
    refine (Finset.sum_singleton _ (⟨0, one_pos⟩ : Fin shifted.blocks.length)).trans ?_
    refine (Finset.sum_congr rfl fun p hp => ?_).trans (sum_backProduct_shifted it.u.coord) |>.trans ?_
    · show (g ⟨0, one_pos⟩ p.1 p.2 - 1 * shiftedBlock.backProduct single.scalars it.u.coord p.1 p.2) ^ 2 = _
      rw [hzero p hp]
      ring
    · rw [hu]
      norm_num
  rw [hsum, hdual, sqrt_eq_of_sq (by norm_num) rfl]
  norm_num

end System

end BlockAdmm
