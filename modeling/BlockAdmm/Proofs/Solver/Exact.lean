/-
  When the step of a block is exact.

  A block gets a scalar coupling only if its columns of the constraints are orthogonal and all of one
  length, the columns of every variable of the block included (`TermBlock.Of.hasGram`).  Then the square
  `|A x - u|²` is a constant and `alpha` times the square of the distance of `x` from the point that the step
  computes (`TermBlock.exists_misfit_eq`).  So the proximal operator, with the penalty of the block and at that
  point, minimizes what the step is to minimize, whatever the term is (`TermBlock.scalar_step_exact`).
-/
import BlockAdmm.Proofs.Solver.Coupling

namespace BlockAdmm

open Scalar ExactScalar

variable {R : Type} [ExactScalar R]

/-! ## Norms over any places -/

/-- A coordinate that is not zero is that of an entry. -/
theorem BlockVector.mem_cells_of_coord_ne_zero {x : BlockVector R} {p : Cell} (h : x.coord p.1 p.2 ≠ 0) :
    p ∈ cells (x.blocks.map Array.size) := by
  cases hx : x.get? p.1 with
  | none => exact absurd (coord_of_get?_none hx p.2) h
  | some v =>
    rw [coord_of_get? hx] at h
    refine mem_cells.2 ⟨v.size, ?_, ?_⟩
    · rw [Keyed.get?_map]
      exact congrArg (Option.map Array.size) hx
    · by_contra hle
      exact h (Vec.entry_of_size_le (Nat.le_of_not_lt hle))

/-- The square of the norm is the sum of the squares over any places that are enough. -/
theorem BlockVector.normSq_eq_sum_sq {x : BlockVector R} {S : Finset Cell}
    (hS : ∀ p : Cell, x.coord p.1 p.2 ≠ 0 → p ∈ S) : x.normSq = ∑ p ∈ S, x.coord p.1 p.2 ^ 2 := by
  have hsizes (k : String) (n : Nat) (hn : x.sizeAt? k = some n) :
      (x.blocks.map Array.size).get? k = some n := (Keyed.get?_map ..).trans hn
  rw [normSq_eq_sqOver hsizes]
  exact sum_cells_eq (f := fun p => x.coord p.1 p.2 ^ 2)
    (fun p hp => mem_cells_of_coord_ne_zero (pow_ne_zero_iff two_ne_zero |>.1 hp))
    fun p hp => hS p (pow_ne_zero_iff two_ne_zero |>.1 hp)

namespace TermBlock

variable {K : Coefs R} {blk : TermBlock R} {u : BlockVector R} {v : Array R} {alpha rho : R}

/-! ## Completing the square -/

/-- `blk.reach u`: the rows of a block and of `u`. -/
def reach (blk : TermBlock R) (u : BlockVector R) : Finset Cell :=
  cells blk.a.rowDims ∪ cells (u.blocks.map Array.size)

/-- `blk.misfit K u x`: the square of `|A x - u|`. -/
def misfit (K : Coefs R) (blk : TermBlock R) (u : BlockVector R) (x : String → Nat → R) : R :=
  ∑ q ∈ blk.reach u, (blk.product K x q.1 q.2 - u.coord q.1 q.2) ^ 2

/-- `blk.distance v x`: the square of the distance of `x` from a flat vector. -/
def distance (blk : TermBlock R) (v : Array R) (x : String → Nat → R) : R :=
  ∑ t, (blk.layout.read x t - Vec.entry v t) ^ 2

/-- The misfit is the square of the norm of what is computed. -/
theorem Carries.normSq_residual (h : blk.Carries K) {x ax r : BlockVector R}
    (hax : blk.a.apply x = .ok ax) (hr : ax.addScaled (-1) u = .ok r) :
    r.normSq = blk.misfit K u x.coord := by
  have hcoord (k : String) (i : Nat) : r.coord k i = blk.product K x.coord k i - u.coord k i := by
    rw [BlockVector.coord_addScaled hr, ← image_of_apply hax, h.image_eq hax]
    ring
  rw [BlockVector.normSq_eq_sum_sq (S := blk.reach u) fun p hp => ?_, misfit]
  · exact Finset.sum_congr rfl fun q _ => by rw [hcoord]
  · rw [hcoord] at hp
    by_cases hu : u.coord p.1 p.2 = 0
    · rw [hu, sub_zero] at hp
      obtain ⟨q, hq, hne⟩ := Finset.exists_ne_zero_of_sum_ne_zero hp
      exact Finset.mem_union_left _ (h.mem_rows (mem_ids_of_mem_places hq) (left_ne_zero_of_mul hne))
    · exact Finset.mem_union_right _ (BlockVector.mem_cells_of_coord_ne_zero hu)

/-- With orthogonal columns of one length the misfit is a constant and a multiple of the distance from
    `Aᵀ u / alpha`. -/
theorem exists_misfit_eq (h : blk.Carries K) (hgram : blk.HasGram K alpha) (halpha : alpha ≠ 0)
    (hv : ∀ p ∈ blk.places, Vec.entry v (blk.place p) = blk.backProduct K u.coord p.1 p.2 / alpha) :
    ∃ c, ∀ x, blk.misfit K u x = alpha * blk.distance v x + c := by
  refine ⟨∑ q ∈ blk.reach u, u.coord q.1 q.2 ^ 2
    - alpha * ∑ p ∈ blk.places, Vec.entry v (blk.place p) ^ 2, fun x => ?_⟩
  have hadjoint (y : String → Nat → R) :=
    h.sum_backProduct_mul (S := blk.reach u) Finset.subset_union_left y x
  -- the squares of the product, and what it has in common with `u`
  have hsquare : ∑ q ∈ blk.reach u, blk.product K x q.1 q.2 * blk.product K x q.1 q.2
      = alpha * ∑ p ∈ blk.places, x p.1 p.2 ^ 2 := by
    rw [← hadjoint, Finset.mul_sum]
    exact Finset.sum_congr rfl fun p hp => by rw [hgram.backProduct_product x hp]; ring
  have hcross : ∑ q ∈ blk.reach u, u.coord q.1 q.2 * blk.product K x q.1 q.2
      = alpha * ∑ p ∈ blk.places, Vec.entry v (blk.place p) * x p.1 p.2 := by
    rw [← hadjoint, Finset.mul_sum]
    refine Finset.sum_congr rfl fun p hp => ?_
    rw [hv p hp, ← mul_assoc, mul_div_cancel₀ _ halpha]
  have hdistance : blk.distance v x
      = ∑ p ∈ blk.places, (x p.1 p.2 - Vec.entry v (blk.place p)) ^ 2 := by
    refine Eq.trans ?_ (blk.layout.sum_read fun c j => (x c j - Vec.entry v (blk.place ⟨c, j⟩)) ^ 2)
    refine Finset.sum_congr rfl fun t _ => ?_
    rw [Layout.read, Layout.read, (place_cellAt t.isLt).2]
  rw [misfit, hdistance]
  simp only [sub_sq, Finset.sum_add_distrib, Finset.sum_sub_distrib, mul_assoc, ← Finset.mul_sum,
    mul_comm (blk.product K x _ _) (u.coord _ _), sq (blk.product K x _ _), hsquare, hcross,
    mul_comm (x _ _) (Vec.entry v _)]
  ring

/-! ## The step -/

/-- Minimizing a function with two penalties that differ by a constant is the same. -/
theorem minimizes_iff_of_eq_add {α : Type} {f : α → WithTop R} {g g' : α → R} {c : R}
    (hg : ∀ y, g y = g' y + c) (x : α) :
    (∀ y, f x + (g x : WithTop R) ≤ f y + (g y : WithTop R))
      ↔ ∀ y, f x + (g' x : WithTop R) ≤ f y + (g' y : WithTop R) := by
  refine forall_congr' fun y => ?_
  rw [hg, hg, WithTop.coe_add, WithTop.coe_add, ← add_assoc, ← add_assoc]
  exact WithTop.add_le_add_iff_right WithTop.coe_ne_top

variable {w : Marks R} {all : BlockMatrix R} {terms : List (Expr R)} {ls : List Layout} {l : Layout}
  {p : Provider R} {s t : Session R} {index : Nat} {term : Expr R}

/-- With a scalar coupling a step is exact: the columns of all variables of the block are orthogonal and of
    one length that is not zero, and so to minimize a function plus `(rho / 2) |A x - u|²` is to minimize it
    plus the penalty of the block times half the square of the distance from the point of the step. -/
theorem scalar_step_exact (hrep : all.Represents w K) (hls : Objective.layouts terms all = .ok ls)
    (hl : l ∈ ls) (hrun : (TermBlock.build index term l all rho).runFrom p s = (.ok blk, t))
    (hc : blk.coupling = .scalar alpha) :
    0 < alpha ∧
      (∀ x y z : BlockVector R, blk.a.apply x = .ok y → blk.back.apply y = .ok z →
        ∀ k d i, l.sizes.get? k = some d → i < d → z.coord k i = alpha * x.coord k i) ∧
      (∀ x : String → Nat → R, ∀ k d i, l.sizes.get? k = some d → i < d →
        blk.backProduct K (blk.product K x) k i = alpha * x k i) ∧
      ∀ (u x₀ : BlockVector R) (v : Array R), blk.target u x₀ = .ok v →
        (∀ x ax r : BlockVector R, blk.a.apply x = .ok ax → ax.addScaled (-1) u = .ok r →
          r.normSq = blk.misfit K u x.coord) ∧
        ∀ (f : (Fin blk.layout.n → R) → WithTop R) (x : String → Nat → R),
          (∀ y, f (blk.layout.read x) + ((rho / 2 * blk.misfit K u x : R) : WithTop R)
              ≤ f (blk.layout.read y) + ((rho / 2 * blk.misfit K u y : R) : WithTop R)) ↔
            ∀ y, f (blk.layout.read x) + ((blk.rho / 2 * blk.distance v x : R) : WithTop R)
              ≤ f (blk.layout.read y) + ((blk.rho / 2 * blk.distance v y : R) : WithTop R) := by
  have hof := TermBlock.of_build hrun
  have hsizes := (Objective.layouts_eq_ok hls).2.1.sizes l hl
  have hcarries := hof.carries hrep hsizes
  have hgram := hof.hasGram hrep hsizes hc
  have hpos : 0 < alpha := Coupling.scalar_pos (hc ▸ hof.coupling)
  have hcell {k : String} {d i : Nat} (hd : l.sizes.get? k = some d) (hi : i < d) :
      (⟨k, i⟩ : Cell) ∈ blk.places := mem_cells.2 ⟨d, hof.layout ▸ hd, hi⟩
  refine ⟨hpos, fun x y z hy hz k d i hd hi => ?_, fun x k d i hd hi => ?_, fun u x₀ v hv => ⟨?_, ?_⟩⟩
  · have hmem := mem_ids_of_mem_places (hcell hd hi)
    have hcoord : y.coord = blk.product K x.coord := by
      funext r j
      rw [← image_of_apply hy, hcarries.image_eq hy]
    rw [hcarries.coord_back hz hmem, hcoord]
    exact hgram.backProduct_product x.coord (hcell hd hi)
  · exact hgram.backProduct_product x (hcell hd hi)
  · exact fun x ax r hax hr => hcarries.normSq_residual hax hr
  · intro f x
    have hentry : ∀ p ∈ blk.places,
        Vec.entry v (blk.place p) = blk.backProduct K u.coord p.1 p.2 / alpha := fun p hp => by
      rw [(hcarries.entry_target hv).2 p hp, hc]
    have hpenalty : blk.rho = rho * alpha := by rw [hof.penalty, hc]; rfl
    obtain ⟨c, hmisfit⟩ := exists_misfit_eq hcarries hgram hpos.ne' hentry
    refine minimizes_iff_of_eq_add (f := fun y => f (blk.layout.read y)) (c := rho / 2 * c) (fun y => ?_) x
    rw [hmisfit, hpenalty]
    ring

/-! ## A block of two variables -/

/-- `turn`: five times a rotation. -/
def turn : Dense ℚ := ⟨2, 2, #[3, 4, -4, 3], rfl⟩

/-- `turned`: the constraints that a rotation of `x` and `y` are zero, both five times. -/
def turned : BlockMatrix ℚ where
  blocks := Keyed.ofList [("0", Keyed.ofList [("x", .ofDense turn)]),
    ("1", Keyed.ofList [("y", .ofScalar 1 5)])]
  rowDims := Keyed.ofList [("0", 2), ("1", 1)]
  colDims := Keyed.ofList [("x", 2), ("y", 1)]

/-- `turnedCoefs`: the coefficients of `turned`. -/
def turnedCoefs : Coefs ℚ :=
  0 + Coefs.single "0" "x" 2 2 turn.entry + Coefs.single "1" "y" 1 1 fun i j => if i = j then 5 else 0

/-- `turnedTerm`: no term, but of `x` and `y`. -/
def turnedTerm : Expr ℚ := .term .zero 1 [.var 2 1 "x", .var 1 1 "y"]

/-- `turnedLayout`: `x` with two entries and `y` with one. -/
def turnedLayout : Layout := ⟨Keyed.ofList [("x", 2), ("y", 1)]⟩

theorem represents_turned : turned.Represents ⟨0, fun _ _ _ => 0⟩ turnedCoefs := by
  have hx : (LinearMap.ofDense turn).Denotes ⟨0, fun _ _ _ => 0⟩ turn.entry := fun _ _ _ _ => rfl
  have hy : (LinearMap.ofScalar 1 (5 : ℚ)).Denotes ⟨0, fun _ _ _ => 0⟩
      fun i j => if i = j then 5 else 0 := fun _ _ _ _ => rfl
  have hfirst : BlockMatrix.empty.insertOrAdd "0" "x" (.ofDense turn) = .ok
      ⟨Keyed.ofList [("0", Keyed.ofList [("x", .ofDense turn)])], Keyed.ofList [("0", 2)],
        Keyed.ofList [("x", 2)]⟩ := rfl
  exact ((BlockMatrix.represents_empty _).insertOrAdd hx hfirst).insertOrAdd hy rfl

theorem layouts_turned : Objective.layouts [turnedTerm] turned = .ok [turnedLayout] := rfl

theorem scalar_step_exact_turned : ∃ blk t,
    (TermBlock.build 0 turnedTerm turnedLayout turned 2).runFrom (fun _ => none)
      (Session.start .zero 0) = (.ok blk, t) ∧ blk.coupling = .scalar 25 ∧ (0 : ℚ) < 25 ∧
    (∀ x y z : BlockVector ℚ, blk.a.apply x = .ok y → blk.back.apply y = .ok z →
      ∀ k d i, turnedLayout.sizes.get? k = some d → i < d → z.coord k i = 25 * x.coord k i) ∧
    (∀ x : String → Nat → ℚ, ∀ k d i, turnedLayout.sizes.get? k = some d → i < d →
      blk.backProduct turnedCoefs (blk.product turnedCoefs x) k i = 25 * x k i) ∧
    ∀ (u x₀ : BlockVector ℚ) (v : Array ℚ), blk.target u x₀ = .ok v →
      (∀ x ax r : BlockVector ℚ, blk.a.apply x = .ok ax → ax.addScaled (-1) u = .ok r →
        r.normSq = blk.misfit turnedCoefs u x.coord) ∧
      ∀ (f : (Fin blk.layout.n → ℚ) → WithTop ℚ) (x : String → Nat → ℚ),
        (∀ y, f (blk.layout.read x) + ((2 / 2 * blk.misfit turnedCoefs u x : ℚ) : WithTop ℚ)
            ≤ f (blk.layout.read y) + ((2 / 2 * blk.misfit turnedCoefs u y : ℚ) : WithTop ℚ)) ↔
          ∀ y, f (blk.layout.read x) + ((blk.rho / 2 * blk.distance v x : ℚ) : WithTop ℚ)
            ≤ f (blk.layout.read y) + ((blk.rho / 2 * blk.distance v y : ℚ) : WithTop ℚ) := by
  obtain ⟨blk, hblk, hc⟩ := exists_eq_ok_and
    (x := ((TermBlock.build 0 turnedTerm turnedLayout turned 2).runFrom (fun _ => none)
      (Session.start .zero 0)).1)
    (p := fun blk => match blk.coupling with | .scalar alpha => alpha == 25 | _ => false)
    (by decide +kernel)
  have hrun : (TermBlock.build 0 turnedTerm turnedLayout turned 2).runFrom (fun _ => none)
      (Session.start .zero 0) = (.ok blk, _) := Prod.ext hblk rfl
  have hcoupling : blk.coupling = .scalar 25 := by
    split at hc
    · rename_i alpha halpha
      rw [halpha, beq_iff_eq.1 hc]
    · cases hc
  exact ⟨blk, _, hrun, hcoupling,
    scalar_step_exact represents_turned layouts_turned List.mem_cons_self hrun hcoupling⟩

end TermBlock

end BlockAdmm
