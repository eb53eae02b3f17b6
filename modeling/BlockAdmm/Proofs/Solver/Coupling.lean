/-
  The coupling that a block is given.

  `Coupling.of` looks at the Gram matrix first; if that is no multiple of the identity, the estimate of the
  norm decides (`Coupling.of_eq_ok`).  The estimate starts from one fixed vector.  So a block is taken for
  one that no constraint touches just if the product with that vector is zero
  (`Coupling.of_eq_unconstrained_iff`), which may be although the block is not zero
  (`Coupling.of_leaning`); and the bound of a linearized step is the quotient of two lengths along the
  iteration, which may be less than the norm (`Coupling.of_blind`) unless the vector has a part along the
  longest direction (`Coupling.linearized_majorizes_of_overlap`).
-/
import BlockAdmm.Proofs.Block.Power
import BlockAdmm.Proofs.Solver.Ownership
import BlockAdmm.Proofs.Solver.Step

namespace BlockAdmm

open Scalar ExactScalar

variable {R : Type}

/-! ## How it is found -/

namespace Coupling

theorem unconstrained_ne_scalar (alpha : R) : unconstrained ≠ scalar alpha := by
  intro h
  cases h

section Exact

variable [ExactScalar R] {a : BlockMatrix R} {l : Layout} {c : Coupling R}

theorem margin_eq : (margin : R) = 101 / 100 := by
  rw [margin, ofScientific_eq_cast]
  norm_num

theorem margin_pos : 0 < (margin : R) := by
  rw [margin_eq]
  norm_num

/-- The coupling by the estimate of the norm. -/
theorem estimated_eq_ok : estimated a = .ok c ↔ ∃ norm, a.normEstimate normIterations = .ok norm ∧
    (if 0 < norm then linearized (margin * norm * norm) else unconstrained) = c := by
  rw [estimated, bind_eq_ok]
  refine exists_congr fun norm => and_congr_right fun _ => ?_
  split <;> exact pure_eq_ok

/-- How the coupling of a block is found. -/
theorem of_cases (h : Coupling.of a l = .ok c) : ∃ gram, gramScalar? a l = .ok gram ∧
    ((a.isEmpty = true ∧ c = unconstrained) ∨
      (a.isEmpty = false ∧ ∃ alpha, gram = some alpha ∧ 0 < alpha ∧ c = scalar alpha) ∨
      (a.isEmpty = false ∧ (∀ alpha, gram = some alpha → ¬ 0 < alpha) ∧ estimated a = .ok c)) := by
  obtain ⟨gram, hgram, h⟩ := bind_eq_ok.1 h
  refine ⟨gram, hgram, ?_⟩
  split at h
  · rename_i hempty
    exact Or.inl ⟨hempty, (pure_eq_ok.1 h).symm⟩
  · rename_i hempty
    have hempty : a.isEmpty = false := Bool.eq_false_iff.2 hempty
    cases gram with
    | none => exact Or.inr (Or.inr ⟨hempty, nofun, h⟩)
    | some alpha =>
      have h : (if 0 < alpha then pure (scalar alpha) else estimated a) = .ok c := h
      split at h
      · rename_i hpos
        exact Or.inr (Or.inl ⟨hempty, alpha, rfl, hpos, (pure_eq_ok.1 h).symm⟩)
      · rename_i hpos
        exact Or.inr (Or.inr ⟨hempty, fun beta heq => Option.some.inj heq ▸ hpos, h⟩)

/-- The coupling of a block: by its Gram matrix, by the estimate of its norm, or none. -/
theorem of_eq_ok (h : Coupling.of a l = .ok c) :
    (∃ alpha, gramScalar? a l = .ok (some alpha) ∧ 0 < alpha ∧ c = scalar alpha) ∨
      (a.isEmpty = true ∧ c = unconstrained) ∨ estimated a = .ok c := by
  obtain ⟨gram, hgram, ⟨hempty, hc⟩ | ⟨-, alpha, rfl, hpos, hc⟩ | ⟨-, -, hest⟩⟩ := of_cases h
  · exact Or.inr (Or.inl ⟨hempty, hc⟩)
  · exact Or.inl ⟨alpha, hgram, hpos, hc⟩
  · exact Or.inr (Or.inr hest)

/-- Without a scalar Gram matrix the estimate decides. -/
theorem of_eq_estimated (hgram : gramScalar? a l = .ok none) (hempty : a.isEmpty = false) :
    Coupling.of a l = estimated a := by
  rw [Coupling.of, hgram]
  show (if a.isEmpty = true then _ else estimated a) = _
  rw [hempty]
  rfl

theorem linearized_of_eq_ok {mu : R} (h : Coupling.of a l = .ok (linearized mu)) :
    ∃ norm, a.normEstimate normIterations = .ok norm ∧ 0 < norm ∧ mu = margin * norm * norm := by
  rcases of_eq_ok h with ⟨_, -, -, heq⟩ | ⟨-, heq⟩ | hest
  · cases heq
  · cases heq
  · obtain ⟨norm, hnorm, heq⟩ := estimated_eq_ok.1 hest
    split at heq
    · rename_i hpos
      cases heq
      exact ⟨norm, hnorm, hpos, rfl⟩
    · cases heq

theorem scalar_pos {alpha : R} (h : Coupling.of a l = .ok (scalar alpha)) : 0 < alpha := by
  rcases of_eq_ok h with ⟨_, -, hpos, heq⟩ | ⟨-, heq⟩ | hest
  · cases heq
    exact hpos
  · cases heq
  · obtain ⟨norm, -, heq⟩ := estimated_eq_ok.1 hest
    split at heq <;> cases heq

theorem linearized_pos {mu : R} (h : Coupling.of a l = .ok (linearized mu)) : 0 < mu := by
  obtain ⟨norm, -, hpos, rfl⟩ := linearized_of_eq_ok h
  exact mul_pos (mul_pos margin_pos hpos) hpos

end Exact

end Coupling

/-! ## Blocks of terms -/

namespace TermBlock.Of

variable [ExactScalar R] {w : Marks R} {all : BlockMatrix R} {K : Coefs R} {rho : R} {l : Layout}
  {blk : TermBlock R}

/-- The block of a term carries its columns of the constraints. -/
theorem carries (h : TermBlock.Of all rho l blk) (hrep : all.Represents w K)
    (hsizes : ∀ k d n, l.sizes.get? k = some d → all.colDims.get? k = some n → n = d) :
    blk.Carries K := by
  refine ⟨⟨w, ?_⟩, h.transpose, fun k n hn => ?_⟩
  · rw [h.matrix, h.layout]
    exact hrep.restrictCols l.ids
  · rw [h.matrix, BlockMatrix.get?_colDims_restrictCols hrep.cols] at hn
    obtain ⟨r, map, hget, hk, rfl⟩ := hn
    obtain ⟨d, hd⟩ := Layout.mem_ids_iff.1 hk
    rw [h.layout, hd, hsizes k d map.n hd (hrep.cols hget)]

/-- If the constraints of a block have as many columns as the block has variables, each has one. -/
theorem exists_block_of_size (h : TermBlock.Of all rho l blk) (hrep : all.Represents w K)
    (hsize : blk.a.colDims.size = l.count) {c : String} (hc : c ∈ l.ids) :
    ∃ r map, blk.a.get? r c = some map := by
  have hsub : blk.a.colDims.keys ⊆ l.ids := by
    intro k hk
    obtain ⟨d, hd⟩ := Keyed.mem_keys_iff.1 hk
    rw [h.matrix, BlockMatrix.get?_colDims_restrictCols hrep.cols] at hd
    obtain ⟨_, _, -, hk, -⟩ := hd
    exact hk
  have hlength : l.ids.length ≤ blk.a.colDims.keys.length := by
    rw [Keyed.keys, List.length_map, Layout.ids, Keyed.keys, List.length_map]
    exact hsize.ge
  have hperm := (blk.a.colDims.nodup_keys.subperm hsub).perm_of_length_le hlength
  obtain ⟨d, hd⟩ := Keyed.mem_keys_iff.1 (hperm.mem_iff.2 hc)
  rw [h.matrix, BlockMatrix.get?_colDims_restrictCols hrep.cols] at hd
  obtain ⟨r, map, hget, -, -⟩ := hd
  refine ⟨r, map, ?_⟩
  rw [h.matrix, BlockMatrix.get?_restrictCols, if_pos hc, hget]

/-- With a scalar coupling the columns of a block are orthogonal and all of one length. -/
theorem hasGram (h : TermBlock.Of all rho l blk) (hrep : all.Represents w K)
    (hsizes : ∀ k d n, l.sizes.get? k = some d → all.colDims.get? k = some n → n = d) {alpha : R}
    (hc : blk.coupling = .scalar alpha) : blk.HasGram K alpha := by
  have hof := h.coupling
  rw [hc] at hof
  have hgram : Coupling.gramScalar? blk.a l = .ok (some alpha) := by
    rcases Coupling.of_eq_ok hof with ⟨_, hgram, -, heq⟩ | ⟨-, heq⟩ | hest
    · cases heq
      exact hgram
    · cases heq
    · obtain ⟨norm, -, heq⟩ := Coupling.estimated_eq_ok.1 hest
      split at heq <;> cases heq
  have hcarries := h.carries hrep hsizes
  obtain ⟨v, hrepa⟩ := hcarries.represents
  rw [Coupling.gramScalar?] at hgram
  split at hgram
  · rename_i hsize
    obtain ⟨g, hg, hs⟩ := bind_eq_ok.1 hgram
    have hblock {p : Cell} (hp : p ∈ blk.places) :
        ∃ r map, blk.a.get? r p.1 = some map ∧ p.2 < map.n := by
      obtain ⟨d, hd, hlt⟩ := mem_cells.1 hp
      have hown := mem_ids_of_mem_places hp
      rw [h.layout] at hown
      obtain ⟨r, map, hget⟩ := h.exists_block_of_size hrep (beq_iff_eq.1 hsize) hown
      have hn := hcarries.cols p.1 map.n (hrepa.cols hget)
      rw [hd] at hn
      exact ⟨r, map, hget, Option.some.inj hn ▸ hlt⟩
    intro p hp q hq
    obtain ⟨r, map, hget, hlt⟩ := hblock hp
    obtain ⟨r', map', hget', hlt'⟩ := hblock hq
    have hsum := hrepa.gram_scalar? hg hs hget hget' hlt hlt'
    simp only [Coefs.on, if_pos (mem_ids_of_mem_places hp), if_pos (mem_ids_of_mem_places hq)] at hsum
    rw [hsum]
    refine if_congr ⟨fun hpq => ?_, fun hpq => hpq ▸ ⟨rfl, rfl⟩⟩ rfl rfl
    exact Sigma.ext hpq.1 (heq_of_eq hpq.2)
  · cases hgram

/-- The coupling of a block is true of its columns, if a block without one is not touched. -/
theorem consistent (h : TermBlock.Of all rho l blk) (hrep : all.Represents w K)
    (hsizes : ∀ k d n, l.sizes.get? k = some d → all.colDims.get? k = some n → n = d)
    (huntouched : blk.coupling = .unconstrained → blk.Untouched K) : blk.Consistent K := by
  rw [Consistent]
  cases hc : blk.coupling with
  | scalar alpha => exact h.hasGram hrep hsizes hc
  | unconstrained => exact huntouched hc
  | linearized mu => exact Coupling.linearized_pos (hc ▸ h.coupling)

end TermBlock.Of

/-! ## What the estimate sees -/

namespace Coupling

variable {S : Type} [ExactRoots S] {w : Marks S} {a : BlockMatrix S} {K : Coefs S} {l : Layout}
  {c : Coupling S}

/-- The estimate is positive just if the product with the start vector is not zero. -/
theorem normEstimate_pos_iff (hrep : a.Represents w K) {norm : S}
    (h : a.normEstimate normIterations = .ok norm) :
    0 < norm ↔ ∃ r i, sumCells a.colDims K a.startVector.coord r i ≠ 0 := by
  obtain ⟨hnonneg, hquot, hzero⟩ := BlockMatrix.normEstimate_eq_ok (k := 49) hrep h
  have hfirst := hrep.moment_one_eq_zero_iff a.startVector.coord
  constructor
  · intro hpos
    by_contra hnone
    have hone := hfirst.2 fun r i => not_not.1 fun hne => hnone ⟨r, i, hne⟩
    exact hpos.ne' (hzero ((moment_eq_zero_iff a.startVector.coord 97).2 hone))
  · rintro ⟨r, i, hne⟩
    refine hnonneg.lt_of_ne' fun hnorm => hne (hfirst.1 ?_ r i)
    rw [hnorm, zero_pow two_ne_zero, zero_mul] at hquot
    exact (moment_eq_zero_iff a.startVector.coord 98).1 hquot.symm

/-- What the coupling is when the Gram matrix does not decide. -/
theorem estimated_eq_unconstrained_iff (hrep : a.Represents w K) (h : estimated a = .ok c) :
    c = unconstrained ↔ ∀ r i, sumCells a.colDims K a.startVector.coord r i = 0 := by
  obtain ⟨norm, hnorm, rfl⟩ := estimated_eq_ok.1 h
  have hpos := normEstimate_pos_iff hrep hnorm
  split
  · rename_i hlt
    obtain ⟨r, i, hne⟩ := hpos.1 hlt
    exact ⟨nofun, fun hzero => absurd (hzero r i) hne⟩
  · rename_i hle
    exact ⟨fun _ r i => not_not.1 fun hne => hle (hpos.2 ⟨r, i, hne⟩), fun _ => rfl⟩

/-- If the iteration only scales what it has after the first step, by `alpha`, then that is what is bounded. -/
theorem estimated_eq_linearized (hrep : a.Represents w K) (alpha : S)
    (halpha : ∀ q ∈ cells a.rowDims,
      sumCells a.colDims K (gramMap a.rowDims a.colDims K a.startVector.coord) q.1 q.2
        = alpha * sumCells a.colDims K a.startVector.coord q.1 q.2)
    {r : String} {i : Nat} (hne : sumCells a.colDims K a.startVector.coord r i ≠ 0)
    (h : estimated a = .ok c) : c = linearized (margin * alpha) := by
  obtain ⟨norm, hnorm, rfl⟩ := estimated_eq_ok.1 h
  have hsq : norm ^ 2 = alpha := BlockMatrix.normEstimate_sq_eq (k := 48) hrep hnorm halpha
    fun hzero => hne ((hrep.moment_one_eq_zero_iff _).1 hzero r i)
  rw [if_pos ((normEstimate_pos_iff hrep hnorm).2 ⟨r, i, hne⟩), ← hsq, sq, mul_assoc]

/-- A matrix of scalars without a scalar Gram matrix has a coupling, by the estimate of the norm. -/
theorem exists_estimated (h : a.OfScalars) (hgram : gramScalar? a l = .ok none) (hempty : a.isEmpty = false)
    (hback : a.transpose.toOption.isSome = true) (hroom : a.colDims.values.forM room = .ok ()) :
    ∃ c, estimated a = .ok c ∧ Coupling.of a l = .ok c := by
  obtain ⟨back, hback⟩ := exists_eq_ok hback
  obtain ⟨norm, hnorm⟩ := h.exists_normEstimate hback hroom normIterations
  have hest := estimated_eq_ok.2 ⟨norm, hnorm, rfl⟩
  exact ⟨_, hest, (of_eq_estimated hgram hempty).trans hest⟩

/-- A block is taken for one that no constraint touches just if it has no scalar Gram matrix and the product
    with the start vector of the estimate is zero. -/
theorem of_eq_unconstrained_iff (hrep : a.Represents w K) (h : Coupling.of a l = .ok c) :
    c = unconstrained ↔
      (∀ alpha, c ≠ scalar alpha) ∧ ∀ r i, sumCells a.colDims K a.startVector.coord r i = 0 := by
  rcases of_eq_ok h with ⟨alpha, -, -, rfl⟩ | ⟨hempty, rfl⟩ | hest
  · exact ⟨fun hc => absurd hc.symm (unconstrained_ne_scalar alpha), fun hc => absurd rfl (hc.1 alpha)⟩
  · refine ⟨fun _ => ⟨unconstrained_ne_scalar, fun r i => Finset.sum_eq_zero fun p _ => ?_⟩, fun _ => rfl⟩
    have hnone : a.get? r p.1 = none := by
      rw [BlockMatrix.get?, Keyed.get?, List.isEmpty_iff.1 hempty]
      rfl
    rw [hrep.eq_zero hnone, zero_mul]
  · have hiff := estimated_eq_unconstrained_iff hrep hest
    refine ⟨fun hc => ⟨fun alpha => hc ▸ unconstrained_ne_scalar alpha, hiff.1 hc⟩, fun hc => hiff.2 hc.2⟩

/-- `leaning`: the constraint `1.1 x - y = 0`. -/
noncomputable def leaning : BlockMatrix ℝ where
  blocks := Keyed.ofList [("0", Keyed.ofList [("x", .ofScalar 1 (11 / 10)), ("y", .ofScalar 1 (-1))])]
  rowDims := Keyed.ofList [("0", 1)]
  colDims := Keyed.ofList [("x", 1), ("y", 1)]

/-- `leaningLayout`: a block of `x`, `y` and a variable that is not in the constraint. -/
def leaningLayout : Layout := ⟨Keyed.ofList [("x", 1), ("y", 1), ("z", 1)]⟩

theorem toList_leaning :
    leaning.toList = [⟨"0", "x", .ofScalar 1 (11 / 10)⟩, ⟨"0", "y", .ofScalar 1 (-1)⟩] := rfl

theorem ofScalars_leaning : leaning.OfScalars := by
  refine ⟨fun b hb => ?_, fun b hb => ?_, fun b hb => ?_⟩ <;> rw [toList_leaning] at hb <;>
    simp only [List.mem_cons, List.not_mem_nil, or_false] at hb <;> rcases hb with rfl | rfl
  exacts [⟨_, rfl⟩, ⟨_, rfl⟩, rfl, rfl, rfl, rfl]

theorem product_leaning (x : String → Nat → ℝ) :
    sumCells leaning.colDims leaning.scalars x "0" 0 = 11 / 10 * x "x" 0 - x "y" 0 := by
  have hcells : cells leaning.colDims = {⟨"x", 0⟩, ⟨"y", 0⟩} := by decide
  rw [sumCells, hcells, Finset.sum_pair (by decide)]
  show 11 / 10 * x "x" 0 + -1 * x "y" 0 = _
  ring

/-- The start vector goes up by `0.1` from one variable to the next. -/
theorem startEntry_eq : (startEntry 0 : ℝ) = 1 ∧ (startEntry 1 : ℝ) = 11 / 10 ∧
    (startEntry 2 : ℝ) = 6 / 5 := by
  refine ⟨?_, ?_, ?_⟩ <;> rw [startEntry, ofScientific_eq_cast] <;> norm_num

theorem product_leaning_start (r : String) (i : Nat) :
    sumCells leaning.colDims leaning.scalars leaning.startVector.coord r i = 0 := by
  refine (ofScalars_leaning.represents.moment_one_eq_zero_iff _).1 (sqOver_eq_zero_iff.2 fun p hp => ?_) r i
  have hrows : cells leaning.rowDims = {⟨"0", 0⟩} := by decide
  rw [hrows] at hp
  rw [Finset.mem_singleton.1 hp, product_leaning]
  show 11 / 10 * (startEntry 0 : ℝ) - startEntry 1 = 0
  rw [startEntry_eq.1, startEntry_eq.2.1, mul_one, sub_self]

theorem leaning_eq_unconstrained : Coupling.of leaning leaningLayout = .ok unconstrained := by
  obtain ⟨c, hest, hof⟩ := exists_estimated (l := leaningLayout) ofScalars_leaning rfl rfl rfl rfl
  rw [hof, (estimated_eq_unconstrained_iff ofScalars_leaning.represents hest).2 product_leaning_start]

theorem of_eq_unconstrained_iff_leaning : Coupling.of leaning leaningLayout = .ok unconstrained ∧
    ((unconstrained : Coupling ℝ) = unconstrained ↔ (∀ alpha : ℝ, unconstrained ≠ scalar alpha) ∧
      ∀ r i, sumCells leaning.colDims leaning.scalars leaning.startVector.coord r i = 0) :=
  ⟨leaning_eq_unconstrained,
    of_eq_unconstrained_iff ofScalars_leaning.represents leaning_eq_unconstrained⟩

/-- The constraint is not zero, but the estimate does not see it. -/
theorem of_leaning : Coupling.of leaning leaningLayout = .ok unconstrained ∧
    ∃ x y, leaning.apply x = .ok y ∧ y.coord "0" 0 ≠ 0 := by
  obtain ⟨y, hy⟩ := exists_eq_ok
    (x := leaning.apply ⟨Keyed.ofList [("x", #[1]), ("y", #[0])]⟩) (by decide +kernel)
  refine ⟨leaning_eq_unconstrained, _, y, hy, ?_⟩
  rw [ofScalars_leaning.represents.apply hy]
  refine (product_leaning _).trans_ne ?_
  show 11 / 10 * (1 : ℝ) - 0 ≠ 0
  norm_num

/-- The bound of a linearized step is `1.01` times the last quotient of the moments. -/
theorem linearized_mul_moment {mu : S} (hrep : a.Represents w K)
    (h : Coupling.of a l = .ok (linearized mu)) :
    0 < moment a.rowDims a.colDims K a.startVector.coord (2 * 49) ∧
      mu * moment a.rowDims a.colDims K a.startVector.coord (2 * 49)
        = margin * moment a.rowDims a.colDims K a.startVector.coord (2 * 49 + 1) := by
  obtain ⟨norm, hnorm, hpos, rfl⟩ := linearized_of_eq_ok h
  obtain ⟨-, hquot, hzero⟩ := BlockMatrix.normEstimate_eq_ok (k := 49) hrep hnorm
  refine ⟨(moment_nonneg _ _).lt_of_ne' fun heq => hpos.ne' (hzero heq), ?_⟩
  rw [← hquot]
  ring

/-- The bound of a linearized step is `1.01` times the quotient of the squares of the lengths of `A z` and `z`,
    where `z` is where the iteration ends; so it is an upper bound just if no point is stretched more than
    that. -/
theorem linearized_majorizes_iff {mu : S} (hrep : a.Represents w K)
    (h : Coupling.of a l = .ok (linearized mu)) :
    ∃ z, z = (gramMap a.rowDims a.colDims K)^[normIterations - 1] a.startVector.coord ∧
      0 < sqOver a.colDims z ∧
      ((∀ x, sqOver a.rowDims (sumCells a.colDims K x) ≤ mu * sqOver a.colDims x) ↔
        ∀ x, sqOver a.rowDims (sumCells a.colDims K x) * sqOver a.colDims z
          ≤ margin * sqOver a.rowDims (sumCells a.colDims K z) * sqOver a.colDims x) := by
  obtain ⟨hpos, hquot⟩ := linearized_mul_moment hrep h
  obtain ⟨heven, hodd⟩ := moment_eq_sqOver (D := a.rowDims) (C := a.colDims) (K := K) a.startVector.coord 49
  rw [heven] at hpos hquot
  rw [hodd] at hquot
  refine ⟨_, rfl, hpos, forall_congr' fun x => ?_⟩
  have hscale : margin * sqOver a.rowDims (sumCells a.colDims K
        ((gramMap a.rowDims a.colDims K)^[49] a.startVector.coord)) * sqOver a.colDims x
      = mu * sqOver a.colDims x
        * sqOver a.colDims ((gramMap a.rowDims a.colDims K)^[49] a.startVector.coord) := by
    rw [← hquot]
    ring
  show _ ↔ _ ≤ margin * sqOver a.rowDims (sumCells a.colDims K
    ((gramMap a.rowDims a.colDims K)^[49] a.startVector.coord)) * sqOver a.colDims x
  rw [hscale]
  exact (mul_le_mul_iff_left₀ hpos).symm

/-- `blind`: the constraints `1.1 x - y = 0` and `z = 0`. -/
noncomputable def blind : BlockMatrix ℝ where
  blocks := Keyed.ofList [("0", Keyed.ofList [("x", .ofScalar 1 (11 / 10)), ("y", .ofScalar 1 (-1))]),
    ("1", Keyed.ofList [("z", .ofScalar 1 1)])]
  rowDims := Keyed.ofList [("0", 1), ("1", 1)]
  colDims := Keyed.ofList [("x", 1), ("y", 1), ("z", 1)]

/-- `blindLayout`: a block of `x`, `y`, `z` and a variable that is in none of the constraints. -/
def blindLayout : Layout := ⟨Keyed.ofList [("t", 1), ("x", 1), ("y", 1), ("z", 1)]⟩

theorem toList_blind : blind.toList
    = [⟨"0", "x", .ofScalar 1 (11 / 10)⟩, ⟨"0", "y", .ofScalar 1 (-1)⟩, ⟨"1", "z", .ofScalar 1 1⟩] := rfl

theorem ofScalars_blind : blind.OfScalars := by
  refine ⟨fun b hb => ?_, fun b hb => ?_, fun b hb => ?_⟩ <;> rw [toList_blind] at hb <;>
    simp only [List.mem_cons, List.not_mem_nil, or_false] at hb <;> rcases hb with rfl | rfl | rfl
  exacts [⟨_, rfl⟩, ⟨_, rfl⟩, ⟨_, rfl⟩, rfl, rfl, rfl, rfl, rfl, rfl]

theorem cells_blind : cells blind.rowDims = {⟨"0", 0⟩, ⟨"1", 0⟩} ∧
    cells blind.colDims = {⟨"x", 0⟩, ⟨"y", 0⟩, ⟨"z", 0⟩} := by decide

theorem product_blind (x : String → Nat → ℝ) :
    sumCells blind.colDims blind.scalars x "0" 0 = 11 / 10 * x "x" 0 - x "y" 0 ∧
      sumCells blind.colDims blind.scalars x "1" 0 = x "z" 0 := by
  have hsum (r : String) : sumCells blind.colDims blind.scalars x r 0
      = blind.scalars r "x" 0 0 * x "x" 0 + (blind.scalars r "y" 0 0 * x "y" 0
        + blind.scalars r "z" 0 0 * x "z" 0) := by
    rw [sumCells, cells_blind.2, Finset.sum_insert (by decide), Finset.sum_pair (by decide)]
  constructor
  · rw [hsum]
    show 11 / 10 * x "x" 0 + (-1 * x "y" 0 + 0 * x "z" 0) = _
    ring
  · rw [hsum]
    show 0 * x "x" 0 + (0 * x "y" 0 + 1 * x "z" 0) = _
    ring

theorem backProduct_blind (u : String → Nat → ℝ) :
    sumCells blind.rowDims blind.scalars.transpose u "x" 0 = 11 / 10 * u "0" 0 ∧
      sumCells blind.rowDims blind.scalars.transpose u "y" 0 = -u "0" 0 ∧
      sumCells blind.rowDims blind.scalars.transpose u "z" 0 = u "1" 0 := by
  have hsum (c : String) : sumCells blind.rowDims blind.scalars.transpose u c 0
      = blind.scalars "0" c 0 0 * u "0" 0 + blind.scalars "1" c 0 0 * u "1" 0 := by
    rw [sumCells, cells_blind.1, Finset.sum_pair (by decide)]
    rfl
  refine ⟨?_, ?_, ?_⟩
  · rw [hsum]
    show 11 / 10 * u "0" 0 + 0 * u "1" 0 = _
    ring
  · rw [hsum]
    show -1 * u "0" 0 + 0 * u "1" 0 = _
    ring
  · rw [hsum]
    show 0 * u "0" 0 + 1 * u "1" 0 = _
    ring

/-- `steep`: a point of `blind` that the first constraint stretches most. -/
noncomputable def steep : BlockVector ℝ :=
  ⟨Keyed.ofList [("x", #[11 / 10]), ("y", #[-1]), ("z", #[0])]⟩

theorem normSq_steep : steep.normSq = 221 / 100 := by
  have hsum : steep.normSq = ([Vec.inner #[11 / 10] #[11 / 10], Vec.inner #[-1] #[-1],
    Vec.inner #[0] #[0]] : List ℝ).sum := rfl
  rw [hsum]
  simp only [Vec.inner_eq_sum, List.size_toArray, List.length_cons, List.length_nil, Nat.zero_add,
    Finset.sum_range_one, List.sum_cons, List.sum_nil]
  show (11 / 10 * (11 / 10) + (-1 * -1 + (0 * 0 + 0)) : ℝ) = _
  norm_num

theorem normSq_blind_steep {y : BlockVector ℝ} (hy : blind.apply steep = .ok y) :
    y.normSq = (221 / 100) ^ 2 := by
  have hrep := ofScalars_blind.represents
  obtain ⟨hfirst, hsecond⟩ := product_blind steep.coord
  have hy0 : y.coord "0" 0 = 11 / 10 * (11 / 10) - -1 := (hrep.apply hy "0" 0).trans hfirst
  have hy1 : y.coord "1" 0 = 0 := (hrep.apply hy "1" 0).trans hsecond
  rw [BlockVector.normSq_eq_sqOver (D := blind.rowDims) fun r n => hrep.sizeAt?_apply hy, sqOver,
    cells_blind.1, Finset.sum_pair (by decide), hy0, hy1]
  norm_num

/-- The estimate sees the second constraint only. -/
theorem blind_eq_linearized : Coupling.of blind blindLayout = .ok (linearized margin) := by
  obtain ⟨c, hest, hof⟩ := exists_estimated (l := blindLayout) ofScalars_blind rfl rfl rfl rfl
  obtain ⟨hfirst, hsecond⟩ := product_blind blind.startVector.coord
  have hstart : 11 / 10 * blind.startVector.coord "x" 0 - blind.startVector.coord "y" 0 = 0 := by
    show 11 / 10 * (startEntry 0 : ℝ) - startEntry 1 = 0
    rw [startEntry_eq.1, startEntry_eq.2.1, mul_one, sub_self]
  have hne : sumCells blind.colDims blind.scalars blind.startVector.coord "1" 0 ≠ 0 := by
    rw [hsecond]
    show (startEntry 2 : ℝ) ≠ 0
    rw [startEntry_eq.2.2]
    norm_num
  rw [hof, estimated_eq_linearized ofScalars_blind.represents 1 (fun q hq => ?_) hne hest, mul_one]
  obtain ⟨hx, hy, hz⟩ := backProduct_blind (sumCells blind.colDims blind.scalars blind.startVector.coord)
  obtain ⟨hfirst', hsecond'⟩ := product_blind (gramMap blind.rowDims blind.colDims blind.scalars
    blind.startVector.coord)
  rw [cells_blind.1, Finset.mem_insert, Finset.mem_singleton] at hq
  rcases hq with rfl | rfl
  · rw [hfirst', hfirst, gramMap, hx, hy, hfirst, hstart]
    ring
  · rw [hsecond', hsecond, gramMap, hz, hsecond, one_mul]

theorem linearized_majorizes_iff_blind : Coupling.of blind blindLayout = .ok (linearized margin) ∧
    ∃ z, z = (gramMap blind.rowDims blind.colDims blind.scalars)^[normIterations - 1]
        blind.startVector.coord ∧ 0 < sqOver blind.colDims z ∧
      ((∀ x, sqOver blind.rowDims (sumCells blind.colDims blind.scalars x)
          ≤ margin * sqOver blind.colDims x) ↔
        ∀ x, sqOver blind.rowDims (sumCells blind.colDims blind.scalars x) * sqOver blind.colDims z
          ≤ margin * sqOver blind.rowDims (sumCells blind.colDims blind.scalars z)
            * sqOver blind.colDims x) :=
  ⟨blind_eq_linearized, linearized_majorizes_iff ofScalars_blind.represents blind_eq_linearized⟩

/-- The bound of the linearized step is less than the square of what the first constraint stretches. -/
theorem of_blind : Coupling.of blind blindLayout = .ok (linearized margin) ∧
    ∃ x y, blind.apply x = .ok y ∧ margin * x.normSq < y.normSq := by
  obtain ⟨y, hy⟩ := exists_eq_ok (x := blind.apply steep) (by decide +kernel)
  refine ⟨blind_eq_linearized, steep, y, hy, ?_⟩
  rw [normSq_steep, normSq_blind_steep hy, margin_eq]
  norm_num

/-- The bound of a linearized step is an upper bound if the start vector has a part along a direction `v`
    that is stretched most, by the square root of `λ`, which is not less than the root of `1.01 ^ -99` of it. -/
theorem linearized_majorizes_of_overlap {mu : S} (hrep : a.Represents w K)
    (h : Coupling.of a l = .ok (linearized mu)) {v : String → Nat → S} {lambda : S}
    (hlambda : 0 ≤ lambda) (hv : ∀ p ∈ cells a.colDims, gramMap a.rowDims a.colDims K v p.1 p.2
      = lambda * v p.1 p.2) (hpos : 0 < sqOver a.colDims v)
    (hlongest : ∀ x, sqOver a.rowDims (sumCells a.colDims K x) ≤ lambda * sqOver a.colDims x)
    (hoverlap : sqOver a.colDims v * sqOver a.colDims a.startVector.coord
      ≤ margin ^ (2 * normIterations - 1)
        * (∑ p ∈ cells a.colDims, a.startVector.coord p.1 p.2 * v p.1 p.2) ^ 2) (x : String → Nat → S) :
    sqOver a.rowDims (sumCells a.colDims K x) ≤ mu * sqOver a.colDims x := by
  obtain ⟨hmoment, hquot⟩ := linearized_mul_moment hrep h
  have hle := le_moment_of_overlap a.startVector.coord margin_pos.le hlambda hv hpos 49 hoverlap
  rw [← hquot] at hle
  exact (hlongest x).trans
    (mul_le_mul_of_nonneg_right (le_of_mul_le_mul_right hle hmoment) (sqOver_nonneg _ _))

end Coupling

end BlockAdmm
