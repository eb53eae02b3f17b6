/-
  What the names of the rows do not matter for.

  Under other names the rows of a matrix are walked through in another order, so the products of pairs of blocks
  are added up in the Gram matrix in another order, and the sums end in other forms.  They have the same places
  and the same entries.  If one Gram matrix shows a scalar other than zero, then all of its blocks are on the
  diagonal, and each of them is that multiple of the identity; then so are those of the other, and a multiple of
  the identity shows itself in every form (`Renamed.scalar?_gram`).

  The power iteration goes from the columns to the rows and back, and comes back to the same vector
  (`Renamed.normEstimate`).
-/
import BlockAdmm.Proofs.Block.Gram
import BlockAdmm.Proofs.Block.Renamed
import BlockAdmm.Proofs.LinearMap.Diagonal

namespace BlockAdmm

open Scalar ExactScalar

variable {R : Type}

namespace BlockMatrix

/-! ## No blocks -/

/-- A restriction has no row without a block. -/
theorem isEmpty_restrictCols_iff {a : BlockMatrix R} {cols : List String} :
    (a.restrictCols cols).isEmpty = true ↔ ∀ r c, (a.restrictCols cols).get? r c = none := by
  constructor
  · intro h r c
    have hempty : (a.restrictCols cols).blocks.entries = [] := List.isEmpty_iff.1 h
    rw [get?, Keyed.get?, hempty]
    rfl
  · intro h
    have hkept : (a.toList.filter fun b => cols.contains b.col) = [] := by
      refine List.eq_nil_iff_forall_not_mem.2 fun b hb => ?_
      obtain ⟨hb, hcol⟩ := List.mem_filter.1 hb
      have hnone := h b.row b.col
      rw [get?_restrictCols, if_pos (List.contains_iff_mem.1 hcol), mem_toList.1 hb] at hnone
      cases hnone
    rw [restrictCols_eq, hkept]
    rfl

variable {ρ : Equiv.Perm String} {a a' g g' back back' : BlockMatrix R}

theorem Renamed.isEmpty_restrictCols (h : a.Renamed ρ (Equiv.refl String) a') (cols : List String) :
    (a.restrictCols cols).isEmpty = (a'.restrictCols cols).isEmpty := by
  have h := h.restrictCols cols
  rw [Bool.eq_iff_iff, isEmpty_restrictCols_iff, isEmpty_restrictCols_iff]
  constructor
  · intro hnone r' c
    rw [← Option.map_eq_none_iff (f := LinearMap.bare), ← ρ.apply_symm_apply r']
    exact (h.blocks _ c).trans (Option.map_eq_none_iff.2 (hnone _ c))
  · intro hnone r c
    rw [← Option.map_eq_none_iff (f := LinearMap.bare), ← h.blocks r c]
    exact Option.map_eq_none_iff.2 (hnone _ _)

variable [ExactScalar R]

/-! ## Gram matrices -/

/-- Blocks on the diagonal that can show nothing but `alpha` show `alpha` together. -/
theorem commonScalar_eq {bs : List (Block R)} {prev o : Option R} {alpha : R}
    (hbs : ∀ b ∈ bs, b.row = b.col ∧ ∀ o, b.map.scalar? = .ok o → o = some alpha)
    (hprev : prev = some alpha ∨ prev = none ∧ bs ≠ []) (h : commonScalar bs prev = .ok o) : o = some alpha := by
  induction bs generalizing prev with
  | nil =>
    cases h
    exact hprev.resolve_right fun hempty => hempty.2 rfl
  | cons b bs ih =>
    obtain ⟨⟨hdiag, hscalar⟩, hbs⟩ := List.forall_mem_cons.1 hbs
    rw [commonScalar, if_neg (by simp [hdiag])] at h
    obtain ⟨v, hv, h⟩ := bind_eq_ok.1 h
    obtain rfl := hscalar v hv
    rcases hprev with rfl | ⟨rfl, -⟩
    · have h : (if (alpha == alpha) = true then commonScalar bs (some alpha) else pure none) = .ok o := h
      rw [if_pos (beq_iff_eq.2 rfl)] at h
      exact ih hbs (Or.inl rfl) h
    · exact ih hbs (Or.inl rfl) h

/-- A block of the Gram matrix has the sizes of two columns, and its entries are sums over the rows. -/
theorem Sized.means_gram (h : a.Sized) (hg : a.gram = .ok g) {r r' c c' : String} {k k' d : LinearMap R}
    (hk : a.get? r c = some k) (hk' : a.get? r' c' = some k') (hd : g.get? c c' = some d) :
    d.Means noMarks k.n k'.n
      fun i j => ∑ p ∈ cells a.rowDims, a.coef p.1 c p.2 i * a.coef p.1 c' p.2 j := by
  have hrep := h.represents noMarks
  have hgram := hrep.gram hg
  obtain ⟨hrows, hcols⟩ := hrep.extends_gram hg
  have hm : d.m = k.n := Option.some.inj ((hrows c d.m (hgram.rows hd)).symm.trans (h.cols hk))
  have hn : d.n = k'.n := Option.some.inj ((hcols c' d.n (hgram.cols hd)).symm.trans (h.cols hk'))
  rw [← hm, ← hn]
  exact (hgram.denotes hd).means

/-- The sums over the rows. -/
theorem Renamed.sum_rows (h : a.Renamed ρ (Equiv.refl String) a') (c c' : String) (i j : Nat) :
    ∑ p ∈ cells a'.rowDims, a'.coef p.1 c p.2 i * a'.coef p.1 c' p.2 j
      = ∑ p ∈ cells a.rowDims, a.coef p.1 c p.2 i * a.coef p.1 c' p.2 j := by
  have hcoef (r k : String) : a'.coef (ρ r) k = a.coef r k := h.coef r k
  rw [sum_cells_renamed h.rows]
  exact Finset.sum_congr rfl fun p _ => by rw [hcoef, hcoef]

/-- Where the Gram matrix of one side has a block, so has that of the other. -/
theorem Renamed.isSome_get?_gram (h : a.Renamed ρ (Equiv.refl String) a') (hg : a.gram = .ok g)
    (hg' : a'.gram = .ok g') {c c' : String} (hd : (g.get? c c').isSome) : (g'.get? c c').isSome := by
  obtain ⟨r, k, k', hk, hk'⟩ := exists_of_get?_gram hg hd
  obtain ⟨l, hl, -⟩ := h.exists_right hk
  obtain ⟨l', hl', -⟩ := h.exists_right hk'
  exact BlockMatrix.isSome_get?_gram hg' hl hl'

/-- A scalar other than zero is shown by both Gram matrices, if by one. -/
theorem Renamed.scalar?_gram (h : a.Renamed ρ (Equiv.refl String) a')
    (hpos : ∀ r c l, a.get? r c = some l → 0 < l.n) (hg : a.gram = .ok g) (hg' : a'.gram = .ok g') {alpha : R}
    (halpha : alpha ≠ 0) (hs : g.scalar? = .ok (some alpha)) {o : Option R} (hs' : g'.scalar? = .ok o) :
    o = some alpha := by
  obtain ⟨-, hcommon⟩ := commonScalar_eq_some hs
  refine commonScalar_eq (fun b hb => ?_) (Or.inr ⟨rfl, fun hnil => ?_⟩) hs'
  · obtain ⟨c, c', d⟩ := b
    have hd : g'.get? c c' = some d := mem_toList.1 hb
    have hmet : (g'.get? c c').isSome := by rw [hd]; rfl
    obtain ⟨e, he⟩ := Option.isSome_iff_exists.1 (h.symm.isSome_get?_gram hg' hg hmet)
    obtain ⟨rfl, hscalar⟩ : c = c' ∧ e.scalar? = .ok (some alpha) := hcommon ⟨c, c', e⟩ (mem_toList.2 he)
    refine ⟨rfl, fun o ho => ?_⟩
    -- the blocks of both sides have the size of the column and the same entries
    obtain ⟨r', l, -, hl, -⟩ := exists_of_get?_gram hg' hmet
    obtain ⟨r, rfl⟩ := ρ.surjective r'
    obtain ⟨k, hk, halike⟩ := h.exists_left (c := c) hl
    obtain ⟨-, hentries⟩ := (h.sized.means_gram hg hk hk he).scalar? hscalar
    have hmeans := h.sized_right.means_gram hg' hl hl hd
    have hplain : d.Plain := (h.sized_right.gram.of_eq_ok (E := fun _ => True) hg').plain hd
    rw [← halike.n_eq] at hmeans
    refine hmeans.scalar?_eq hplain (hpos r c k hk) (fun i j hi hj => ?_) halpha ho
    rw [h.sum_rows, hentries i j hi hj]
  · -- there is a block on the one side, so there is one on the other
    have hblock : ∃ b, b ∈ g.toList := by
      refine List.exists_mem_of_ne_nil _ fun hnil => ?_
      rw [scalar?, hnil] at hs
      cases hs
    obtain ⟨⟨c, c', e⟩, he⟩ := hblock
    have hmet : (g.get? c c').isSome := by rw [mem_toList.1 he]; rfl
    obtain ⟨d, hd⟩ := Option.isSome_iff_exists.1 (h.isSome_get?_gram hg hg' hmet)
    have hmem : (⟨c, c', d⟩ : Block R) ∈ g'.toList := mem_toList.2 hd
    rw [hnil] at hmem
    cases hmem

/-! ## The estimate of the norm -/

/-- The steps of the power iteration have the same values. -/
theorem Renamed.powerSteps (h : a.Renamed ρ (Equiv.refl String) a') (hback : back.Renamed (Equiv.refl String) ρ back')
    (k : Nat) (x : BlockVector R) (sigma2 : R) :
    Matched Eq (BlockMatrix.powerSteps a back k x sigma2) (BlockMatrix.powerSteps a' back' k x sigma2) := by
  induction k generalizing x sigma2 with
  | zero => exact .ok rfl
  | succ k ih =>
    rw [BlockMatrix.powerSteps, BlockMatrix.powerSteps]
    split
    · exact .ok rfl
    · refine Matched.andThen _ fun u => ?_
      refine (h.apply (BlockVector.renamed_refl_iff.2 rfl)).bind fun y y' hy => ?_
      refine (hback.apply hy).bind fun z z' hz => ?_
      obtain rfl := BlockVector.renamed_refl_iff.1 hz
      exact Matched.andThen _ fun s => ih _ _

theorem Renamed.normEstimate (h : a.Renamed ρ (Equiv.refl String) a') (hback : a.transpose = .ok back)
    (hback' : a'.transpose = .ok back') (k : Nat) : Matched Eq (a.normEstimate k) (a'.normEstimate k) := by
  have hcols : a'.colDims = a.colDims := Keyed.renamed_refl_iff.1 h.cols
  rw [BlockMatrix.normEstimate, BlockMatrix.normEstimate, startVector, startVector, hback, hback', hcols]
  refine Matched.andThen (a.colDims.values.forM room) fun _ => ?_
  refine (h.powerSteps (h.transpose hback hback') k _ 0).bind fun s s' hs => ?_
  subst hs
  exact .ok rfl

end BlockMatrix

end BlockAdmm
