/-
  Who owns which variable.

  The terms of an objective are gone through one after another, and each claims its variables; a variable
  that has an owner cannot be claimed again, and in the end no column of the constraints may be without
  one (`layouts_eq_ok`).  So the columns are divided among the blocks, none lost and none counted twice,
  and the images of the blocks add up to the image under all constraints (`imageSum_eq_sumCells`).
-/
import BlockAdmm.Proofs.Constraints
import BlockAdmm.Proofs.Solver.Sweep

namespace BlockAdmm

variable {R : Type}

namespace Objective

variable {a : BlockMatrix R}

/-- Variables that were claimed had no owner and have one now. -/
theorem foldlM_claim_eq_ok {i : Nat} {vars : List (String × Nat)} {owners owners' : Keyed Nat}
    (h : vars.foldlM (claim a i) owners = .ok owners') :
    (∀ kd ∈ vars, kd.1 ∉ owners.keys ∧ ∀ n, a.colDims.get? kd.1 = some n → n = kd.2) ∧
      ∀ k, k ∈ owners'.keys ↔ k ∈ owners.keys ∨ k ∈ vars.map Prod.fst := by
  induction vars generalizing owners with
  | nil =>
    cases foldlM_nil_eq_ok.1 h
    exact ⟨fun _ hmem => absurd hmem List.not_mem_nil, fun k => (or_iff_left List.not_mem_nil).symm⟩
  | cons kd vars ih =>
    obtain ⟨mid, hmid, h⟩ := foldlM_cons_eq_ok.1 h
    rw [claim] at hmid
    cases hown : owners.get? kd.1 with
    | some j =>
      rw [hown] at hmid
      exact absurd hmid fail_ne_ok
    | none =>
      rw [hown] at hmid
      obtain ⟨_, hdim, hmid⟩ := bind_eq_ok.1 hmid
      cases pure_eq_ok.1 hmid
      obtain ⟨hfree, hkeys⟩ := ih h
      refine ⟨List.forall_mem_cons.2 ⟨⟨Keyed.get?_eq_none_iff.1 hown, BlockMatrix.checkDim_eq_ok.1 hdim⟩,
        fun kd' hkd' => ⟨fun hk => (hfree kd' hkd').1 ?_, (hfree kd' hkd').2⟩⟩, fun k => ?_⟩
      · exact Keyed.mem_keys_insert.2 (Or.inr hk)
      · rw [hkeys, Keyed.mem_keys_insert, List.map_cons, List.mem_cons, or_assoc, or_left_comm]

/-- `Shares a layouts`: layouts that share no variable and have the sizes of the columns of `a`. -/
structure Shares (a : BlockMatrix R) (layouts : List Layout) : Prop where
  disjoint : layouts.Pairwise fun l l' => ∀ k ∈ l.ids, k ∉ l'.ids
  sizes : ∀ l ∈ layouts, ∀ k d n, l.sizes.get? k = some d → a.colDims.get? k = some n → n = d

/-- `d.Sound a`: the owners are the terms of the layouts. -/
structure Division.Sound (a : BlockMatrix R) (d : Division) : Prop where
  shares : Shares a d.layouts
  owners : ∀ k, k ∈ d.owners.keys ↔ ∃ l ∈ d.layouts, k ∈ l.ids

theorem Division.Sound.divide {d d' : Division} {ei : Expr R × Nat} (hd : d.Sound a)
    (h : divide a d ei = .ok d') : d'.Sound a ∧ d'.layouts.length = d.layouts.length + 1 := by
  obtain ⟨sizes, -, h⟩ := bind_eq_ok.1 h
  obtain ⟨owners, hclaim, h⟩ := bind_eq_ok.1 h
  obtain ⟨l, hl, h⟩ := bind_eq_ok.1 h
  cases pure_eq_ok.1 h
  obtain ⟨_, -, hl⟩ := bind_eq_ok.1 hl
  cases pure_eq_ok.1 hl
  obtain ⟨hfree, hkeys⟩ := foldlM_claim_eq_ok hclaim
  refine ⟨⟨⟨?_, ?_⟩, fun k => ?_⟩, List.length_append⟩
  · refine List.pairwise_append.2 ⟨hd.shares.disjoint, List.pairwise_singleton _ _,
      fun l hl l' hl' k hk hk' => ?_⟩
    cases List.mem_singleton.1 hl'
    obtain ⟨kd, hkd, rfl⟩ := List.mem_map.1 (show k ∈ sizes.entries.map Prod.fst from hk')
    exact (hfree kd hkd).1 ((hd.owners _).2 ⟨l, hl, hk⟩)
  · intro l hl k n m hn hm
    rcases List.mem_append.1 hl with hl | hl
    · exact hd.shares.sizes l hl k n m hn hm
    · cases List.mem_singleton.1 hl
      exact (hfree (k, n) (Keyed.get?_eq_some_iff.1 hn)).2 m hm
  · rw [hkeys, hd.owners]
    simp only [List.mem_append, or_and_right, exists_or, List.mem_singleton, exists_eq_left]
    exact Iff.rfl

/-- The layouts of the terms: no variable has two owners, and no column of the constraints has none. -/
theorem layouts_eq_ok {terms : List (Expr R)} {ls : List Layout} (h : layouts terms a = .ok ls) :
    ls.length = terms.length ∧ Shares a ls ∧ ∀ k ∈ a.colDims.keys, ∃ l ∈ ls, k ∈ l.ids := by
  obtain ⟨d, hd, h⟩ := bind_eq_ok.1 h
  have hwalk (es : List (Expr R × Nat)) : ∀ (d d' : Division), d.Sound a →
      es.foldlM (divide a) d = .ok d' →
      d'.Sound a ∧ d'.layouts.length = d.layouts.length + es.length := by
    induction es with
    | nil =>
      intro d d' hd h
      cases foldlM_nil_eq_ok.1 h
      exact ⟨hd, rfl⟩
    | cons e es ih =>
      intro d d' hd h
      obtain ⟨mid, hmid, h⟩ := foldlM_cons_eq_ok.1 h
      obtain ⟨hsound, hlen⟩ := hd.divide hmid
      obtain ⟨hsound', hlen'⟩ := ih mid d' hsound h
      exact ⟨hsound', by rw [hlen', hlen, List.length_cons]; omega⟩
  have hempty : Division.Sound a ⟨Keyed.empty, []⟩ :=
    ⟨⟨List.Pairwise.nil, fun _ h => absurd h List.not_mem_nil⟩,
      fun k => ⟨fun h => absurd h List.not_mem_nil, fun ⟨_, h, _⟩ => absurd h List.not_mem_nil⟩⟩
  obtain ⟨hsound, hlen⟩ := hwalk _ _ _ hempty hd
  split at h
  · exact absurd h fail_ne_ok
  · rename_i hall
    cases pure_eq_ok.1 h
    refine ⟨by rw [hlen, List.length_zipIdx]; exact Nat.zero_add _, hsound.shares, fun k hk => ?_⟩
    have hk := List.find?_eq_none.1 hall k hk
    rw [Bool.not_eq_true', Bool.not_eq_false, Keyed.contains_iff_mem_keys] at hk
    exact (hsound.owners k).1 hk

end Objective

/-! ## Blocks of terms -/

/-- `Of all rho l blk`: the block of a term with the layout `l`, where `all` are the constraints. -/
structure TermBlock.Of [Scalar R] (all : BlockMatrix R) (rho : R) (l : Layout) (blk : TermBlock R) :
    Prop where
  layout : blk.layout = l
  matrix : blk.a = all.restrictCols l.ids
  transpose : blk.a.transpose = .ok blk.back
  coupling : Coupling.of blk.a l = .ok blk.coupling
  penalty : blk.rho = blk.coupling.penalty rho

theorem TermBlock.of_build [Scalar R] {p : Provider R} {s t : Session R} {index : Nat} {term : Expr R}
    {l : Layout} {all : BlockMatrix R} {rho : R} {blk : TermBlock R}
    (h : (TermBlock.build index term l all rho).runFrom p s = (.ok blk, t)) :
    TermBlock.Of all rho l blk := by
  rw [build] at h
  obtain ⟨back, r, hback, h⟩ := Compile.run_bind_eq_ok.1 h
  obtain ⟨htrans, rfl⟩ := Compile.run_liftM_eq_ok.1 hback
  obtain ⟨c, r, hc, h⟩ := Compile.run_bind_eq_ok.1 h
  obtain ⟨hof, rfl⟩ := Compile.run_liftM_eq_ok.1 hc
  obtain ⟨_, r, -, h⟩ := Compile.run_bind_eq_ok.1 h
  obtain ⟨input, r', -, h⟩ := Compile.run_bind_eq_ok.1 h
  obtain ⟨op, r'', -, h⟩ := Compile.run_bind_eq_ok.1 h
  obtain ⟨rfl, rfl⟩ := Compile.run_pure_eq_ok.1 h
  exact ⟨rfl, rfl, htrans, hof, rfl⟩

section Blocks

variable [Scalar R] {all : BlockMatrix R} {rho : R} {layouts : List Layout} {blocks : List (TermBlock R)}

theorem TermBlock.Of.col_mem {l : Layout} {blk : TermBlock R} (h : TermBlock.Of all rho l blk)
    {b : BlockMatrix.Block R} (hb : b ∈ blk.a.toList) :
    b.col ∈ blk.layout.ids ∧ all.get? b.row b.col = some b.map := by
  rw [h.matrix, BlockMatrix.mem_toList, BlockMatrix.get?_restrictCols] at hb
  rw [h.layout]
  split at hb
  · rename_i hmem; exact ⟨hmem, hb⟩
  · cases hb

/-- Blocks of layouts that share no variable are divided. -/
theorem divided_of_shares (hshares : Objective.Shares all layouts)
    (h : List.Forall₂ (TermBlock.Of all rho) layouts blocks) : Divided blocks := by
  refine ⟨?_, fun blk hblk b hb => ?_⟩
  · have hd := hshares.disjoint
    clear hshares
    induction h with
    | nil => exact List.Pairwise.nil
    | cons hof hrest ih =>
      obtain ⟨hhead, hd⟩ := List.pairwise_cons.1 hd
      refine List.pairwise_cons.2 ⟨fun blk hblk => ?_, ih hd⟩
      obtain ⟨l, hl, hof'⟩ := exists_of_forall₂ hrest hblk
      rw [hof.layout, hof'.layout]
      exact hhead l hl
  · obtain ⟨l, -, hof⟩ := exists_of_forall₂ h hblk
    exact (hof.col_mem hb).1

end Blocks

/-! ## The images of all blocks -/

variable [ExactScalar R] {w : Marks R} {all : BlockMatrix R} {K : Coefs R} {rho : R}

/-- The image of a block is a sum over all columns, of which the others count as zero. -/
theorem TermBlock.Of.image_eq {l : Layout} {blk : TermBlock R} (h : TermBlock.Of all rho l blk)
    (hrep : all.Represents w K) {x y : BlockVector R} (hy : blk.a.apply x = .ok y) (r : String)
    (i : Nat) : blk.image x r i
      = sumCells all.colDims (fun r c => if c ∈ l.ids then K r c else 0) x.coord r i := by
  have hblk := hrep.restrictCols l.ids
  rw [← h.matrix] at hblk
  rw [TermBlock.image_of_apply hy, hblk.apply hy]
  refine sum_cells_eq (fun p hp => (hblk.mem_cells (left_ne_zero_of_mul hp)).2) fun p hp => ?_
  have hK : (if p.1 ∈ l.ids then K r p.1 else 0) i p.2 ≠ 0 := left_ne_zero_of_mul hp
  split at hK
  · exact (hrep.mem_cells hK).2
  · exact absurd rfl hK

omit [ExactScalar R] in
/-- A sum over all columns, layout by layout: a variable has one owner. -/
theorem Objective.Shares.sum_owned {M : Type} [AddCommMonoid M] {layouts : List Layout}
    (h : Objective.Shares all layouts) (hall : ∀ k ∈ all.colDims.keys, ∃ l ∈ layouts, k ∈ l.ids)
    (f : Cell → M) :
    (layouts.map fun l => ∑ p ∈ cells all.colDims, if p.1 ∈ l.ids then f p else 0).sum
      = ∑ p ∈ cells all.colDims, f p := by
  have hswap (ls : List Layout) :
      (ls.map fun l => ∑ p ∈ cells all.colDims, if p.1 ∈ l.ids then f p else 0).sum
        = ∑ p ∈ cells all.colDims, (ls.map fun l => if p.1 ∈ l.ids then f p else 0).sum := by
    induction ls with
    | nil => exact Finset.sum_const_zero.symm
    | cons l ls ih => simp only [List.map_cons, List.sum_cons, Finset.sum_add_distrib, ih]
  rw [hswap]
  refine Finset.sum_congr rfl fun p hp => ?_
  obtain ⟨n, hn, -⟩ := mem_cells.1 hp
  obtain ⟨l, hl, hown⟩ := hall p.1 (Keyed.mem_keys_iff.2 ⟨n, hn⟩)
  exact sum_map_ite_unique (h.disjoint.imp fun hdisjoint => hdisjoint p.1) hl hown fun _ => f p

/-- The images of the blocks add up to the product with all constraints. -/
theorem imageSum_eq_sumCells {layouts : List Layout} {blocks : List (TermBlock R)}
    (hrep : all.Represents w K) (hshares : Objective.Shares all layouts)
    (hall : ∀ k ∈ all.colDims.keys, ∃ l ∈ layouts, k ∈ l.ids)
    (hblocks : List.Forall₂ (TermBlock.Of all rho) layouts blocks) {x : BlockVector R}
    (happly : ∀ blk ∈ blocks, ∃ y, blk.a.apply x = .ok y) (r : String) (i : Nat) :
    imageSum blocks x r i = sumCells all.colDims K x.coord r i := by
  rw [sumCells, ← hshares.sum_owned hall fun p => K r p.1 i p.2 * x.coord p.1 p.2]
  clear hshares hall
  induction hblocks with
  | nil => rfl
  | cons hblk _ ih =>
    obtain ⟨y, hy⟩ := happly _ List.mem_cons_self
    rw [imageSum_cons, List.map_cons, List.sum_cons, hblk.image_eq hrep hy,
      ih fun b hb => happly b (List.mem_cons_of_mem _ hb)]
    congr 1
    refine Finset.sum_congr rfl fun p _ => ?_
    beta_reduce
    split_ifs
    · rfl
    · exact zero_mul _

end BlockAdmm
