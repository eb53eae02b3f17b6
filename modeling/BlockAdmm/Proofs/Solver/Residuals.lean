/-
  What the residuals are.

  `System.residuals` never puts `A x` or `Aᵀ u` together: it adds the images of the blocks one after the
  other, adds up squares block by block, and gets the changes that the dual residual needs from one running
  vector that goes through the blocks from the last to the first.  All of this comes to the same as if `A`
  were there as one matrix.  The reason is that the blocks share no variable and leave no column of `A` out,
  so that a sum over the columns is a sum over the blocks (`sum_places`); where a restriction has no row or
  no column its coefficients are zero.  The rows are those of the constraints, one for each
  (`AffineForm.HasRows`), so the lengths of the constraints are what the primal tolerance counts.
-/
import BlockAdmm.Proofs.Block.Coefs
import BlockAdmm.Proofs.Solver.Stationary
import BlockAdmm.Proofs.Solver.System

namespace BlockAdmm

open Scalar ExactScalar

variable {R : Type}

/-! ## The rows of the constraints -/

namespace Problem

variable {q : Problem R}

/-- `q.rows`: the names of the rows of the constraints, each with its length. -/
def rows (q : Problem R) : List (String × Nat) :=
  q.constraints.zipIdx.map fun ci => (toString ci.2, ci.1.leftDim)

/-- `q.rowDims`: the lengths of the rows by name. -/
def rowDims (q : Problem R) : Keyed Nat := Keyed.ofList q.rows

/-- `q.elements`: how many entries all constraints together say are zero. -/
def elements (q : Problem R) : Nat := (q.constraints.map Expr.leftDim).sum

theorem nodup_names (q : Problem R) : (q.rows.map Prod.fst).Nodup := by
  rw [rows, List.map_map]
  exact nodup_rows q.constraints

theorem mem_rows {r : String} {m : Nat} :
    (r, m) ∈ q.rows ↔ ∃ ci ∈ q.constraints.zipIdx, r = toString ci.2 ∧ m = ci.1.leftDim := by
  rw [rows, List.mem_map]
  refine exists_congr fun ci => and_congr_right fun _ => ?_
  rw [Prod.mk.injEq]
  exact and_congr eq_comm eq_comm

theorem sum_rows (q : Problem R) : (q.rows.map Prod.snd).sum = q.elements := by
  have hfst : q.constraints.map Expr.leftDim
      = q.constraints.zipIdx.map fun ci => ci.1.leftDim := by
    conv_lhs => rw [← List.zipIdx_map_fst 0 q.constraints, List.map_map]
    rfl
  rw [elements, hfst, rows, List.map_map]
  rfl

end Problem

/-- `f.HasRows cs`: the form has a constant part for each of the numbered constraints `cs`, as long as the
    constraint is, and no other rows. -/
structure AffineForm.HasRows (cs : List (Expr R × Nat)) (f : AffineForm R) : Prop where
  sized : f.a.Sized
  rows : ∀ r m, f.a.rowDims.get? r = some m → ∃ ci ∈ cs, r = toString ci.2 ∧ m = ci.1.leftDim
  offset : ∀ r m, f.b.sizeAt? r = some m ↔ ∃ ci ∈ cs, r = toString ci.2 ∧ m = ci.1.leftDim

theorem AffineForm.hasRows_zero : (AffineForm.zero : AffineForm R).HasRows [] :=
  ⟨BlockMatrix.sized_empty, nofun, fun _ _ => ⟨nofun, nofun⟩⟩

namespace Affine

open Compile

variable [ExactScalar R] {p : Provider R} {s t : Session R} {f g : AffineForm R}

/-- One more constraint, with a name that is new. -/
theorem hasRows_buildConstraint {cs : List (Expr R × Nat)} {ci : Expr R × Nat} (hf : f.HasRows cs)
    (hnew : ∀ ci' ∈ cs, toString ci'.2 ≠ toString ci.2)
    (h : (buildConstraint f ci).runFrom p s = (.ok g, t)) : g.HasRows (cs ++ [ci]) := by
  obtain ⟨e, new, hargs, hbuild, hadd, hsum⟩ := run_buildConstraint_eq_ok h
  obtain ⟨⟨hover, hsize⟩, -⟩ :=
    (runEnds_build (E := fun _ => True) fun _ _ _ => trivial).of_eq_ok hbuild
  have hdim : ci.1.leftDim = e.dim := by rw [Expr.leftDim, hargs]
  have hsplit {r : String} {m : Nat} :
      (∃ ci' ∈ cs ++ [ci], r = toString ci'.2 ∧ m = ci'.1.leftDim) ↔
        (∃ ci' ∈ cs, r = toString ci'.2 ∧ m = ci'.1.leftDim) ∨ r = toString ci.2 ∧ m = e.dim := by
    simp only [List.mem_append, List.mem_singleton, or_and_right, exists_or, exists_eq_left, hdim]
  obtain ⟨-, -, hrows⟩ := BlockMatrix.dims_foldlM_insertBlock hadd
  refine ⟨(hf.sized.add (E := fun _ => True) hover.sized).of_eq_ok hadd, fun r m hr => ?_,
    fun r m => ?_⟩
  · refine hsplit.2 ((hrows r m hr).imp (hf.rows r m) ?_)
    rintro ⟨blk, hblk, rfl, rfl⟩
    exact hover.rows _ _ (hover.sized.rows (BlockMatrix.mem_toList.1 hblk))
  · rw [hsplit, BlockVector.sizeAt?_addScaled hsum]
    by_cases hr : r = toString ci.2
    · subst hr
      have hold : ¬ ∃ ci' ∈ cs, toString ci.2 = toString ci'.2 ∧ m = ci'.1.leftDim := by
        rintro ⟨ci', hci', hname, -⟩
        exact hnew ci' hci' hname.symm
      rw [hsize, or_iff_right hold]
      exact ⟨fun h => ⟨rfl, (Option.some.inj h).symm⟩, fun h => congrArg some h.2.symm⟩
    · have hnone : new.b.sizeAt? r = none :=
        Option.eq_none_iff_forall_ne_some.2 fun n hn => hr (hover.offset r n hn).1
      rw [hnone, or_iff_left fun h => hr h.1]
      exact hf.offset r m

/-- The form of all constraints has a row for each. -/
theorem hasRows_buildConstraints {q : Problem R}
    (h : (buildConstraints q).runFrom p s = (.ok f, t)) : f.HasRows q.constraints.zipIdx :=
  buildConstraints_induction (fun through g _ => g.HasRows through) AffineForm.hasRows_zero
    (fun _ _ _ _ _ _ _ hnew hg hstep => hasRows_buildConstraint hg hnew hstep) h

end Affine

namespace AffineForm.HasRows

variable {q : Problem R} {f : AffineForm R}

theorem get?_rowDims (h : f.HasRows q.constraints.zipIdx) {r : String} {m : Nat}
    (hr : f.a.rowDims.get? r = some m) : q.rowDims.get? r = some m :=
  (Keyed.get?_ofList_iff q.nodup_names).2 (Problem.mem_rows.2 (h.rows r m hr))

theorem sizeAt?_iff (h : f.HasRows q.constraints.zipIdx) {r : String} {m : Nat} :
    f.b.sizeAt? r = some m ↔ q.rowDims.get? r = some m :=
  (h.offset r m).trans
    (Problem.mem_rows.symm.trans (Keyed.get?_ofList_iff q.nodup_names).symm)

/-- The constant part has as many entries as the constraints together. -/
theorem dim_eq (h : f.HasRows q.constraints.zipIdx) : f.b.dim = q.elements := by
  rw [← q.sum_rows]
  refine Keyed.sum_eq_of_get?_iff (List.Nodup.of_map Prod.fst q.nodup_names) fun r m => ?_
  rw [Keyed.get?_map, Problem.mem_rows]
  exact h.offset r m

end AffineForm.HasRows

/-! ## The blocks and the whole -/

section Blocks

variable [ExactScalar R] {all : BlockMatrix R} {rho : R} {layouts : List Layout}
  {blocks : List (TermBlock R)} {l : Layout} {blk : TermBlock R}

namespace TermBlock.Of

theorem coef_eq (h : TermBlock.Of all rho l blk) : blk.a.coef = all.coef.on blk.layout.ids := by
  funext r c
  rw [h.matrix, h.layout, BlockMatrix.coef_restrictCols, Coefs.on]

/-- The product with the restriction is that with the columns of the block. -/
theorem product_eq (h : TermBlock.Of all rho l blk) (hK : blk.Carries all.coef)
    (x : String → Nat → R) : blk.a.product x = blk.product all.coef x := by
  rw [BlockMatrix.product, h.coef_eq]
  exact hK.sumCells_on x

/-- At the variables of the block the transpose of the restriction gives what that of the whole gives. -/
theorem backProduct_eq (h : TermBlock.Of all rho l blk) (u : String → Nat → R) {c : String}
    (hc : c ∈ blk.layout.ids) (j : Nat) : blk.a.backProduct u c j = blk.backProduct all.coef u c j := by
  refine Finset.sum_congr rfl fun q _ => ?_
  rw [Coefs.transpose, h.coef_eq, Coefs.on, if_pos hc]
  rfl

end TermBlock.Of

/-- The coefficients of a block are in its rows, so there the transpose of the whole needs no others. -/
theorem TermBlock.Carries.backProduct_all (hK : blk.Carries all.coef) (hall : all.Sized)
    (u : String → Nat → R) {c : String} (hc : c ∈ blk.layout.ids) (j : Nat) :
    blk.backProduct all.coef u c j = all.backProduct u c j :=
  sum_cells_eq (fun _ hq => hK.mem_rows (p := ⟨c, j⟩) hc (left_ne_zero_of_mul hq)) fun _ hq =>
    ((hall.represents BlockMatrix.noMarks).mem_cells (left_ne_zero_of_mul hq)).1

/-- A sum over the columns of all constraints is a sum over the variables of the blocks. -/
theorem sum_places (hshares : Objective.Shares all layouts)
    (hall : ∀ k ∈ all.colDims.keys, ∃ l ∈ layouts, k ∈ l.ids)
    (hblocks : List.Forall₂ (TermBlock.Of all rho) layouts blocks) {g : Cell → R}
    (hg : ∀ p, g p ≠ 0 → p ∈ cells all.colDims) :
    (blocks.map fun blk => ∑ p ∈ blk.places, g p).sum = ∑ p ∈ cells all.colDims, g p := by
  rw [← hshares.sum_owned hall g]
  have hsizes := hshares.sizes
  clear hshares hall
  induction hblocks with
  | nil => rfl
  | @cons l blk _ _ hof _ ih =>
    rw [List.map_cons, List.sum_cons, List.map_cons, List.sum_cons,
      ih fun l hl => hsizes l (List.mem_cons_of_mem _ hl)]
    congr 1
    have hown {p : Cell} (hp : p ∈ blk.places) : p.1 ∈ l.ids := by
      have hmem := TermBlock.mem_ids_of_mem_places hp
      rwa [hof.layout] at hmem
    have hplaces : ∑ p ∈ blk.places, g p = ∑ p ∈ blk.places, if p.1 ∈ l.ids then g p else 0 :=
      Finset.sum_congr rfl fun p hp => (if_pos (hown hp)).symm
    rw [hplaces]
    refine sum_cells_eq (fun p hp => ?_) fun p hp => ?_ <;> beta_reduce at hp <;> split at hp
    · rename_i hmem
      obtain ⟨n, hn, hlt⟩ := mem_cells.1 (hg p hp)
      obtain ⟨d, hd⟩ := Layout.mem_ids_iff.1 hmem
      obtain rfl := hsizes l List.mem_cons_self _ _ _ hd hn
      exact mem_cells.2 ⟨n, hof.layout ▸ hd, hlt⟩
    · exact absurd rfl hp
    · exact hg p hp
    · exact absurd rfl hp

end Blocks

/-! ## The parts of the residuals -/

namespace System

/-- The blocks behind the first one have images of both iterates. -/
theorem apply_of_dualSquare [Scalar R] {it : Iterate R} {blocks : List (TermBlock R)}
    {diff : BlockVector R} {sum dual : R} (h : dualSquare it blocks diff sum = .ok dual) :
    ∀ blk ∈ blocks.dropLast,
      (∃ ax, blk.a.apply it.x = .ok ax) ∧ ∃ ax, blk.a.apply it.previous = .ok ax := by
  induction blocks generalizing diff sum with
  | nil => exact fun _ hblk => absurd hblk List.not_mem_nil
  | cons next blocks ih =>
    cases blocks with
    | nil => exact fun _ hblk => absurd hblk List.not_mem_nil
    | cons blk blocks =>
      obtain ⟨ax, hax, h⟩ := bind_eq_ok.1 h
      obtain ⟨_, -, h⟩ := bind_eq_ok.1 h
      obtain ⟨ax', hax', h⟩ := bind_eq_ok.1 h
      obtain ⟨_, -, h⟩ := bind_eq_ok.1 h
      obtain ⟨_, -, h⟩ := bind_eq_ok.1 h
      exact List.forall_mem_cons.2 ⟨⟨⟨ax, hax⟩, ax', hax'⟩, ih h⟩

/-- The largest of the norms, where `norm` is the norm of the image of a block. -/
theorem foldlM_addImage_norm [ExactScalar R] {blocks : List (TermBlock R)} {x : BlockVector R}
    {acc acc' : BlockVector R × R} {norm : TermBlock R → R}
    (hnorm : ∀ blk ∈ blocks, ∀ y, blk.a.apply x = .ok y → y.norm = norm blk)
    (h : blocks.foldlM (addImage x) acc = .ok acc') : acc'.2 = (blocks.map norm).foldl max acc.2 := by
  induction blocks generalizing acc with
  | nil => rw [foldlM_nil_eq_ok.1 h]; rfl
  | cons blk blocks ih =>
    obtain ⟨mid, hmid, h⟩ := foldlM_cons_eq_ok.1 h
    obtain ⟨y, hy, hmid⟩ := bind_eq_ok.1 hmid
    obtain ⟨z, hz, hmid⟩ := bind_eq_ok.1 hmid
    cases pure_eq_ok.1 hmid
    rw [ih (fun b hb => hnorm b (List.mem_cons_of_mem _ hb)) h, List.map_cons, List.foldl_cons,
      ← hnorm blk List.mem_cons_self y hy]
    exact congrArg (List.foldl max · _) (larger_eq _ _)

theorem productSum_sub [ExactScalar R] (K : Coefs R) (blocks : List (TermBlock R))
    (x y : String → Nat → R) (r : String) (i : Nat) :
    productSum K blocks (fun c j => x c j - y c j) r i
      = productSum K blocks x r i - productSum K blocks y r i := by
  rw [productSum_eq_sum, productSum_eq_sum, productSum_eq_sum, ← Finset.sum_sub_distrib]
  exact Finset.sum_congr rfl fun t _ => TermBlock.product_sub ..

end System

namespace Solver.CompilesTo

section Exact

variable [ExactScalar R] {s : Solver R} {p : Provider R} {form : AffineForm R} {layouts : List Layout}
  {system : System R} {blk : TermBlock R}

theorem hasRows (h : s.CompilesTo p form layouts system) :
    form.HasRows s.problem.constraints.zipIdx :=
  Affine.hasRows_buildConstraints (Prod.ext h.constraints rfl)

theorem carries (h : s.CompilesTo p form layouts system) (hblk : blk ∈ system.blocks) :
    blk.Carries form.a.coef := by
  obtain ⟨l, hl, hof⟩ := exists_of_forall₂ h.blocks hblk
  exact hof.carries (h.hasRows.sized.represents BlockMatrix.noMarks) (h.shares.sizes l hl)

theorem sized_block (h : s.CompilesTo p form layouts system) (hblk : blk ∈ system.blocks) :
    blk.a.Sized := by
  obtain ⟨l, -, hof⟩ := exists_of_forall₂ h.blocks hblk
  rw [hof.matrix]
  exact h.hasRows.sized.restrictCols l.ids

/-- The rows of the image of a block are rows of the constraints. -/
theorem get?_rowDims_image (h : s.CompilesTo p form layouts system) (hblk : blk ∈ system.blocks)
    {x y : BlockVector R} (hy : blk.a.apply x = .ok y) {r : String} {m : Nat}
    (hr : y.sizeAt? r = some m) : s.problem.rowDims.get? r = some m := by
  obtain ⟨l, -, hof⟩ := exists_of_forall₂ h.blocks hblk
  have hrow := (((h.sized_block hblk).represents BlockMatrix.noMarks)).sizeAt?_apply hy hr
  rw [hof.matrix, BlockMatrix.get?_rowDims_restrictCols h.hasRows.sized.rows] at hrow
  obtain ⟨c, map, hget, -, rfl⟩ := hrow
  exact h.hasRows.get?_rowDims (h.hasRows.sized.rows hget)

theorem norm_image (h : s.CompilesTo p form layouts system) (hblk : blk ∈ system.blocks)
    {x y : BlockVector R} (hy : blk.a.apply x = .ok y) :
    y.norm = Scalar.sqrt (sqOver s.problem.rowDims (blk.a.product x.coord)) := by
  rw [BlockVector.norm_eq_sqrt,
    BlockVector.normSq_eq_sqOver fun r m hr => h.get?_rowDims_image hblk hy hr,
    (h.sized_block hblk).product_eq hy]

/-- The products of the blocks add up to the product with all constraints. -/
theorem sum_product (h : s.CompilesTo p form layouts system) (x : String → Nat → R) (r : String)
    (i : Nat) : (system.blocks.map fun blk => blk.a.product x r i).sum = form.a.product x r i := by
  have hrep := h.hasRows.sized.represents BlockMatrix.noMarks
  rw [BlockMatrix.product, sumCells, ← sum_places h.shares h.owned h.blocks fun p hp =>
    (hrep.mem_cells (left_ne_zero_of_mul hp)).2]
  refine congrArg List.sum (List.map_congr_left fun blk hblk => ?_)
  obtain ⟨l, -, hof⟩ := exists_of_forall₂ h.blocks hblk
  rw [hof.product_eq (h.carries hblk)]
  rfl

/-- Over the variables of a block the transpose of its restriction is zero outside of the columns. -/
theorem sqOver_backProduct (h : s.CompilesTo p form layouts system) (hblk : blk ∈ system.blocks)
    (u : String → Nat → R) : sqOver blk.a.colDims (blk.a.backProduct u)
      = ∑ p ∈ blk.places, blk.backProduct form.a.coef u p.1 p.2 ^ 2 := by
  obtain ⟨l, -, hof⟩ := exists_of_forall₂ h.blocks hblk
  have hcells : sqOver blk.a.colDims (blk.a.backProduct u)
      = ∑ p ∈ blk.places, blk.a.backProduct u p.1 p.2 ^ 2 :=
    sum_cells_eq (fun _ hp => (h.sized_block hblk).mem_cells_of_backProduct hp)
      fun _ hp => cells_mono (h.carries hblk).cols ((h.sized_block hblk).mem_cells_of_backProduct hp)
  rw [hcells]
  refine Finset.sum_congr rfl fun p hp => ?_
  rw [hof.backProduct_eq u (TermBlock.mem_ids_of_mem_places hp)]

/-- The squares of the products with the transposes of the blocks add up to that of all constraints. -/
theorem sum_backProduct (h : s.CompilesTo p form layouts system) (u : String → Nat → R) :
    (system.blocks.map fun blk => sqOver blk.a.colDims (blk.a.backProduct u)).sum
      = sqOver form.a.colDims (form.a.backProduct u) := by
  rw [sqOver, ← sum_places h.shares h.owned h.blocks fun p => h.hasRows.sized.mem_cells_of_backProduct]
  refine congrArg List.sum (List.map_congr_left fun blk hblk => ?_)
  rw [h.sqOver_backProduct hblk]
  refine Finset.sum_congr rfl fun p hp => ?_
  rw [(h.carries hblk).backProduct_all h.hasRows.sized u (TermBlock.mem_ids_of_mem_places hp)]

end Exact

/-- The change of the images of some blocks behind the first is the sum of the products with the change of
    the iterate. -/
theorem lag_eq [ExactScalar R] {s : Solver R} {p : Provider R} {form : AffineForm R}
    {layouts : List Layout} {system : System R} (h : s.CompilesTo p form layouts system)
    {it : Iterate R} {diff : BlockVector R} {sum dual : R}
    (hdual : System.dualSquare it system.blocks.reverse diff sum = .ok dual) (t : Nat) :
    lag (system.blocks.drop (t + 1)) it = fun r i => ((system.blocks.drop (t + 1)).map fun blk =>
      blk.a.product (fun c j => it.x.coord c j - it.previous.coord c j) r i).sum := by
  have happly : ∀ blk ∈ system.blocks.drop (t + 1), blk ∈ system.blocks ∧
      (∃ ax, blk.a.apply it.x = .ok ax) ∧ ∃ ax, blk.a.apply it.previous = .ok ax := fun blk hblk => by
    refine ⟨List.mem_of_mem_drop hblk, System.apply_of_dualSquare hdual blk ?_⟩
    rw [← List.drop_tail] at hblk
    rw [List.dropLast_reverse, List.mem_reverse]
    exact List.mem_of_mem_drop hblk
  generalize system.blocks.drop (t + 1) = rest at happly ⊢
  funext r i
  have hK : ∀ blk ∈ rest, blk.Carries form.a.coef := fun blk hblk => h.carries (happly blk hblk).1
  rw [lag, System.imageSum_eq_productSum hK fun blk hblk => (happly blk hblk).2.1,
    System.imageSum_eq_productSum hK fun blk hblk => (happly blk hblk).2.2, ← System.productSum_sub]
  refine congrArg List.sum (List.map_congr_left fun blk hblk => ?_)
  obtain ⟨l, -, hof⟩ := exists_of_forall₂ h.blocks (happly blk hblk).1
  rw [hof.product_eq (hK blk hblk)]

end Solver.CompilesTo

/-! ## The residuals -/

variable {S : Type} [ExactRoots S]

/-- `r.Global q form system it`: the residuals `r` of an iterate in terms of the matrix and the constant part
    of all constraints, where the blocks have the restrictions of the matrix to their variables. -/
structure Residuals.Global (q : Problem S) (form : AffineForm S) (system : System S) (it : Iterate S)
    (r : Residuals S) : Prop where
  rNorm : r.rNorm = Scalar.sqrt
    (sqOver q.rowDims fun k i => form.a.product it.x.coord k i + form.b.coord k i)
  sNorm : r.sNorm ^ 2 = system.settings.rho ^ 2 * ∑ t : Fin system.blocks.length,
    sqOver (system.blocks.get t).a.colDims ((system.blocks.get t).a.backProduct fun k i =>
      ((system.blocks.drop (t + 1)).map fun blk =>
        blk.a.product (fun c j => it.x.coord c j - it.previous.coord c j) k i).sum)
  epsilonPrimal : r.epsilonPrimal = system.settings.absTol * Scalar.sqrt (q.elements : S)
    + system.settings.relTol * (system.blocks.map fun blk =>
        Scalar.sqrt (sqOver q.rowDims (blk.a.product it.x.coord))).foldl max
          (Scalar.sqrt (sqOver q.rowDims form.b.coord))
  epsilonDual : r.epsilonDual = system.settings.absTol * Scalar.sqrt (form.a.n : S)
    + system.settings.relTol * system.settings.rho
      * Scalar.sqrt (sqOver form.a.colDims (form.a.backProduct it.u.coord))

/-- A compilation goes through if its steps do. -/
theorem Compile.exists_run_bind {α β : Type} {p : Provider R} {s t : Session R} {x : Compile R α}
    {f : α → Compile R β} {a : α} {b : β} (hx : x.runFrom p s = (.ok a, t))
    (hf : ∃ u, (f a).runFrom p t = (.ok b, u)) : ∃ u, (x >>= f).runFrom p s = (.ok b, u) := by
  obtain ⟨u, hf⟩ := hf
  exact ⟨u, run_bind_eq_ok.2 ⟨a, t, hx, hf⟩⟩

namespace Solver

open Compile

variable {s : Solver S} {p : Provider S} {form : AffineForm S} {layouts : List Layout}
  {system : System S} {it : Iterate S} {r : Residuals S}

namespace CompilesTo

/-- The blocks leave `A x + b`. -/
theorem rNorm_eq (h : s.CompilesTo p form layouts system) (hr : system.residuals it = .ok r) :
    r.rNorm = Scalar.sqrt (sqOver s.problem.rowDims
      fun k i => form.a.product it.x.coord k i + form.b.coord k i) := by
  obtain ⟨left, _, _, _, hleft, -, -, hnorm, -⟩ := System.residuals_eq_ok hr
  obtain ⟨happly, hcoord, hsize⟩ := System.foldlM_addImage_eq_ok hleft
  have hrow (k : String) (m : Nat) (hk : left.sizeAt? k = some m) :
      s.problem.rowDims.get? k = some m := by
    rcases hsize k m hk with hk | ⟨blk, hblk, y, hy, hk⟩
    · rw [h.offset] at hk
      exact h.hasRows.sizeAt?_iff.1 hk
    · exact h.get?_rowDims_image hblk hy hk
  have hpoint : left.coord = fun k i => form.a.product it.x.coord k i + form.b.coord k i := by
    funext k i
    rw [hcoord, imageSum_eq_sumCells (h.hasRows.sized.represents BlockMatrix.noMarks) h.shares h.owned
      h.blocks happly, h.offset, add_comm]
    rfl
  rw [hnorm, BlockVector.norm_eq_sqrt, BlockVector.normSq_eq_sqOver hrow, hpoint]

/-- The running vector that goes through the blocks is at each block what the blocks behind it changed. -/
theorem sNorm_sq_eq (h : s.CompilesTo p form layouts system) (hr : system.residuals it = .ok r) :
    r.sNorm ^ 2 = system.settings.rho ^ 2 * ∑ t : Fin system.blocks.length,
      sqOver (system.blocks.get t).a.colDims ((system.blocks.get t).a.backProduct fun k i =>
        ((system.blocks.drop (t + 1)).map fun blk =>
          blk.a.product (fun c j => it.x.coord c j - it.previous.coord c j) k i).sum) := by
  obtain ⟨_, _, dual, _, -, hdual, -⟩ := System.residuals_eq_ok hr
  have hnonneg : 0 ≤ lagSquares form.a.coef system.blocks it := by
    rw [lagSquares_eq_sum]
    exact Finset.sum_nonneg fun _ _ => Finset.sum_nonneg fun _ _ => sq_nonneg _
  rw [System.sNorm_eq (fun blk => h.carries) hr, mul_pow, sqrt_sq hnonneg, lagSquares_eq_sum]
  refine congrArg (_ * ·) (Finset.sum_congr rfl fun t _ => ?_)
  rw [h.sqOver_backProduct (List.get_mem system.blocks t), h.lag_eq hdual]

/-- The largest of the norms is over the images of the blocks and the constant part. -/
theorem epsilonPrimal_eq (h : s.CompilesTo p form layouts system) (hr : system.residuals it = .ok r) :
    r.epsilonPrimal = system.settings.absTol * Scalar.sqrt (s.problem.elements : S)
      + system.settings.relTol * (system.blocks.map fun blk =>
          Scalar.sqrt (sqOver s.problem.rowDims (blk.a.product it.x.coord))).foldl max
            (Scalar.sqrt (sqOver s.problem.rowDims form.b.coord)) := by
  obtain ⟨left, maxNorm, _, _, hleft, -, -, -, -, hprimal, -⟩ := System.residuals_eq_ok hr
  have hmax : maxNorm = (system.blocks.map fun blk =>
      Scalar.sqrt (sqOver s.problem.rowDims (blk.a.product it.x.coord))).foldl max system.b.norm :=
    System.foldlM_addImage_norm (fun blk hblk y => h.norm_image hblk) hleft
  have hnorm : form.b.norm = Scalar.sqrt (sqOver s.problem.rowDims form.b.coord) := by
    rw [BlockVector.norm_eq_sqrt, BlockVector.normSq_eq_sqOver fun k m => h.hasRows.sizeAt?_iff.1]
  rw [hprimal, hmax, h.offset, h.hasRows.dim_eq, hnorm]

/-- The squares that are added up are those of `Aᵀ u`. -/
theorem epsilonDual_eq (h : s.CompilesTo p form layouts system) (hr : system.residuals it = .ok r) :
    r.epsilonDual = system.settings.absTol * Scalar.sqrt (form.a.n : S)
      + system.settings.relTol * system.settings.rho
        * Scalar.sqrt (sqOver form.a.colDims (form.a.backProduct it.u.coord)) := by
  obtain ⟨_, _, _, back, -, -, hback, -, -, -, hdual⟩ := System.residuals_eq_ok hr
  rw [hdual, h.columns, System.foldlM_addBackSquare_eq_ok (fun blk => h.carries) hback, zero_add,
    ← h.sum_backProduct, List.map_congr_left fun blk hblk => h.sqOver_backProduct hblk it.u.coord]

theorem global (h : s.CompilesTo p form layouts system) (hr : system.residuals it = .ok r) :
    r.Global s.problem form system it :=
  ⟨h.rNorm_eq hr, h.sNorm_sq_eq hr, h.epsilonPrimal_eq hr, h.epsilonDual_eq hr⟩

end CompilesTo

/-- For a problem that is compiled, at every iterate: what `residuals` computes from the blocks is what it
    says of the matrix and the constant part of all constraints.  The products of the blocks add up to that
    of all constraints, and so do the squares under the transposes. -/
theorem residuals_global {s : Solver S} {p : Provider S} {system : System S}
    (h : s.system p = .ok system) : ∃ form layouts, s.CompilesTo p form layouts system ∧
      (∀ it r, system.residuals it = .ok r → r.Global s.problem form system it) ∧
      (∀ x r i, (system.blocks.map fun blk => blk.a.product x r i).sum = form.a.product x r i) ∧
      ∀ u, (system.blocks.map fun blk => sqOver blk.a.colDims (blk.a.backProduct u)).sum
        = sqOver form.a.colDims (form.a.backProduct u) := by
  obtain ⟨form, layouts, h⟩ := system_eq_ok h
  exact ⟨form, layouts, h, fun _ _ => h.global, h.sum_product, h.sum_backProduct⟩

/-- `anchoredTerm`: no term, but of `x` and `y`. -/
noncomputable def anchoredTerm : Expr ℝ :=
  .node (.term ⟨.zero, 1, false⟩) 1 1 [.var 1 1 "x", .var 1 1 "y"]

/-- `anchored`: minimize `0` over `x` and `y` subject to `x = 0`. -/
noncomputable def anchored : Solver ℝ :=
  create ⟨"p", anchoredTerm, [.node .zeroCone 1 1 [.var 1 1 "x"]]⟩ .default

/-- `anchoredForm`: the form of its constraint. -/
noncomputable def anchoredForm : AffineForm ℝ :=
  ⟨System.single, ⟨Keyed.ofList [("0", Vec.scale 1 (Vec.zero 1))]⟩⟩

/-- `anchoredSystem`: what it is compiled to. -/
noncomputable def anchoredSystem : System ℝ := ⟨.default, [System.shiftedBlock], anchoredForm.b, 1⟩

theorem run_constraints_anchored (r : Session ℝ) : ∃ t,
    (Affine.buildConstraints anchored.problem).runFrom (fun _ => none) r = (.ok anchoredForm, t) :=
  ⟨_, rfl⟩

theorem layouts_anchored :
    Objective.layouts [anchoredTerm] System.single = .ok [System.shiftedBlock.layout] := rfl

theorem run_build_anchored (r : Session ℝ) : ∃ t,
    (TermBlock.build 0 anchoredTerm System.shiftedBlock.layout System.single 1).runFrom
      (fun _ => none) r = (.ok System.shiftedBlock, t) := by
  rw [TermBlock.build]
  refine exists_run_bind rfl (exists_run_bind (run_liftM_eq_ok.2 ⟨System.single_eq_linearized, rfl⟩) ?_)
  exact exists_run_bind rfl (exists_run_bind rfl (exists_run_bind rfl ⟨_, rfl⟩))

theorem system_anchored : anchored.system (fun _ => none) = .ok anchoredSystem := by
  have hrun : ∃ t, anchored.compile.runFrom (fun _ => none) (Session.start .zero 0)
      = (.ok anchoredSystem, t) := by
    rw [compile]
    refine exists_run_bind rfl (exists_run_bind rfl (exists_run_bind rfl ?_))
    obtain ⟨t, hform⟩ := run_constraints_anchored _
    refine exists_run_bind hform (exists_run_bind rfl (exists_run_bind rfl ?_))
    refine exists_run_bind (a := [anchoredTerm]) rfl ?_
    refine exists_run_bind (run_liftM_eq_ok.2 ⟨layouts_anchored, rfl⟩) ?_
    obtain ⟨t', hblk⟩ := run_build_anchored _
    refine exists_run_bind (run_bind_eq_ok.2 ⟨System.shiftedBlock, _, hblk, rfl⟩) ?_
    exact ⟨_, rfl⟩
  obtain ⟨t, hrun⟩ := hrun
  exact congrArg Prod.fst hrun

/-- `away`: an iterate that does not meet the constraint. -/
noncomputable def away : Iterate ℝ where
  x := ⟨Keyed.ofList [("x", #[3]), ("y", #[5])]⟩
  previous := ⟨Keyed.ofList [("x", #[1]), ("y", #[1])]⟩
  u := ⟨Keyed.ofList [("0", #[2])]⟩

/-- What is left of the constraint at `away`. -/
theorem residuals_global_anchored : anchored.system (fun _ => none) = .ok anchoredSystem ∧
    ∃ r, anchoredSystem.residuals away = .ok r ∧ r.rNorm = 3 := by
  obtain ⟨form, _, hc, hglobal, -, -⟩ := residuals_global system_anchored
  obtain ⟨t, hform⟩ := run_constraints_anchored (Session.start .zero 0)
  obtain rfl : anchoredForm = form := Except.ok.inj ((congrArg Prod.fst hform).symm.trans hc.constraints)
  obtain ⟨r, hr⟩ := exists_eq_ok (x := anchoredSystem.residuals away) (by decide +kernel)
  refine ⟨system_anchored, r, hr, (hglobal away r hr).rNorm.trans (sqrt_eq_of_sq (by norm_num) ?_)⟩
  have hrows : cells anchored.problem.rowDims = {⟨"0", 0⟩} := by decide +kernel
  have hproduct : System.single.product away.x.coord "0" 0 = 1 * 3 := by
    rw [BlockMatrix.product, sumCells, System.cells_single.2, Finset.sum_singleton]
    rfl
  have hoffset : anchoredForm.b.coord "0" 0 = 0 := by
    show Vec.entry (Vec.scale 1 (Vec.zero 1)) 0 = (0 : ℝ)
    rw [Vec.entry_scale, Vec.entry_zero, mul_zero]
  rw [sqOver, hrows, Finset.sum_singleton]
  show _ = (System.single.product away.x.coord "0" 0 + anchoredForm.b.coord "0" 0) ^ 2
  rw [hproduct, hoffset]
  norm_num

end Solver

end BlockAdmm
