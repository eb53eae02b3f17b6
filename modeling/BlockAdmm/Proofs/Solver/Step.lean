/-
  What the step of a block does in a sweep.

  A block carries its columns of the constraints (`TermBlock.Carries`): a product with them, and one with
  their transpose, which is the adjoint (`Carries.sum_backProduct_mul`).  The point at which the proximal
  operator is applied depends on the coupling, but if the coupling is true of the columns it comes to the
  same in all cases: the penalty times what the operator moves the point by is what the new values leave
  of the residual, under the transpose, but for an error that only a linearized step has
  (`Carries.rate_eq`).  In a sweep the residual that is left is the new running sum and what the blocks
  behind change afterwards (`System.exists_move`).
-/
import BlockAdmm.Proofs.Block.Gram
import BlockAdmm.Proofs.Block.Linear
import BlockAdmm.Proofs.Solver.Sweep

namespace BlockAdmm

open Scalar ExactScalar

variable {R : Type}

/-! ## The columns of a block -/

/-- `K.on ids`: the coefficients in the columns of some variables. -/
def Coefs.on [Zero R] (K : Coefs R) (ids : List String) : Coefs R := fun r c => if c ∈ ids then K r c else 0

namespace TermBlock

/-- `blk.places`: the variables of a block, each with its indices. -/
def places (blk : TermBlock R) : Finset Cell := cells blk.layout.sizes

/-- `blk.place p`: where a variable of a block stands in its flat vector. -/
def place (blk : TermBlock R) (p : Cell) : Nat := blk.layout.offset p.1 + p.2

variable [ExactScalar R] (K : Coefs R) (blk : TermBlock R)

/-- `blk.Carries K`: the block has its columns of the coefficients `K`, and their transpose. -/
structure Carries : Prop where
  represents : ∃ w, blk.a.Represents w (K.on blk.layout.ids)
  transpose : blk.a.transpose = .ok blk.back
  cols : blk.layout.sizes.Extends blk.a.colDims

/-- `blk.product K x`: the product of the columns of a block with a point. -/
def product (x : String → Nat → R) : String → Nat → R := sumCells blk.layout.sizes K x

/-- `blk.backProduct K u`: the product of the transpose of the columns of a block with a point. -/
def backProduct (u : String → Nat → R) : String → Nat → R := sumCells blk.a.rowDims K.transpose u

variable {K blk}

omit [ExactScalar R] in
theorem mem_ids_of_mem_places {p : Cell} (hp : p ∈ blk.places) : p.1 ∈ blk.layout.ids := by
  obtain ⟨d, hd, -⟩ := mem_cells.1 hp
  exact Layout.mem_ids_iff.2 ⟨d, hd⟩

omit [ExactScalar R] in
/-- Every place of the flat vector is that of a variable of the block. -/
theorem place_cellAt {t : Nat} (ht : t < blk.layout.n) :
    blk.layout.cellAt t ∈ blk.places ∧ blk.place (blk.layout.cellAt t) = t := by
  obtain ⟨d, hd, hi, heq⟩ := Layout.cellAt_eq ht
  exact ⟨mem_cells.2 ⟨d, hd, hi⟩, heq⟩

theorem product_sub (x y : String → Nat → R) (r : String) (i : Nat) :
    blk.product K (fun k i => x k i - y k i) r i = blk.product K x r i - blk.product K y r i :=
  sumCells_sub_point ..

theorem backProduct_add (u v : String → Nat → R) (c : String) (j : Nat) :
    blk.backProduct K (fun r i => u r i + v r i) c j = blk.backProduct K u c j + blk.backProduct K v c j :=
  sumCells_add_point ..

theorem backProduct_sub (u v : String → Nat → R) (c : String) (j : Nat) :
    blk.backProduct K (fun r i => u r i - v r i) c j = blk.backProduct K u c j - blk.backProduct K v c j :=
  sumCells_sub_point ..

/-- The product depends on the variables of the block only. -/
theorem product_congr {x y : String → Nat → R} (h : ∀ p ∈ blk.places, x p.1 p.2 = y p.1 p.2) :
    blk.product K x = blk.product K y := by
  funext r i
  exact sumCells_congr_point _ _ _ _ h

/-- A coefficient of a variable of the block is in one of the rows of the block. -/
theorem Carries.mem_rows (h : blk.Carries K) {p : Cell} (hp : p.1 ∈ blk.layout.ids) {r : String} {i : Nat}
    (hK : K r p.1 i p.2 ≠ 0) : (⟨r, i⟩ : Cell) ∈ cells blk.a.rowDims := by
  obtain ⟨w, hrep⟩ := h.represents
  refine (hrep.mem_cells (c := p.1) (j := p.2) ?_).1
  rwa [Coefs.on, if_pos hp]

/-- The columns of a block are those of its variables that have a coefficient. -/
theorem Carries.sumCells_on (h : blk.Carries K) (x : String → Nat → R) :
    sumCells blk.a.colDims (K.on blk.layout.ids) x = blk.product K x := by
  funext r i
  obtain ⟨w, hrep⟩ := h.represents
  have hcells : cells blk.a.colDims ⊆ cells blk.layout.sizes := cells_mono h.cols
  have hon : sumCells blk.a.colDims (K.on blk.layout.ids) x r i
      = ∑ p ∈ cells blk.layout.sizes, K.on blk.layout.ids r p.1 i p.2 * x p.1 p.2 :=
    sum_cells_eq (fun p hp => (hrep.mem_cells (left_ne_zero_of_mul hp)).2)
      fun p hp => hcells (hrep.mem_cells (left_ne_zero_of_mul hp)).2
  rw [hon]
  refine Finset.sum_congr rfl fun p hp => ?_
  rw [Coefs.on, if_pos (mem_ids_of_mem_places hp)]

/-- The image of a block is the product of its columns with its variables. -/
theorem Carries.image_eq (h : blk.Carries K) {x y : BlockVector R} (hy : blk.a.apply x = .ok y) :
    blk.image x = blk.product K x.coord := by
  obtain ⟨w, hrep⟩ := h.represents
  rw [image_of_apply hy, ← h.sumCells_on]
  funext r i
  exact hrep.apply hy r i

/-- What the stored transpose gives at the variables of the block. -/
theorem Carries.coord_back (h : blk.Carries K) {u g : BlockVector R} (hg : blk.back.apply u = .ok g)
    {c : String} (hc : c ∈ blk.layout.ids) (j : Nat) : g.coord c j = blk.backProduct K u.coord c j := by
  obtain ⟨w, hrep⟩ := h.represents
  obtain ⟨-, hcols, -⟩ := BlockMatrix.transpose_eq_ok h.transpose
  rw [(hrep.transpose h.transpose).apply hg, hcols]
  refine Finset.sum_congr rfl fun p _ => ?_
  rw [Coefs.transpose, Coefs.on, if_pos hc]
  rfl

/-- The square of the norm of a product with the stored transpose. -/
theorem Carries.normSq_back (h : blk.Carries K) {u g : BlockVector R} (hg : blk.back.apply u = .ok g) :
    g.normSq = ∑ p ∈ blk.places, blk.backProduct K u.coord p.1 p.2 ^ 2 := by
  obtain ⟨w, hrep⟩ := h.represents
  obtain ⟨hrows, -⟩ := BlockMatrix.transpose_eq_ok h.transpose
  rw [places, sum_cells, BlockVector.normSq_eq_sum (S := blk.layout.sizes.keys.toFinset)
    (d := fun k => (blk.layout.sizes.get? k).getD 0)]
  · refine Finset.sum_congr rfl fun k hk => Finset.sum_congr rfl fun i _ => ?_
    rw [h.coord_back hg (List.mem_toFinset.1 hk), sq]
  · intro k n hn
    have hcol := (hrep.transpose h.transpose).sizeAt?_apply hg hn
    rw [hrows] at hcol
    have hsize := h.cols k n hcol
    refine ⟨List.mem_toFinset.2 (Keyed.mem_keys_iff.2 ⟨n, hsize⟩), ?_⟩
    rw [hsize]
    exact le_rfl

/-- The transpose is the adjoint, over any rows that contain those of the block. -/
theorem Carries.sum_backProduct_mul (h : blk.Carries K) {S : Finset Cell}
    (hS : cells blk.a.rowDims ⊆ S) (u x : String → Nat → R) :
    ∑ p ∈ blk.places, blk.backProduct K u p.1 p.2 * x p.1 p.2
      = ∑ q ∈ S, u q.1 q.2 * blk.product K x q.1 q.2 := by
  have hrow (q : Cell) (hq : u q.1 q.2 * blk.product K x q.1 q.2 ≠ 0) : q ∈ cells blk.a.rowDims := by
    obtain ⟨p, hp, hne⟩ := Finset.exists_ne_zero_of_sum_ne_zero (right_ne_zero_of_mul hq)
    exact h.mem_rows (mem_ids_of_mem_places hp) (left_ne_zero_of_mul hne)
  refine (sum_sumCells_transpose_mul _ _ u x _).trans ?_
  exact sum_cells_eq (f := fun q => u q.1 q.2 * blk.product K x q.1 q.2) hrow fun q hq => hS (hrow q hq)

/-! ## Couplings that are true -/

/-- `blk.HasGram K alpha`: the columns of a block are orthogonal, with `alpha` as the square of their
    length. -/
def HasGram (K : Coefs R) (blk : TermBlock R) (alpha : R) : Prop :=
  ∀ p ∈ blk.places, ∀ q ∈ blk.places,
    ∑ s ∈ cells blk.a.rowDims, K s.1 p.1 s.2 p.2 * K s.1 q.1 s.2 q.2 = if p = q then alpha else 0

/-- `blk.Untouched K`: the columns of a block are zero. -/
def Untouched (K : Coefs R) (blk : TermBlock R) : Prop := ∀ p ∈ blk.places, ∀ r i, K r p.1 i p.2 = 0

/-- `blk.Consistent K`: the coupling of a block is true of its columns. -/
def Consistent (K : Coefs R) (blk : TermBlock R) : Prop :=
  match blk.coupling with
  | .scalar alpha => blk.HasGram K alpha
  | .unconstrained => blk.Untouched K
  | .linearized mu => 0 < mu

theorem Untouched.backProduct_eq_zero (h : blk.Untouched K) (u : String → Nat → R) {p : Cell}
    (hp : p ∈ blk.places) : blk.backProduct K u p.1 p.2 = 0 :=
  Finset.sum_eq_zero fun q _ => by rw [Coefs.transpose, h p hp, zero_mul]

theorem HasGram.backProduct_product {alpha : R} (h : blk.HasGram K alpha) (x : String → Nat → R) {p : Cell}
    (hp : p ∈ blk.places) : blk.backProduct K (blk.product K x) p.1 p.2 = alpha * x p.1 p.2 := by
  refine (sumCells_transpose ..).trans ?_
  rw [Finset.sum_eq_single p]
  · rw [h p hp p hp, if_pos rfl]
  · intro q hq hne
    rw [h p hp q hq, if_neg (Ne.symm hne), zero_mul]
  · exact fun hmem => absurd hp hmem

/-- The square of a length is not negative. -/
theorem HasGram.nonneg {alpha : R} (h : blk.HasGram K alpha) {p : Cell} (hp : p ∈ blk.places) :
    0 ≤ alpha := by
  have hsum := h p hp p hp
  rw [if_pos rfl] at hsum
  exact hsum ▸ Finset.sum_nonneg fun _ _ => mul_self_nonneg _

/-- Columns of length zero are zero. -/
theorem HasGram.untouched (hK : blk.Carries K) (h : blk.HasGram K 0) : blk.Untouched K := by
  intro p hp r i
  by_contra hne
  have hsum := h p hp p hp
  rw [if_pos rfl, Finset.sum_eq_zero_iff_of_nonneg fun _ _ => mul_self_nonneg _] at hsum
  have hmem := hK.mem_rows (mem_ids_of_mem_places hp) hne
  exact hne (mul_self_eq_zero.1 (hsum ⟨r, i⟩ hmem))

/-! ## The point of a step -/

/-- `blk.stepError K rho d`: what a step that changes the variables by `d` adds to the condition of
    optimality.  Only a linearized step adds something, which is `ρ (Aᵀ A - μ) d`. -/
def stepError (K : Coefs R) (blk : TermBlock R) (rho : R) (d : String → Nat → R) : String → Nat → R :=
  match blk.coupling with
  | .linearized mu => fun c j => rho * (blk.backProduct K (blk.product K d) c j - mu * d c j)
  | _ => fun _ _ => 0

/-- The error depends on the changes of the variables of the block only. -/
theorem stepError_congr {d e : String → Nat → R} (h : ∀ p ∈ blk.places, d p.1 p.2 = e p.1 p.2) (rho : R)
    {p : Cell} (hp : p ∈ blk.places) :
    blk.stepError K rho d p.1 p.2 = blk.stepError K rho e p.1 p.2 := by
  rw [stepError, stepError]
  cases blk.coupling with
  | linearized mu =>
    show rho * (blk.backProduct K (blk.product K d) p.1 p.2 - mu * d p.1 p.2) = _
    rw [product_congr h, h p hp]
  | _ => rfl

/-- What the step of a block goes through. -/
theorem step_eq_ok {u x y : BlockVector R} (h : (blk.step u x).outcome = .ok y) :
    ∃ v z, blk.target u x = .ok v ∧ (blk.operator.apply v).outcome = .ok z ∧ z.size = blk.layout.n ∧
      blk.layout.split z = .ok y := by
  obtain ⟨v, hv, h⟩ := Logged.bind_eq_ok.1 h
  obtain ⟨z, hz, h⟩ := Logged.bind_eq_ok.1 h
  split at h
  · exact absurd h fail_ne_ok
  · rename_i hsize
    obtain ⟨_, -, h⟩ := Logged.bind_eq_ok.1 h
    exact ⟨v, z, hv, hz, by simpa using hsize, h⟩

/-- The point at which the proximal operator is applied. -/
theorem Carries.entry_target (h : blk.Carries K) {u x : BlockVector R} {v : Array R}
    (hv : blk.target u x = .ok v) : v.size = blk.layout.n ∧ ∀ p ∈ blk.places,
      Vec.entry v (blk.place p) = match blk.coupling with
        | .scalar alpha => blk.backProduct K u.coord p.1 p.2 / alpha
        | .unconstrained => x.coord p.1 p.2
        | .linearized mu => x.coord p.1 p.2
            - blk.backProduct K (fun r i => blk.product K x.coord r i - u.coord r i) p.1 p.2 / mu := by
  rw [target] at hv
  cases hc : blk.coupling with
  | scalar alpha =>
    rw [hc] at hv
    obtain ⟨g, hg, hv⟩ := bind_eq_ok.1 hv
    obtain ⟨y, hy, hv⟩ := bind_eq_ok.1 hv
    cases pure_eq_ok.1 hv
    obtain ⟨hsize, hentry⟩ := Layout.flatten_eq_ok hy
    refine ⟨by rw [Vec.size_scale, hsize], fun p hp => ?_⟩
    obtain ⟨d, hd, hi⟩ := mem_cells.1 hp
    rw [Vec.entry_scale, place, hentry p.1 d p.2 hd hi, h.coord_back hg (mem_ids_of_mem_places hp),
      recip_mul]
  | unconstrained =>
    rw [hc] at hv
    obtain ⟨hsize, hentry⟩ := Layout.flatten_eq_ok hv
    refine ⟨hsize, fun p hp => ?_⟩
    obtain ⟨d, hd, hi⟩ := mem_cells.1 hp
    exact hentry p.1 d p.2 hd hi
  | linearized mu =>
    rw [hc] at hv
    obtain ⟨ax, hax, hv⟩ := bind_eq_ok.1 hv
    obtain ⟨r, hr, hv⟩ := bind_eq_ok.1 hv
    obtain ⟨g, hg, hv⟩ := bind_eq_ok.1 hv
    obtain ⟨gf, hgf, hv⟩ := bind_eq_ok.1 hv
    obtain ⟨xf, hxf, hv⟩ := bind_eq_ok.1 hv
    obtain ⟨hgsize, hgentry⟩ := Layout.flatten_eq_ok hgf
    obtain ⟨hxsize, hxentry⟩ := Layout.flatten_eq_ok hxf
    obtain ⟨hsize, rfl⟩ := Vec.addScaled_eq_ok.1 hv
    refine ⟨by rw [Vec.size_axpy, hxsize], fun p hp => ?_⟩
    obtain ⟨d, hd, hi⟩ := mem_cells.1 hp
    have hleft : r.coord = fun r i => blk.product K x.coord r i - u.coord r i := by
      funext k j
      rw [BlockVector.coord_addScaled hr, ← image_of_apply hax, h.image_eq hax]
      ring
    rw [Vec.entry_axpy _ hsize, place, hgentry p.1 d p.2 hd hi, hxentry p.1 d p.2 hd hi,
      h.coord_back hg (mem_ids_of_mem_places hp), hleft, neg_mul, recip_mul]
    exact (sub_eq_add_neg _ _).symm

/-- The penalty times what the proximal operator moves its point by, when it moves it to `y`, is what `y`
    leaves of the residual under the transpose, but for the error of the step. -/
theorem Carries.rate_eq (h : blk.Carries K) (hc : blk.Consistent K) {u x : BlockVector R} {v : Array R}
    (hv : blk.target u x = .ok v) (rho : R) (y : String → Nat → R) {p : Cell} (hp : p ∈ blk.places) :
    blk.coupling.penalty rho * (Vec.entry v (blk.place p) - y p.1 p.2)
      = rho * blk.backProduct K (fun r i => u.coord r i - blk.product K y r i) p.1 p.2
        + blk.stepError K rho (fun k i => y k i - x.coord k i) p.1 p.2 := by
  rw [(h.entry_target hv).2 p hp, backProduct_sub u.coord (blk.product K y), stepError]
  rw [Consistent] at hc
  cases hcoupling : blk.coupling with
  | scalar alpha =>
    rw [hcoupling] at hc
    rw [hc.backProduct_product y hp]
    show rho * alpha * (_ / alpha - y p.1 p.2) = rho * (_ - alpha * y p.1 p.2) + 0
    rcases eq_or_ne alpha 0 with rfl | hne
    · -- columns of length zero are zero, and so is the quotient
      rw [(hc.untouched h).backProduct_eq_zero u.coord hp]
      ring
    · field_simp
      ring
  | unconstrained =>
    rw [hcoupling] at hc
    rw [hc.backProduct_eq_zero u.coord hp, hc.backProduct_eq_zero (blk.product K y) hp]
    show 0 * (x.coord p.1 p.2 - y p.1 p.2) = rho * (0 - 0) + 0
    ring
  | linearized mu =>
    rw [hcoupling] at hc
    have hpos : 0 < mu := hc
    have hchange : blk.product K (fun k i => y k i - x.coord k i)
        = fun r i => blk.product K y r i - blk.product K x.coord r i := by
      funext r i
      exact product_sub ..
    show rho * mu * (x.coord p.1 p.2 - _ / mu - y p.1 p.2)
      = _ + rho * (_ - mu * (y p.1 p.2 - x.coord p.1 p.2))
    rw [hchange, backProduct_sub, backProduct_sub (blk.product K y)]
    field_simp
    ring

end TermBlock

/-! ## The move of a block in a sweep -/

variable [ExactScalar R]

/-- `productSum K blocks x`: the sum of the products of blocks. -/
def productSum (K : Coefs R) (blocks : List (TermBlock R)) (x : String → Nat → R) (r : String) (i : Nat) : R :=
  (blocks.map fun blk => blk.product K x r i).sum

/-- `lag blocks it`: by how much the images of blocks changed in the last sweep. -/
def lag (blocks : List (TermBlock R)) (it : Iterate R) (r : String) (i : Nat) : R :=
  imageSum blocks it.x r i - imageSum blocks it.previous r i

/-- `slope K rho blk rest it`: `ρ` times the running sum of `it`, with what the blocks `rest` changed last,
    under the transpose of the columns of `blk`, and the error of the step. -/
def slope (K : Coefs R) (rho : R) (blk : TermBlock R) (rest : List (TermBlock R)) (it : Iterate R)
    (c : String) (j : Nat) : R :=
  rho * blk.backProduct K (fun r i => it.u.coord r i + lag rest it r i) c j
    + blk.stepError K rho (fun k i => it.x.coord k i - it.previous.coord k i) c j

namespace System

variable {s : System R} {it it' : Iterate R} {K : Coefs R}

/-- After a sweep all blocks have images, of the new iterate and of the one before it. -/
theorem apply_of_sweep (hd : Divided s.blocks) (h : (s.sweep it).outcome = .ok it')
    {blk : TermBlock R} (hblk : blk ∈ s.blocks) :
    (∃ ax, blk.a.apply it'.x = .ok ax) ∧ ∃ ax, blk.a.apply it'.previous = .ok ax := by
  obtain ⟨through, rest, hs⟩ := List.append_of_mem hblk
  obtain ⟨_, _, _, -, -, -, ⟨hold, hnew⟩, -⟩ := exists_turn hd h hs
  rw [(swept_sweep hd h).previous]
  exact ⟨hnew, hold⟩

/-- The images are the products. -/
theorem imageSum_eq_productSum {blocks : List (TermBlock R)} {x : BlockVector R}
    (hK : ∀ blk ∈ blocks, blk.Carries K) (hx : ∀ blk ∈ blocks, ∃ ax, blk.a.apply x = .ok ax) :
    imageSum blocks x = productSum K blocks x.coord := by
  funext r i
  refine congrArg List.sum (List.map_congr_left fun blk hblk => ?_)
  obtain ⟨ax, hax⟩ := hx blk hblk
  rw [(hK blk hblk).image_eq hax]

/-- The move of a block in a sweep: its operator takes some point `v` to the new values, and the penalty
    times the difference is the slope of the block when the blocks behind it are through. -/
theorem exists_move (hd : Divided s.blocks) (h : (s.sweep it).outcome = .ok it')
    {through rest : List (TermBlock R)} {blk : TermBlock R} (hs : s.blocks = through ++ blk :: rest)
    (hK : blk.Carries K) (hc : blk.Consistent K) :
    ∃ v z : Array R, (blk.operator.apply v).outcome = .ok z ∧ v.size = blk.layout.n ∧
      z.size = blk.layout.n ∧ (∀ p ∈ blk.places, Vec.entry z (blk.place p) = it'.x.coord p.1 p.2) ∧
      ∀ rho, ∀ p ∈ blk.places,
        blk.coupling.penalty rho * (Vec.entry v (blk.place p) - Vec.entry z (blk.place p))
          = slope K rho blk rest it' p.1 p.2 := by
  obtain ⟨mid, w, y, -, hstep, hown, ⟨-, ax', hax'⟩, hw⟩ := exists_turn hd h hs
  obtain ⟨v, z, hv, hz, hsize, hsplit⟩ := TermBlock.step_eq_ok hstep
  have hprevious := (swept_sweep hd h).previous
  have hnew (p : Cell) (hp : p ∈ blk.places) : Vec.entry z (blk.place p) = it'.x.coord p.1 p.2 := by
    obtain ⟨d, hd, hi⟩ := mem_cells.1 hp
    rw [TermBlock.place, ← Layout.coord_split hsplit hd hi, BlockVector.coord, BlockVector.coord,
      (hown p.1 (TermBlock.mem_ids_of_mem_places hp)).2]
  refine ⟨v, z, hz, (hK.entry_target hv).1, hsize, hnew, fun rho p hp => ?_⟩
  have hleft : (fun r i => w.coord r i - blk.product K it'.x.coord r i)
      = fun r i => it'.u.coord r i + lag rest it' r i := by
    funext r i
    rw [coord_u_sweep hd h, hw, hs, imageSum_append, imageSum_cons, lag, hprevious, hK.image_eq hax']
    ring
  -- the step reads its own variables as they were before the sweep
  have hstale (q : Cell) (hq : q ∈ blk.places) : it'.x.coord q.1 q.2 - mid.x.coord q.1 q.2
      = it'.x.coord q.1 q.2 - it'.previous.coord q.1 q.2 := by
    rw [hprevious, BlockVector.coord, BlockVector.coord, BlockVector.coord,
      (hown q.1 (TermBlock.mem_ids_of_mem_places hq)).1]
  have herror := TermBlock.stepError_congr (K := K)
    (d := fun k i => it'.x.coord k i - mid.x.coord k i)
    (e := fun k i => it'.x.coord k i - it'.previous.coord k i) hstale rho hp
  rw [hnew p hp, hK.rate_eq hc hv rho it'.x.coord hp, hleft, herror, slope]

/-- A block of one scalar variable with the coefficient one carries it. -/
theorem carries_plain {k : String} {K : Coefs ℚ}
    (hK : ∀ r i j, K r k i j = if r = "r" ∧ i = 0 ∧ j = 0 then 1 else 0) : (plain k).Carries K := by
  let one (i j : Nat) : ℚ := if i = j then 1 else 0
  have hl : (LinearMap.ofScalar 1 (1 : ℚ)).Denotes ⟨0, fun _ _ _ => 0⟩ one := fun _ _ _ _ => rfl
  have hinsert : BlockMatrix.empty.insertOrAdd "r" k (.ofScalar 1 1) = .ok (plain k).a := rfl
  have hrep := (BlockMatrix.represents_empty _).insertOrAdd hl hinsert
  have hon : K.on (plain k).layout.ids = 0 + Coefs.single "r" k 1 1 one := by
    funext r c i j
    show K.on [k] r c i j = 0 + Coefs.single "r" k 1 1 one r c i j
    rw [zero_add, Coefs.on, Coefs.single]
    by_cases hc : c = k
    · subst hc
      rw [if_pos (List.mem_singleton.2 rfl), hK]
      by_cases hij : i = 0 ∧ j = 0
      · obtain ⟨rfl, rfl⟩ := hij
        simp [one]
      · rw [if_neg fun h => hij h.2, if_neg fun h => hij ⟨by omega, by omega⟩]
    · rw [if_neg fun h => hc (List.mem_singleton.1 h), if_neg fun h => hc h.1.2]
      rfl
  exact ⟨⟨_, hon ▸ hrep⟩, rfl, Keyed.Extends.refl _⟩

end System

end BlockAdmm
