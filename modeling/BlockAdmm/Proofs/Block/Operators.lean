/-
  Block matrices as operators.

  A block matrix is applied to block vectors, of which a missing block counts as zero.  Over exact scalars
  the operations on matrices are then those on operators.  The transpose is the adjoint
  (`Stands.adjoint`), the Gram matrix does what the matrix and its transpose do one after the other
  (`Stands.gram_agrees`), and a map that is inserted adds its product with its part of the vector
  (`Stands.insertOrAdd_agrees`).  Not only the entries are the same: a product has blocks under those names
  whose rows have a block that meets one of the vector (`isSome_apply`), so the block vectors are equal.

  This is true of every matrix that is made from maps at hand (`operators_agree`).  The blocks are
  applied, transposed and multiplied, so all of it needs room.  If the blocks can be used both ways, and for
  the Gram matrix there is room for the products of two of them too (`Squarable`), there is enough.  Without
  room a matrix may not be applied even to a vector without entries (`operators_hollow`).
-/
import BlockAdmm.Proofs.Block.Linear
import BlockAdmm.Proofs.Block.Power
import BlockAdmm.Proofs.Block.Workbench
import BlockAdmm.Proofs.LinearMap.BothWays

namespace BlockAdmm

open Scalar ExactScalar

/-- `Agree c x y`: unless `c`, either of two computations may end in a breach, and if both have a value, it
    is the same. -/
structure Agree {α : Type} (c : Prop) (x y : Outcome α) : Prop where
  left : Ends (Fault.Unless c) (fun _ => True) x
  right : Ends (Fault.Unless c) (fun _ => True) y
  eq : ∀ {u v}, x = .ok u → y = .ok v → u = v

/-- Where no breach can be, both have one value. -/
theorem Agree.exists_eq_ok {α : Type} {c : Prop} {x y : Outcome α} (h : Agree c x y) (hc : c) :
    ∃ u, x = .ok u ∧ y = .ok u := by
  obtain ⟨u, hu, -⟩ := h.left.exists_of_unless hc
  obtain ⟨v, hv, -⟩ := h.right.exists_of_unless hc
  exact ⟨u, hu, h.eq hu hv ▸ hv⟩

variable {R : Type} [ExactScalar R]

/-! ## Block vectors -/

namespace BlockVector

variable {x y : BlockVector R} {D : Keyed Nat}

/-- Block vectors of the same sizes are equal if they have the same names and the same entries. -/
theorem Within.ext (hx : x.Within D) (hy : y.Within D) (hnames : ∀ k, (x.get? k).isSome ↔ (y.get? k).isSome)
    (hcoord : x.coord = y.coord) : x = y := by
  have hget (k : String) : x.get? k = y.get? k := by
    cases hv : x.get? k with
    | none =>
      have hnone := (hnames k).not.1 (by rw [hv]; exact Bool.false_ne_true)
      exact (Option.not_isSome_iff_eq_none.1 hnone).symm
    | some v =>
      obtain ⟨w, hw⟩ := Option.isSome_iff_exists.1 ((hnames k).1 (by rw [hv]; rfl))
      have hsize : v.size = w.size := Option.some.inj <|
        (hx k _ (sizeAt?_eq_some_iff.2 ⟨v, hv, rfl⟩)).symm.trans (hy k _ (sizeAt?_eq_some_iff.2 ⟨w, hw, rfl⟩))
      have hentries (i : Nat) : Vec.entry v i = Vec.entry w i := by
        rw [← coord_of_get? hv, ← coord_of_get? hw, hcoord]
      rw [hw, Vec.ext_entry hsize fun i _ => hentries i]
  cases x
  cases y
  exact congrArg BlockVector.mk (Keyed.ext_get? hget)

/-- Outside of the sizes there are only zeros. -/
theorem Within.mem_cells (hx : x.Within D) {p : Cell} (hp : x.coord p.1 p.2 ≠ 0) : p ∈ cells D := by
  cases hv : x.get? p.1 with
  | none => exact absurd (coord_of_get?_none hv p.2) hp
  | some v =>
    refine BlockAdmm.mem_cells.2 ⟨v.size, hx _ _ (sizeAt?_eq_some_iff.2 ⟨v, hv, rfl⟩), ?_⟩
    by_contra hle
    exact hp ((coord_of_get? hv p.2).trans (Vec.entry_of_size_le (not_lt.1 hle)))

omit [ExactScalar R] in
/-- A block vector has its own sizes. -/
theorem within_sizes (x : BlockVector R) : x.Within (x.blocks.map Array.size) := fun k n hn => by
  rw [Keyed.get?_map]
  exact hn

end BlockVector

namespace BlockMatrix

section Inner

variable {x y : BlockVector R} {D : Keyed Nat}

/-- The inner product with a block vector that has the sizes `D`, where those of the other are met. -/
theorem innerSum_of_meets (hx : x.Meets D) (hy : y.Within D) :
    innerSum x y = .ok (∑ p ∈ cells D, x.coord p.1 p.2 * y.coord p.1 p.2) := by
  have hmeets : y.Meets (x.blocks.map Array.size) := fun k m n hm hn => by
    rw [Keyed.get?_map] at hn
    exact (hx k n m hn (hy k m hm)).symm
  have hends := x.within_sizes.innerSum (E := fun _ => False) hmeets
  cases hs : innerSum x y with
  | error f => exact (hends.of_eq_error hs).elim
  | ok s =>
    refine congrArg Except.ok ((innerSum_eq_ok x.within_sizes hs).trans (sum_cells_eq ?_ ?_))
    · exact fun p hp => x.within_sizes.mem_cells (left_ne_zero_of_mul hp)
    · exact fun p hp => hy.mem_cells (right_ne_zero_of_mul hp)

end Inner

/-! ## Names of products -/

variable {e : Lore R} {a b t g : BlockMatrix R} {K : Coefs R} {x y z : BlockVector R} {l : LinearMap R}
  {row col : String}

theorem isSome_applyBlock {blk : Block R} (h : applyBlock x y blk = .ok z) (r : String) :
    (z.get? r).isSome ↔ (y.get? r).isSome ∨ blk.row = r ∧ (x.get? blk.col).isSome := by
  rw [applyBlock] at h
  cases hv : x.get? blk.col with
  | none =>
    rw [hv] at h
    cases h
    exact (or_iff_left fun hp => Bool.false_ne_true hp.2).symm
  | some v =>
    rw [hv] at h
    have h : (if (v.size != blk.map.n) = true then _ else _) = _ := h
    split at h
    · exact absurd h fail_ne_ok
    obtain ⟨u, -, h⟩ := bind_eq_ok.1 h
    have hname (w : BlockVector R) : (w.get? r).isSome = (w.sizeAt? r).isSome := Option.isSome_map.symm
    rw [hname, hname, BlockVector.sizeAt?_increase h r]
    split
    · rename_i hr
      exact iff_of_true rfl (Or.inr ⟨hr, rfl⟩)
    · rename_i hr
      exact (or_iff_left fun hp => hr hp.1).symm

/-- A product has the names of the rows that have a block under a name of the vector. -/
theorem isSome_apply (h : a.apply x = .ok y) (r : String) :
    (y.get? r).isSome ↔ ∃ c l, a.get? r c = some l ∧ (x.get? c).isSome := by
  have hwalk (bs : List (Block R)) : ∀ {y z : BlockVector R}, bs.foldlM (applyBlock x) y = .ok z →
      ((z.get? r).isSome ↔ (y.get? r).isSome ∨ ∃ blk ∈ bs, blk.row = r ∧ (x.get? blk.col).isSome) := by
    induction bs with
    | nil =>
      intro y z h
      cases foldlM_nil_eq_ok.1 h
      exact (or_iff_left fun ⟨_, hmem, _⟩ => List.not_mem_nil hmem).symm
    | cons blk bs ih =>
      intro y z h
      obtain ⟨y', hy', h⟩ := foldlM_cons_eq_ok.1 h
      rw [ih h, isSome_applyBlock hy', or_assoc, List.exists_mem_cons_iff]
  rw [hwalk a.toList h]
  constructor
  · rintro (hempty | ⟨blk, hblk, rfl, hx⟩)
    · cases hempty
    · exact ⟨blk.col, blk.map, mem_toList.1 hblk, hx⟩
  · rintro ⟨c, l, hl, hx⟩
    exact Or.inr ⟨⟨r, c, l⟩, mem_toList.2 hl, rfl, hx⟩

/-! ## Room -/

omit [ExactScalar R] in
/-- `a.UsableBothWays`: every block can be used both ways. -/
def UsableBothWays (a : BlockMatrix R) : Prop := ∀ b ∈ a.toList, b.map.UsableBothWays

omit [ExactScalar R] in
/-- `a.Squarable`: so can every block, and there is room for a product of two blocks over their row. -/
structure Squarable (a : BlockMatrix R) : Prop where
  blocks : a.UsableBothWays
  pairs : ∀ {r c c' l l'}, a.get? r c = some l → a.get? r c' = some l' →
    LinearMap.productRoom l.m l l' ≤ capacity

/-- If the functions end in nothing but a breach, they end in none where the blocks can be used both ways. -/
theorem Stands.ready_unless {c : Prop} (h : a.Stands e K) (he : ∀ f, e.faults f → f.IsBreach)
    (ht : e.transposes) (hc : c → a.UsableBothWays) : a.Framed (LinearMap.Ready (Fault.Unless c)) := by
  refine ⟨fun {r c l} hl => ?_, h.rows, h.cols⟩
  have hsound := ((h.bears hl).sound ht).mono he
  exact hsound.ready_unless fun hholds => hc hholds ⟨r, c, l⟩ (mem_toList.2 hl)

/-! ## Values -/

section Values

variable [e.Complete] {u v : BlockVector R} {k : Nat → Nat → R}

/-- Products with the matrix and with its transpose have the same inner products. -/
theorem Stands.sum_transpose (h : a.Stands e K) (ht : a.transpose = .ok t) (hu : a.apply x = .ok u)
    (hv : t.apply y = .ok v) : ∑ q ∈ cells a.rowDims, u.coord q.1 q.2 * y.coord q.1 q.2
      = ∑ p ∈ cells a.colDims, x.coord p.1 p.2 * v.coord p.1 p.2 := by
  have hstands := h.transpose Lore.Complete.transposes (fun _ _ => allows_of_limits _) ht
  have hucoord : u.coord = sumCells a.colDims K x.coord := funext₂ (h.apply hu)
  have hvcoord : v.coord = sumCells a.rowDims K.transpose y.coord := by
    rw [← (transpose_eq_ok ht).2.1]
    exact funext₂ (hstands.apply hv)
  rw [hucoord, hvcoord]
  calc ∑ q ∈ cells a.rowDims, sumCells a.colDims K x.coord q.1 q.2 * y.coord q.1 q.2
      = ∑ q ∈ cells a.rowDims, y.coord q.1 q.2 * sumCells a.colDims K x.coord q.1 q.2 :=
        Finset.sum_congr rfl fun q _ => mul_comm ..
    _ = ∑ p ∈ cells a.colDims, sumCells a.rowDims K.transpose y.coord p.1 p.2 * x.coord p.1 p.2 :=
        (sum_sumCells_transpose_mul ..).symm
    _ = ∑ p ∈ cells a.colDims, x.coord p.1 p.2 * sumCells a.rowDims K.transpose y.coord p.1 p.2 :=
        Finset.sum_congr rfl fun p _ => mul_comm ..

/-- A product with the Gram matrix has the names that it has after the two products. -/
theorem isSome_apply_gram (hg : a.gram = .ok g) (ht : a.transpose = .ok t) (hu : g.apply x = .ok u)
    (hz : a.apply x = .ok z) (hv : t.apply z = .ok v) (c : String) :
    (u.get? c).isSome ↔ (v.get? c).isSome := by
  rw [isSome_apply hu, isSome_apply hv]
  constructor
  · rintro ⟨c', d, hd, hx⟩
    obtain ⟨r, l, l', hl, hl'⟩ := exists_of_get?_gram hg (by rw [hd]; rfl)
    obtain ⟨lt, -, hlt⟩ := exists_get?_transpose ht hl
    exact ⟨r, lt, hlt, (isSome_apply hz r).2 ⟨c', l', hl', hx⟩⟩
  · rintro ⟨r, l', hl', hz'⟩
    obtain ⟨l, hl, -⟩ := (get?_transpose ht).1 hl'
    obtain ⟨c', k, hk, hx⟩ := (isSome_apply hz r).1 hz'
    obtain ⟨d, hd⟩ := Option.isSome_iff_exists.1 (isSome_get?_gram hg hl hk)
    exact ⟨c', d, hd, hx⟩

/-- And it has the same entries. -/
theorem Stands.coord_apply_gram (h : a.Stands e K) (hg : a.gram = .ok g) (ht : a.transpose = .ok t)
    (hu : g.apply x = .ok u) (hz : a.apply x = .ok z) (hv : t.apply z = .ok v) : u.coord = v.coord := by
  funext c j
  have hsquare := h.gram hg
  have hstands := h.transpose Lore.Complete.transposes (fun _ _ => allows_of_limits _) ht
  have hzcoord : z.coord = sumCells a.colDims K x.coord := funext₂ (h.apply hz)
  rw [hsquare.apply hu, hstands.apply hv, (transpose_eq_ok ht).2.1, hzcoord]
  -- both are sums over the columns, of which the Gram matrix may lack some
  refine Eq.trans ?_ (sumCells_transpose ..).symm
  exact (sumCells_of_extends (h.extends_gram hg).2 (fun hK => (hsquare.mem_cells hK).2) x.coord c j).symm

/-- A map that is inserted brings the name of its row, if the vector has that of its column. -/
theorem isSome_apply_insertOrAdd (hb : a.insertOrAdd row col l = .ok b) (hu : b.apply x = .ok u)
    (hy : a.apply x = .ok y) (hv : applyBlock x y ⟨row, col, l⟩ = .ok v) (r : String) :
    (u.get? r).isSome ↔ (v.get? r).isSome := by
  obtain ⟨-, -, -, -, s, hget, -⟩ := insertOrAdd_eq_ok hb
  obtain ⟨hkept, hnew⟩ := hasBlocksOf_insertOrAdd hb
  rw [isSome_apply hu, isSome_applyBlock hv, isSome_apply hy]
  constructor
  · rintro ⟨c, l', hl', hx⟩
    rw [hget] at hl'
    split at hl'
    · rename_i hplace
      exact Or.inr ⟨hplace.1, hplace.2 ▸ hx⟩
    · exact Or.inl ⟨c, l', hl', hx⟩
  · rintro (⟨c, l', hl', hx⟩ | ⟨rfl, hx⟩)
    · obtain ⟨l₂, hl₂⟩ := Option.isSome_iff_exists.1 (hkept r c (by rw [hl']; rfl))
      exact ⟨c, l₂, hl₂, hx⟩
    · obtain ⟨l₂, hl₂⟩ := Option.isSome_iff_exists.1 hnew
      exact ⟨col, l₂, hl₂, hx⟩

/-- And it adds the entries of its product there. -/
theorem Stands.coord_apply_insertOrAdd (h : a.Stands e K) (hl : l.Bears e k)
    (hb : a.insertOrAdd row col l = .ok b) (hu : b.apply x = .ok u) (hy : a.apply x = .ok y)
    (hv : applyBlock x y ⟨row, col, l⟩ = .ok v) : u.coord = v.coord := by
  funext r i
  obtain ⟨-, hcol, -, hcols, -⟩ := insertOrAdd_eq_ok hb
  have hextends : b.colDims.Extends a.colDims := hcols ▸ extends_insert hcol
  have hsize : b.colDims.get? col = some l.n := by rw [hcols, Keyed.get?_insert, if_pos rfl]
  -- below its rows the map has zeros
  let below (i j : Nat) : R := if i < l.m then k i j else 0
  have hbelow : l.Bears e below := hl.congr fun i j hi _ => if_pos hi
  have hzero (i j : Nat) (hi : l.m ≤ i) : below i j = 0 := if_neg (not_lt.2 hi)
  have hadded : (if r = row ∧ i < l.m then rowSum l.n below (x.coord col) i else 0)
      = if row = r then rowSum l.n below (x.coord col) i else 0 := by
    by_cases hi : i < l.m
    · rw [if_congr ((and_iff_left hi).trans eq_comm) rfl rfl]
    · have hsum : rowSum l.n below (x.coord col) i = 0 :=
        Finset.sum_eq_zero fun j _ => by rw [hzero i j (not_lt.1 hi), zero_mul]
      rw [hsum, ite_self, ite_self]
  calc u.coord r i
      = sumCells b.colDims (K + Coefs.single row col l.m l.n below) x.coord r i :=
        (h.insertOrAdd hbelow hb).apply hu r i
    _ = sumCells a.colDims K x.coord r i + if row = r then rowSum l.n below (x.coord col) i else 0 := by
        rw [sumCells_add, sumCells_single hsize, hadded,
          sumCells_of_extends hextends fun hK => (h.mem_cells hK).2]
    _ = y.coord r i + if row = r then rowSum l.n below (x.coord col) i else 0 := by
        rw [h.apply hy r i, sumCells]
    _ = v.coord r i := (coord_applyBlock hbelow.realizes hzero hv r i).symm

end Values

/-! ## Operators -/

section Operators

variable [e.Complete] (h : a.Stands e K) (he : ∀ f, e.faults f → f.IsBreach)
include h he

/-- The transpose is the adjoint. -/
theorem Stands.adjoint (hx : x.Meets a.colDims) (hy : y.Meets a.rowDims) :
    Agree a.UsableBothWays (do innerSum (← a.apply x) y) (do innerSum x (← (← a.transpose).apply y)) := by
  have hready := h.ready_unless he Lore.Complete.transposes id
  have happly := hready.apply_ready hx
  refine ⟨happly.bind fun u hu => hu.innerSum hy, ?_, fun {s s'} hs hs' => ?_⟩
  · refine (hready.transpose LinearMap.Ready.transpose).bind fun t ht => ?_
    obtain ⟨ht, hrows, hcols⟩ := ht
    refine (ht.apply_ready (hcols ▸ hy)).bind fun v hv => ?_
    rw [innerSum_of_meets hx (hrows ▸ hv)]
    exact trivial
  · obtain ⟨u, hu, hs⟩ := bind_eq_ok.1 hs
    obtain ⟨t, ht, hs'⟩ := bind_eq_ok.1 hs'
    obtain ⟨v, hv, hs'⟩ := bind_eq_ok.1 hs'
    obtain ⟨htready, hrows, hcols⟩ := (hready.transpose LinearMap.Ready.transpose).of_eq_ok ht
    have hwithin : v.Within a.colDims := hrows ▸ (htready.apply_ready (hcols ▸ hy)).of_eq_ok hv
    rw [innerSum_of_meets hx hwithin] at hs'
    rw [innerSum_eq_ok (happly.of_eq_ok hu) hs, h.sum_transpose ht hu hv]
    exact Except.ok.inj hs'

/-- The Gram matrix does what the matrix and its transpose do. -/
theorem Stands.gram_agrees : Ends (Fault.Unless a.Squarable) (fun g => ∀ x, x.Meets a.colDims →
    Agree a.Squarable (g.apply x) (do (← a.transpose).apply (← a.apply x))) a.gram := by
  have hready := h.ready_unless he Lore.Complete.transposes fun hs : a.Squarable => hs.blocks
  have hgram := hready.gram_ready fun hl hl' => allows_unless fun hs => hs.pairs hl hl'
  refine (hgram.and_eq fun g hg => hg).imp fun g hg x hx => ?_
  obtain ⟨⟨hgroomy, hrows, hcols⟩, hg⟩ := hg
  have hproduct := hgroomy.apply (fun hl => hl.ready.apply) (Or.inl (hx.of_extends hcols))
  have hboth : Ends (Fault.Unless a.Squarable) (fun v => v.Within a.colDims)
      (do (← a.transpose).apply (← a.apply x)) := by
    refine (hready.transpose LinearMap.Ready.transpose).bind fun t ht => ?_
    obtain ⟨htready, htrows, htcols⟩ := ht
    refine (hready.apply_ready hx).bind fun z hz => ?_
    exact htrows ▸ htready.apply_ready (htcols ▸ hz.meets)
  refine ⟨hproduct.imp fun _ _ => trivial, hboth.imp fun _ _ => trivial, fun {u v} hu hv => ?_⟩
  have hwithin := hboth.of_eq_ok hv
  obtain ⟨t, ht, hv⟩ := bind_eq_ok.1 hv
  obtain ⟨z, hz, hv⟩ := bind_eq_ok.1 hv
  exact BlockVector.Within.ext ((hproduct.of_eq_ok hu).of_extends hrows) hwithin
    (isSome_apply_gram hg ht hu hz hv) (h.coord_apply_gram hg ht hu hz hv)

/-- A map that is inserted adds its product with its part of the vector. -/
theorem Stands.insertOrAdd_agrees {k : Nat → Nat → R} (hl : l.Bears e k) (hb : a.insertOrAdd row col l = .ok b)
    (hx : x.Meets b.colDims) : Agree (a.UsableBothWays ∧ l.UsableBothWays) (b.apply x)
      (do applyBlock x (← a.apply x) ⟨row, col, l⟩) := by
  have hready := h.ready_unless he Lore.Complete.transposes
    fun hu : a.UsableBothWays ∧ l.UsableBothWays => hu.1
  have hlready := ((hl.sound Lore.Complete.transposes).mono he).ready_unless
    fun hu : a.UsableBothWays ∧ l.UsableBothWays => hu.2
  have hbready := hready.of_insertOrAdd (LinearMap.adds_ready (F := fun _ => True) fun _ _ => trivial) hlready hb
  -- the sizes by name are those of before, and those of the map
  obtain ⟨hrow, hcol, hrows, hcols, -⟩ := insertOrAdd_eq_ok hb
  have hrowNew : b.rowDims.get? row = some l.m := by rw [hrows, Keyed.get?_insert, if_pos rfl]
  have hcolNew : b.colDims.get? col = some l.n := by rw [hcols, Keyed.get?_insert, if_pos rfl]
  have hproduct := hbready.apply_ready hx
  have hsteps : Ends (Fault.Unless (a.UsableBothWays ∧ l.UsableBothWays)) (fun v => v.Within b.rowDims)
      (do applyBlock x (← a.apply x) ⟨row, col, l⟩) := by
    refine (hready.apply_ready (hx.of_extends (hcols ▸ extends_insert hcol))).bind fun y hy => ?_
    exact ends_applyBlock hlready.apply hrowNew (Or.inl fun n hn => hx _ _ _ hn hcolNew)
      (hy.of_extends (hrows ▸ extends_insert hrow))
  refine ⟨hproduct.imp fun _ _ => trivial, hsteps.imp fun _ _ => trivial, fun {u v} hu hv => ?_⟩
  have hwithin := hsteps.of_eq_ok hv
  obtain ⟨y, hy, hv⟩ := bind_eq_ok.1 hv
  exact BlockVector.Within.ext (hproduct.of_eq_ok hu) hwithin (isSome_apply_insertOrAdd hb hu hy hv)
    (h.coord_apply_insertOrAdd hl hb hu hy hv)

end Operators

/-! ## Matrices at hand -/

/-- The operations on block matrices are those on operators.

    The vectors may have any blocks, as long as those that meet the matrix are of the sizes that it has, and
    a block that they lack is zero.  Products with the matrix and with its transpose have the same inner
    products; a product with the Gram matrix is one with the matrix and then with its transpose; and the
    product with a matrix into which a map at hand was inserted is the one from before, to which the product
    of the map with its part of the vector is added in its row.  Unless there is room, each of these may end in
    a breach, and in nothing else. -/
theorem operators_agree {given : List (Array R → Outcome (Array R))} {maps : List (LinearMap R)}
    {mats : List (BlockMatrix R)} {next : Nat} (h : Workbench given maps mats next) (ha : a ∈ mats) :
    (∀ x y, x.Meets a.colDims → y.Meets a.rowDims → Agree a.UsableBothWays
      (do innerSum (← a.apply x) y) (do innerSum x (← (← a.transpose).apply y))) ∧
    Ends (Fault.Unless a.Squarable) (fun g => ∀ x, x.Meets a.colDims → Agree a.Squarable
      (g.apply x) (do (← a.transpose).apply (← a.apply x))) a.gram ∧
    ∀ l ∈ maps, ∀ row col b, a.insertOrAdd row col l = .ok b → ∀ x, x.Meets b.colDims →
      Agree (a.UsableBothWays ∧ l.UsableBothWays) (b.apply x)
        (do applyBlock x (← a.apply x) ⟨row, col, l⟩) := by
  obtain ⟨w, -, -, hmaps, hmats⟩ := h.exists_marks
  have hbreach (f : Fault) (hf : (LinearMap.Lore.atHand False w given).faults f) : f.IsBreach := hf.1
  obtain ⟨K, hK⟩ := hmats a ha
  refine ⟨fun x y hx hy => hK.adjoint hbreach hx hy, hK.gram_agrees hbreach, fun l hl row col b hb x hx => ?_⟩
  obtain ⟨k, hk⟩ := hmaps l hl
  exact hK.insertOrAdd_agrees hbreach hk hb hx

/-- `tiles`: two blocks of one row, the first of which is a mirror, and one below the mirror. -/
def tiles : BlockMatrix ℚ := (do
  let a ← empty.insertOrAdd "r" "x" (.opaqueMap OpaqueMap.twoWay)
  let a ← a.insertOrAdd "r" "y" (.diagonal #[2, 3] (some 1))
  a.insertOrAdd "s" "x" (.dense (Dense.build 1 2 fun _ _ => 1) (some 2)) :
    Outcome (BlockMatrix ℚ)).toOption.getD empty

theorem toList_tiles : tiles.toList = [⟨"r", "x", .opaqueMap OpaqueMap.twoWay⟩,
    ⟨"r", "y", .diagonal #[2, 3] (some 1)⟩, ⟨"s", "x", .dense (Dense.build 1 2 fun _ _ => 1) (some 2)⟩] := rfl

theorem tiles_squarable : tiles.Squarable := by
  have hblocks : ∀ b ∈ tiles.toList, b.map.UsableBothWays ∧ b.map.extent ≤ 9 := by
    rw [toList_tiles]
    refine List.forall_mem_cons.2 ⟨⟨⟨⟨by decide, fun f hf => ?_⟩, fun f hf => ?_⟩, by decide⟩, ?_⟩
    · rw [List.mem_singleton.1 hf]
      exact (OpaqueMap.mirror_isLinear (R := ℚ) 2).returns_apply (f := OpaqueMap.mirror 2)
    · rw [List.mem_singleton.1 hf]
      rintro t ⟨⟩ y hy
      exact ⟨_, rfl⟩
    · refine List.forall_mem_cons.2 ⟨⟨LinearMap.Plain.usableBothWays trivial (by decide), by decide⟩, ?_⟩
      exact List.forall_mem_singleton.2 ⟨LinearMap.Plain.usableBothWays trivial (by decide), by decide⟩
  refine ⟨fun b hb => (hblocks b hb).1, fun {r c c' l l'} hl hl' => ?_⟩
  have hleft := (hblocks ⟨r, c, l⟩ (mem_toList.2 hl)).2
  have hright := (hblocks ⟨r, c', l'⟩ (mem_toList.2 hl')).2
  exact Nat.le_trans (LinearMap.productRoom_le_three ..)
    (Nat.le_trans (Nat.mul_le_mul_left 3 (Nat.mul_le_mul hleft hright)) (by decide))

/-- A vector for the columns of the tiles. -/
def colPoint : BlockVector ℚ := .ofList [("x", #[1, 2]), ("y", #[1, 1])]

/-- A vector for the first of their rows. -/
def rowPoint : BlockVector ℚ := .ofList [("r", #[5, 7])]

/-- The tiles with their transpose, with their Gram matrix, and with another map added to the mirror. -/
theorem operators_agree_tiles : ∃ maps mats next, Workbench [mirrored] maps mats next ∧ tiles ∈ mats ∧
    tiles.Squarable ∧ (do innerSum (← tiles.apply colPoint) rowPoint) = .ok 48 ∧
    (do innerSum colPoint (← (← tiles.transpose).apply rowPoint)) = .ok 48 ∧
    (∃ g u, tiles.gram = .ok g ∧ g.apply colPoint = .ok u ∧
      (do (← tiles.transpose).apply (← tiles.apply colPoint)) = .ok u) ∧
    ∃ b v, tiles.insertOrAdd "r" "x" (.diagonal #[2, 3] (some 1)) = .ok b ∧ b.apply colPoint = .ok v ∧
      (do applyBlock colPoint (← tiles.apply colPoint) ⟨"r", "x", .diagonal #[2, 3] (some 1)⟩) = .ok v := by
  -- the maps, and the tiles laid one after the other
  have hmirror : Workbench [mirrored] [.opaqueMap OpaqueMap.twoWay] [] 1 :=
    Workbench.start.keepMap (.opaqueMap OpaqueMap.twoWay_primitive)
  have hdiagonal : Workbench [mirrored] [.diagonal #[2, 3] (some 1), .opaqueMap OpaqueMap.twoWay] [] 2 :=
    hmirror.keepMap (.diagonal #[2, 3])
  have hmaps : Workbench [mirrored] [.dense (Dense.build 1 2 fun _ _ => 1) (some 2),
      .diagonal #[2, 3] (some 1), .opaqueMap OpaqueMap.twoWay] [] 3 := hdiagonal.keepMap (.dense _)
  obtain ⟨a, ha⟩ := exists_eq_ok (x := (do
    let a ← empty.insertOrAdd "r" "x" (.opaqueMap OpaqueMap.twoWay)
    let a ← a.insertOrAdd "r" "y" (.diagonal #[2, 3] (some 1))
    a.insertOrAdd "s" "x" (.dense (Dense.build 1 2 fun _ _ => 1) (some 2)) : Outcome (BlockMatrix ℚ))) (by rfl)
  have htiles : a = tiles := by
    rw [tiles, ha]
    rfl
  rw [htiles] at ha
  obtain ⟨a₁, h₁, ha⟩ := bind_eq_ok.1 ha
  obtain ⟨a₂, h₂, h₃⟩ := bind_eq_ok.1 ha
  have hbench := (((hmaps.keepMatrix .empty).keepMatrix (.insertOrAdd List.mem_cons_self (by simp) h₁)).keepMatrix
    (.insertOrAdd List.mem_cons_self (by simp) h₂)).keepMatrix (.insertOrAdd List.mem_cons_self (by simp) h₃)
  obtain ⟨hadjoint, hgram, hinsert⟩ := operators_agree hbench List.mem_cons_self
  obtain ⟨s, hs, hs'⟩ := (hadjoint colPoint rowPoint (by decide) (by decide)).exists_eq_ok tiles_squarable.blocks
  obtain ⟨z, hz, hvalue⟩ := exists_eq_ok_and (x := do innerSum (← tiles.apply colPoint) rowPoint)
    (p := fun z => z == 48) (by decide +kernel)
  obtain rfl : s = 48 := (Except.ok.inj (hs.symm.trans hz)).trans (eq_of_beq hvalue)
  obtain ⟨g, hg, hsquare⟩ := hgram.exists_of_unless tiles_squarable
  obtain ⟨u, hu⟩ := (hsquare colPoint (by decide)).exists_eq_ok tiles_squarable
  obtain ⟨b, hb⟩ := exists_eq_ok (x := tiles.insertOrAdd "r" "x" (.diagonal #[2, 3] (some 1))) (by decide +kernel)
  obtain ⟨-, -, hrows, hcols, -⟩ := insertOrAdd_eq_ok hb
  obtain ⟨v, hv⟩ := (hinsert _ (by simp) "r" "x" b hb colPoint (by rw [hcols]; decide)).exists_eq_ok
    ⟨tiles_squarable.blocks, LinearMap.Plain.usableBothWays trivial (by decide)⟩
  exact ⟨_, _, _, hbench, List.mem_cons_self, tiles_squarable, hs, hs', ⟨g, u, hg, hu⟩, b, v, hb, hv⟩

/-- A hollow product is the only block of a matrix, and there is no room to apply it to a vector that fits. -/
theorem operators_hollow : ∃ (maps : List (LinearMap ℚ)) (mats : List (BlockMatrix ℚ)) (next : Nat),
    Workbench [] maps mats next ∧ ∃ a ∈ mats, ∃ x, x.Meets a.colDims ∧ a.apply x = .error .breach := by
  have hfirst : Workbench [] [(.dense (Dense.build 0 1 fun _ _ => 0) (some 0) : LinearMap ℚ)] [] 1 :=
    Workbench.start.keepMap (.dense _)
  have hsecond : Workbench [] [(.dense (Dense.build 1152921504606846976 0 fun _ _ => 0) (some 1) : LinearMap ℚ),
      .dense (Dense.build 0 1 fun _ _ => 0) (some 0)] [] 2 := hfirst.keepMap (.dense _)
  have hproduct : Workbench [] ((LinearMap.hollow.share 0).1 :: _) [] 2 := hsecond.keepMap
    (.tensor (List.mem_cons_of_mem _ List.mem_cons_self) List.mem_cons_self rfl)
  have hset : (empty : BlockMatrix ℚ).insertOrAdd "r" "c" (LinearMap.hollow.share 0).1 = .ok _ := rfl
  have hblock := (hproduct.keepMatrix .empty).keepMatrix (.insertOrAdd List.mem_cons_self List.mem_cons_self hset)
  refine ⟨_, _, _, hblock, _, List.mem_cons_self, .ofList [("c", #[])], by decide, ?_⟩
  exact eq_breach_of_breached (by decide +kernel)

end BlockMatrix

end BlockAdmm
