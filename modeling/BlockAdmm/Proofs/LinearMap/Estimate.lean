/-
  The estimate of the norm of a map is that of a matrix of one block.

  A map goes through the same steps as the matrix that has it as its only block (`powerSteps_block`), so
  nothing has to be said about its iteration that was not said about that of matrices.  What a matrix does
  not have are the ways round the iteration: a map without rows or columns has the norm zero, and a multiple
  of the identity shows its norm (`Bears.estimates`).

  So the estimates of maps and of matrices rise with the number of steps and stay below the norm.  This is
  true of every map whose functions multiply by a matrix and, where they are known for transposes, by its
  transpose, and of every matrix that is made from such maps (`normEstimate_from_below`).  A size that is
  too large is the one thing that can stand in the way (`normEstimate_crowded`).
-/
import BlockAdmm.Proofs.Block.Estimate
import BlockAdmm.Proofs.Block.Workbench
import BlockAdmm.Proofs.LinearMap.Detection

namespace BlockAdmm

open ExactScalar

/-! ## One block -/

section OneBlock

variable {R : Type} [ExactScalar R] {e : Lore R} {l t : LinearMap R} {k : Nat → Nat → R}

omit [ExactScalar R] in
/-- `single v`: the block vector with the one block `v`. -/
def BlockVector.single (v : Array R) : BlockVector R := empty.insert "" v

omit [ExactScalar R] in
/-- `l.block`: the matrix with the one block `l`. -/
def LinearMap.block (l : LinearMap R) : BlockMatrix R where
  blocks := BlockMatrix.place Keyed.empty ⟨"", "", l⟩
  rowDims := Keyed.empty.insert "" l.m
  colDims := Keyed.empty.insert "" l.n

omit [ExactScalar R] in
theorem get?_block (l : LinearMap R) (r c : String) :
    l.block.get? r c = if "" = r ∧ "" = c then some l else none :=
  BlockMatrix.lookup_place Keyed.empty ⟨"", "", l⟩ r c

theorem LinearMap.Bears.block (h : l.Bears e k) : l.block.Stands e (Coefs.single "" "" l.m l.n k) := by
  have hget {r c : String} {l' : LinearMap R} (hl' : l.block.get? r c = some l') : r = "" ∧ c = "" ∧ l' = l := by
    rw [get?_block] at hl'
    split at hl'
    · rename_i hplace
      exact ⟨hplace.1.symm, hplace.2.symm, (Option.some.inj hl').symm⟩
    · cases hl'
  refine ⟨fun hl' => ?_, fun {r c i j} hK => ?_, fun hl' => ?_, fun hl' => ?_⟩
  · obtain ⟨rfl, rfl, rfl⟩ := hget hl'
    exact h.congr fun i j hi hj => if_pos ⟨⟨rfl, rfl⟩, hi, hj⟩
  · have hplace : (r = "" ∧ c = "") ∧ i < l.m ∧ j < l.n := by
      by_contra hout
      exact hK (if_neg hout)
    obtain ⟨⟨rfl, rfl⟩, hi, hj⟩ := hplace
    exact ⟨l, (get?_block l "" "").trans (if_pos ⟨rfl, rfl⟩), hi, hj⟩
  · obtain ⟨rfl, rfl, rfl⟩ := hget hl'
    exact (Keyed.get?_insert ..).trans (if_pos rfl)
  · obtain ⟨rfl, rfl, rfl⟩ := hget hl'
    exact (Keyed.get?_insert ..).trans (if_pos rfl)

theorem norm_single (v : Array R) : (BlockVector.single v).norm = Vec.norm v := by
  show Scalar.sqrt (Scalar.total [Vec.inner v v]) = Scalar.sqrt (Vec.inner v v)
  rw [total_eq_sum, List.sum_singleton]

theorem innerSum_single (u v : Array R) :
    BlockMatrix.innerSum (BlockVector.single u) (BlockVector.single v) = Vec.dot u v := by
  have hget : (BlockVector.single v).get? "" = some v := (Keyed.get?_insert ..).trans (if_pos rfl)
  rw [BlockMatrix.innerSum]
  show List.foldlM _ (0 : R) [("", u)] = _
  rw [List.foldlM_cons, hget]
  dsimp only
  cases Vec.dot u v with
  | error f => rfl
  | ok s => exact congrArg Except.ok (zero_add s)

theorem scale_one (v : Array R) : Vec.scale 1 v = v := by
  rw [Vec.scale, funext (one_mul : ∀ s : R, 1 * s = s), Array.map_id']

theorem apply_block {v : Array R} (hv : v.size = l.n) :
    l.block.apply (.single v) = do return .single (← l.apply v) := by
  have hget : (BlockVector.single v).get? "" = some v := (Keyed.get?_insert ..).trans (if_pos rfl)
  show BlockMatrix.applyBlock (.single v) .empty ⟨"", "", l⟩ >>= pure = _
  rw [bind_pure, BlockMatrix.applyBlock, hget]
  dsimp only
  rw [if_neg (by rw [bne_iff_ne, not_not]; exact hv)]
  cases l.apply v with
  | error f => rfl
  | ok y => exact congrArg (fun u => Except.ok (BlockVector.single u)) (scale_one y)

theorem transpose_block (h : ∀ t, l.transpose = .ok t → t.m = l.n ∧ t.n = l.m) :
    l.block.transpose = do return (← l.transpose).block := by
  show (do
      let blocks ← (do return BlockMatrix.place Keyed.empty ⟨"", "", ← l.transpose⟩) >>= pure
      return ⟨blocks, Keyed.empty.insert "" l.n, Keyed.empty.insert "" l.m⟩ : Outcome (BlockMatrix R))
    = _
  cases ht : l.transpose with
  | error f => rfl
  | ok t =>
    obtain ⟨hm, hn⟩ := h t ht
    rw [← hm, ← hn]
    rfl

/-- The iteration of a map goes through the steps of that of its block. -/
theorem powerSteps_block (hl : ∀ x y, x.size = l.n → l.apply x = .ok y → y.size = t.n)
    (ht : ∀ x y, x.size = t.n → t.apply x = .ok y → y.size = l.n) (k : Nat) {x : Array R}
    (hx : x.size = l.n) (sigma2 : R) :
    l.block.powerSteps t.block k (.single x) sigma2 = LinearMap.powerSteps l.apply t.apply k x sigma2 := by
  induction k generalizing x sigma2 with
  | zero => rfl
  | succ k ih =>
    rw [BlockMatrix.powerSteps, LinearMap.powerSteps, norm_single]
    split
    · rfl
    have hunit : Vec.scale (1 / Vec.norm x) x = x.map fun v => v / Vec.norm x := by
      rw [Vec.scale]
      exact congrArg (Array.map · x) (funext fun v => by rw [one_div_mul_eq_div])
    let unit := x.map fun v => v / Vec.norm x
    have hsize : unit.size = l.n := Array.size_map.trans hx
    show (do
        let y ← t.block.apply (← l.block.apply (.single (Vec.scale (1 / Vec.norm x) x)))
        l.block.powerSteps t.block k y
          (← BlockMatrix.innerSum (.single (Vec.scale (1 / Vec.norm x) x)) y))
      = (do
        let y ← t.apply (← l.apply unit)
        LinearMap.powerSteps l.apply t.apply k y (← Vec.dot unit y))
    rw [hunit, apply_block hsize]
    cases hax : l.apply unit with
    | error f => rfl
    | ok ax =>
      have haxSize := hl unit ax hsize hax
      show (do
          let y ← t.block.apply (.single ax)
          l.block.powerSteps t.block k y (← BlockMatrix.innerSum (.single unit) y))
        = (do
          let y ← t.apply ax
          LinearMap.powerSteps l.apply t.apply k y (← Vec.dot unit y))
      rw [apply_block haxSize]
      cases hy : t.apply ax with
      | error f => rfl
      | ok y =>
        show BlockMatrix.innerSum (.single unit) (.single y) >>= l.block.powerSteps t.block k (.single y)
          = Vec.dot unit y >>= LinearMap.powerSteps l.apply t.apply k y
        rw [innerSum_single, funext (ih (ht ax y haxSize hy))]

theorem startVector_block (l : LinearMap R) :
    l.block.startVector = .single (Vec.build l.n startEntry) := by
  show BlockVector.single (Vec.build l.n fun j => startEntry (0 + j)) = _
  simp only [Nat.zero_add]

/-- Where it comes to the iteration, the estimate for a map is that for its block. -/
theorem normEstimate_block (h : l.Bears e k) (he : e.transposes) (hn : l.n ≠ 0) (hm : l.m ≠ 0)
    (hscalar : l.scalar? = .ok none) (iterations : Nat) :
    l.normEstimate iterations = l.block.normEstimate iterations := by
  have hstands (t : LinearMap R) (ht : l.transpose = .ok t) : t.Stands e.loose l.n l.m fun r c => k c r :=
    ((h.mono e.within_loose).stands.transpose (Or.inl trivial)).of_eq_ok ht he
  rw [LinearMap.normEstimate, if_neg (by simp [hn, hm]), hscalar, BlockMatrix.normEstimate,
    transpose_block fun t ht => ⟨(hstands t ht).rows, (hstands t ht).cols⟩, startVector_block]
  show (do
      let back ← l.transpose
      room l.n
      let sigma2 ← LinearMap.powerSteps l.apply back.apply iterations (Vec.build l.n startEntry) 0
      return Scalar.sqrt (Scalar.larger sigma2 0))
    = (do
      let back ← (do return (← l.transpose).block)
      (room l.n >>= pure)
      let sigma2 ← l.block.powerSteps back iterations (.single (Vec.build l.n startEntry)) 0
      return Scalar.sqrt (Scalar.larger sigma2 0))
  rw [bind_pure]
  cases ht : l.transpose with
  | error f => rfl
  | ok t =>
    have hpower := powerSteps_block (l := l) (t := t)
      (fun x y hx hy => (h.realizes x y hx hy).1.trans (hstands t ht).cols.symm)
      (fun x y hx hy => ((hstands t ht).bears.realizes x y hx hy).1.trans (hstands t ht).rows)
      iterations (Vec.size_build l.n startEntry) 0
    exact congrArg (fun steps : Outcome R => room l.n >>= fun _ => steps >>= fun sigma2 =>
      .ok (Scalar.sqrt (Scalar.larger sigma2 0))) hpower.symm

end OneBlock

/-! ## Bounds -/

section Bounds

variable {S : Type} [ExactRoots S] {l : LinearMap S} {m n : Nat} {k : Nat → Nat → S} {b : S}

/-- `Bounds m n k b`: no product of the matrix `k` of `m` rows and `n` columns is longer than `b` times the
    vector, where this says something about `b`: it is not negative, or there are columns. -/
structure Bounds (m n : Nat) (k : Nat → Nat → S) (b : S) : Prop where
  sign : 0 < n ∨ 0 ≤ b
  le : ∀ x, x.size = n → Vec.norm (Vec.build m (rowSum n k (Vec.entry x))) ≤ Vec.norm x * b

/-- Over one name a length is the norm of a vector. -/
theorem lengthOver_single (n : Nat) (x : String → Nat → S) :
    lengthOver (Keyed.empty.insert "" n) x = Vec.norm (Vec.build n (x "")) := by
  have hkeys : (Keyed.empty.insert "" n : Keyed Nat).keys.toFinset = {""} := rfl
  have hget : (Keyed.empty.insert "" n : Keyed Nat).get? "" = some n :=
    (Keyed.get?_insert ..).trans (if_pos rfl)
  rw [lengthOver, Vec.norm, Vec.inner_eq_sum, Vec.size_build, sqOver, sum_cells, hkeys,
    Finset.sum_singleton, hget]
  refine congrArg Scalar.sqrt (Finset.sum_congr rfl fun i hi => ?_)
  rw [Vec.entry_build _ (Finset.mem_range.1 hi), sq]

/-- What bounds the products of a map bounds those of its block. -/
theorem Bounds.block (h : Bounds l.m l.n k b) :
    BoundsOver l.block.rowDims l.block.colDims (Coefs.single "" "" l.m l.n k) b := by
  have hget : l.block.colDims.get? "" = some l.n := (Keyed.get?_insert ..).trans (if_pos rfl)
  refine ⟨h.sign.imp_left fun hn => ⟨⟨"", 0⟩, mem_cells.2 ⟨l.n, hget, hn⟩⟩, fun x => ?_⟩
  have himage : Vec.build l.m (sumCells l.block.colDims (Coefs.single "" "" l.m l.n k) x "")
      = Vec.build l.m (rowSum l.n k (Vec.entry (Vec.build l.n (x "")))) := by
    refine Vec.ext_entry (by rw [Vec.size_build, Vec.size_build]) fun i hi => ?_
    rw [Vec.size_build] at hi
    rw [Vec.entry_build _ hi, Vec.entry_build _ hi, sumCells_single hget, if_pos ⟨rfl, hi⟩]
    exact rowSum_congr (fun _ _ => rfl) fun c hc => (Vec.entry_build _ hc).symm
  show lengthOver (Keyed.empty.insert "" l.m) _ ≤ lengthOver (Keyed.empty.insert "" l.n) x * b
  rw [lengthOver_single, lengthOver_single, himage]
  exact h.le _ (Vec.size_build ..)

theorem Bounds.nonneg (h : Bounds l.m l.n k b) : 0 ≤ b := h.block.nonneg

/-- A bound for a multiple of the identity. -/
theorem Bounds.abs_le {alpha : S} (h : Bounds n n k b) (hn : 0 < n)
    (hk : ∀ r c, r < n → c < n → k r c = if r = c then alpha else 0) : |alpha| ≤ b := by
  let x : Array S := Vec.build n fun _ => 1
  have hsize : x.size = n := Vec.size_build ..
  have himage : Vec.build n (rowSum n k (Vec.entry x)) = Vec.scale alpha x := by
    refine Vec.ext_entry (by rw [Vec.size_build, Vec.size_scale, hsize]) fun i hi => ?_
    rw [Vec.size_build] at hi
    rw [Vec.entry_build _ hi, Vec.entry_scale, rowSum_diagonal _ hi fun c hc => hk i c hi hc]
  have hpos : 0 < Vec.norm x :=
    Vec.norm_pos ⟨0, hsize.symm ▸ hn, by rw [Vec.entry_build _ hn]; exact one_ne_zero⟩
  have hle := h.le x hsize
  rw [himage, Vec.norm_scale, mul_comm (Vec.norm x)] at hle
  exact le_of_mul_le_mul_right hle hpos

end Bounds

/-! ## Estimates -/

section Estimates

variable {S : Type} [ExactRoots S] {c d : Prop} {l : LinearMap S} {k : Nat → Nat → S}
  {estimate : Nat → Outcome S} {P Q : S → Prop}

theorem Estimates.imp (h : Estimates c estimate P) (hc : d → c) (hQ : ∀ b, Q b → P b) :
    Estimates d estimate Q :=
  ⟨fun k => (h.ends k).mono (Fault.unless_mono hc) fun _ hnorm =>
    ⟨hnorm.1, fun b hb => hnorm.2 b (hQ b hb)⟩, h.mono⟩

/-- An estimate that does not depend on the number of steps. -/
theorem estimates_of_eq_ok {s : S} (h : ∀ k, estimate k = .ok s) (hnonneg : 0 ≤ s)
    (hle : ∀ b, P b → s ≤ b) : Estimates c estimate P := by
  refine ⟨fun k => ?_, fun {k l x y} _ hx hy => ?_⟩
  · rw [h k]
    exact ends_ok ⟨hnonneg, hle⟩
  · cases (h k).symm.trans hx
    cases (h l).symm.trans hy
    exact le_rfl

theorem estimates_of_eq_breach (h : ∀ k, estimate k = .error .breach) (hc : ¬ c) :
    Estimates c estimate P := by
  refine ⟨fun k => ?_, fun {k l x y} _ hx _ => ?_⟩
  · rw [h k]
    exact ⟨rfl, hc⟩
  · cases (h k).symm.trans hx

/-- The estimate of the norm of a map. -/
theorem LinearMap.Bears.estimates (h : l.Bears (Lore.both l.UsableBothWays) k) :
    Estimates l.UsableBothWays l.normEstimate (Bounds l.m l.n k) := by
  by_cases hempty : l.n = 0 ∨ l.m = 0
  · refine estimates_of_eq_ok (s := 0) (fun iterations => ?_) le_rfl fun b hb => hb.nonneg
    rw [LinearMap.normEstimate, if_pos (by simpa using hempty)]
    rfl
  obtain ⟨hn, hm⟩ := not_or.1 hempty
  have hsize : ¬ (l.n == 0 || l.m == 0) = true := by simpa using hempty
  cases hscalar : l.scalar? with
  | error f =>
    have hbreach : f = .breach := (LinearMap.ends_scalar? (E := Fault.IsBreach) l).of_eq_error hscalar
    refine estimates_of_eq_breach (fun iterations => ?_) fun hu => ?_
    · rw [LinearMap.normEstimate, if_neg hsize, hscalar, hbreach]
      rfl
    · obtain ⟨o, ho⟩ := LinearMap.exists_scalar? l hu.usable.1
      cases hscalar.symm.trans ho
  | ok o =>
    cases o with
    | some alpha =>
      obtain ⟨hsquare, hk⟩ := h.scalar? hscalar
      refine estimates_of_eq_ok (s := |alpha|) (fun iterations => ?_) (abs_nonneg alpha) fun b hb => ?_
      · rw [LinearMap.normEstimate, if_neg hsize, hscalar]
        exact congrArg Except.ok (ExactScalar.abs_eq alpha)
      · rw [hsquare] at hb
        exact hb.abs_le (Nat.pos_of_ne_zero hn) hk
    | none =>
      -- what can be used as a map can be used as a block
      have hblock : l.block.Usable ↔ l.UsableBothWays := by
        refine ⟨fun hu => hu.blocks ⟨"", "", l⟩ List.mem_cons_self, fun hu => ⟨fun b hb => ?_, fun n' hn' => ?_⟩⟩
        · rw [List.mem_singleton.1 hb]
          exact hu
        · rw [List.mem_singleton.1 hn']
          exact Nat.le_trans (Nat.le_of_lt l.cols_lt_extent) hu.usable.1
      have hstands : l.block.Stands (Lore.both l.block.Usable) (Coefs.single "" "" l.m l.n k) := by
        rw [hblock]
        exact h.block
      rw [funext (normEstimate_block h trivial hn hm hscalar)]
      exact hstands.estimates.imp hblock.2 fun b hb => hb.block

end Estimates

/-! ## From below -/

section FromBelow

variable {S : Type} [ExactRoots S] {c : Prop} {a : BlockMatrix S} {K : Coefs S}

/-- `a.Shows c K`: the blocks show their parts of the coefficients, which are zero elsewhere, and a product
    with a block vector that fits is the product with them, or unless `c` some size is too large. -/
structure BlockMatrix.Shows (c : Prop) (a : BlockMatrix S) (K : Coefs S) : Prop where
  block : ∀ {row col l}, a.get? row col = some l → l.Shows c (K row col)
  support : ∀ {row col i j}, K row col i j ≠ 0 → ∃ l, a.get? row col = some l ∧ i < l.m ∧ j < l.n
  apply : ∀ x, x.Within a.colDims →
    Ends (Fault.Unless c) (fun y => y.Within a.rowDims ∧ y.coord = sumCells a.colDims K x.coord) (a.apply x)

theorem BlockMatrix.Stands.shows (h : a.Stands (Lore.both c) K)
    (hc : c → ∀ b ∈ a.toList, b.map.extent ≤ capacity) : a.Shows c K := by
  refine ⟨fun {r col l} hl => ?_, h.support, fun x hx => ?_⟩
  · exact (h.bears hl).shows rfl fun hu => hc hu ⟨r, col, l⟩ (mem_toList.2 hl)
  · have hready := h.ready trivial fun b hb => allows_unless fun hu => hc hu b hb
    exact (hready.apply_ready hx.meets).and_eq fun y hy => funext fun r => funext fun i => h.apply hy r i

/-- For a map that can be applied, a bound is one for the vectors that it gives. -/
theorem LinearMap.Shows.bounds {l : LinearMap S} {k : Nat → Nat → S} {b : S} (h : l.Shows c k) (hc : c)
    (hsign : 0 < l.n ∨ 0 ≤ b)
    (hle : ∀ x y, x.size = l.n → l.apply x = .ok y → Vec.norm y ≤ Vec.norm x * b) : Bounds l.m l.n k b := by
  refine ⟨hsign, fun x hx => ?_⟩
  obtain ⟨y, hy, -⟩ := (h.apply x hx).exists_of_unless hc
  exact h.apply_eq hx hy ▸ hle x y hx hy

omit [ExactRoots S] in
/-- `over D x`: the coordinates of a point under the names of `D`. -/
def BlockVector.over (D : Keyed Nat) (x : String → Nat → S) : BlockVector S :=
  ofList (D.entries.map fun kn => (kn.1, Vec.build kn.2 (x kn.1)))

omit [ExactRoots S] in
theorem get?_over {D : Keyed Nat} {x : String → Nat → S} {name : String} {v : Array S} :
    (BlockVector.over D x).get? name = some v ↔ ∃ n, D.get? name = some n ∧ v = Vec.build n (x name) := by
  have hnames : (D.entries.map fun kn => (kn.1, Vec.build kn.2 (x kn.1))).map Prod.fst = D.keys :=
    List.map_map
  refine (Keyed.get?_ofList_iff (hnames ▸ D.nodup_keys)).trans ⟨fun h => ?_, ?_⟩
  · obtain ⟨⟨name', n⟩, hmem, heq⟩ := List.mem_map.1 h
    cases heq
    exact ⟨n, Keyed.get?_eq_some_iff.2 hmem, rfl⟩
  · rintro ⟨n, hn, rfl⟩
    exact List.mem_map.2 ⟨(name, n), Keyed.get?_eq_some_iff.1 hn, rfl⟩

omit [ExactRoots S] in
theorem within_over (D : Keyed Nat) (x : String → Nat → S) : (BlockVector.over D x).Within D := by
  intro name n hn
  obtain ⟨v, hv, rfl⟩ := BlockVector.sizeAt?_eq_some_iff.1 hn
  obtain ⟨n, hget, rfl⟩ := get?_over.1 hv
  rw [Vec.size_build]
  exact hget

theorem coord_over {D : Keyed Nat} (x : String → Nat → S) {p : Cell} (hp : p ∈ cells D) :
    (BlockVector.over D x).coord p.1 p.2 = x p.1 p.2 := by
  obtain ⟨n, hn, hi⟩ := mem_cells.1 hp
  rw [BlockVector.coord_of_get? (get?_over.2 ⟨n, hn, rfl⟩), Vec.entry_build _ hi]

/-- The same for a matrix and the block vectors that it gives. -/
theorem BlockMatrix.Shows.boundsOver {b : S} (h : a.Shows c K) (hc : c)
    (hsign : (cells a.colDims).Nonempty ∨ 0 ≤ b)
    (hle : ∀ x y, x.Within a.colDims → a.apply x = .ok y → y.norm ≤ x.norm * b) :
    BoundsOver a.rowDims a.colDims K b := by
  refine ⟨hsign, fun x => ?_⟩
  have hwithin := within_over a.colDims x
  obtain ⟨y, hy, hyWithin, hcoord⟩ := (h.apply _ hwithin).exists_of_unless hc
  have himage : sumCells a.colDims K (BlockVector.over a.colDims x).coord = sumCells a.colDims K x :=
    funext fun r => funext fun i => sumCells_congr_point _ _ _ _ fun p hp => coord_over x hp
  have hlength : lengthOver a.colDims (BlockVector.over a.colDims x).coord = lengthOver a.colDims x :=
    congrArg Scalar.sqrt (Finset.sum_congr rfl fun p hp => by rw [coord_over x hp])
  rw [← hlength, ← himage, ← hcoord, ← BlockVector.norm_eq_lengthOver hwithin,
    ← BlockVector.norm_eq_lengthOver hyWithin]
  exact hle _ y hwithin hy

/-- The estimates of the norm rise with the number of steps and stay below every bound.

    For a map, the functions in it multiply by a matrix, and by its transpose where they are known for
    that.  There is a matrix that the map shows, and the estimates belong to this matrix: each of them has
    a value or ends in a breach, which cannot be if the map can be used both ways, more steps never give
    less, and what bounds all products bounds every estimate.  All maps on a workbench are of this kind, and
    the same is true of all matrices there. -/
theorem normEstimate_from_below :
    (∀ l : LinearMap S, l.HasAdjoints → ∃ k, l.Shows l.UsableBothWays k ∧
      Estimates l.UsableBothWays l.normEstimate (Bounds l.m l.n k)) ∧
    ∀ given maps mats next, Workbench (R := S) given maps mats next →
      (∀ l ∈ maps, l.HasAdjoints) ∧
      ∀ a ∈ mats, ∃ K, a.Shows a.Usable K ∧
        Estimates a.Usable a.normEstimate (BoundsOver a.rowDims a.colDims K) := by
  refine ⟨fun l hl => ?_, fun given maps mats next h => ?_⟩
  · obtain ⟨k, hk⟩ := hl.exists_bears
    exact ⟨k, hk.shows rfl fun hu => hu.usable.1, hk.estimates⟩
  · obtain ⟨w, -, -, hmaps, hmats⟩ := h.exists_marks
    have hbreach (f : Fault) (hf : (LinearMap.Lore.atHand False w given).faults f) : f.IsBreach := hf.1
    refine ⟨fun l hl => ?_, fun a ha => ?_⟩
    · obtain ⟨k, hk⟩ := hmaps l hl
      exact hk.hasAdjoints hbreach trivial
    · obtain ⟨K, hK⟩ := hmats a ha
      have hboth := hK.both hbreach trivial
      exact ⟨K, hboth.shows fun hu b hb => (hu.blocks b hb).usable.1, hboth.estimates⟩

end FromBelow

/-! ## Some estimates -/

/-- The mirror of two entries, known in both directions. -/
noncomputable def OpaqueMap.mirrorBack : OpaqueMap ℝ :=
  { OpaqueMap.mirror 2 with backward := some (OpaqueMap.mirror 2).forward }

theorem OpaqueMap.mirrorBack_primitive : mirrorBack.Primitive [] where
  linear := mirror_isLinear 2
  adjoint := by
    rintro t ⟨⟩
    exact mirror_isAdjoint 2
  forward_mark := nofun
  backward_mark := by
    rintro t i ⟨⟩
    exact nofun

namespace LinearMap

/-- The mirror with the marks under which it is kept. -/
noncomputable def mirrorKept : LinearMap ℝ := ((LinearMap.opaqueMap OpaqueMap.mirrorBack).share 0).1

theorem mirrorKept_usable : mirrorKept.UsableBothWays := by
  refine ⟨⟨show (2 + 1) * (2 + 1) ≤ capacity by decide, fun f hf => ?_⟩, fun f hf => ?_⟩
  · rw [List.mem_singleton.1 hf]
    exact (OpaqueMap.mirror_isLinear (R := ℝ) 2).returns_apply (f := OpaqueMap.mirror 2)
  · rw [List.mem_singleton.1 hf]
    rintro t ⟨⟩ y hy
    exact ⟨_, rfl⟩

theorem mirrorKept_apply {x : Array ℝ} (hx : x.size = 2) :
    mirrorKept.apply x = .ok (Vec.build 2 fun i => Vec.entry x (2 - 1 - i)) := by
  refine bind_eq_ok.2 ⟨(), promise_eq_ok.2 (beq_iff_eq.2 hx), bind_eq_ok.2 ⟨_, rfl, ?_⟩⟩
  exact bind_eq_ok.2 ⟨(), promise_eq_ok.2 (beq_iff_eq.2 (Vec.size_build ..)), rfl⟩

/-- A vector is as long as its mirror image. -/
theorem mirrorKept_bounds {k : Nat → Nat → ℝ} (h : mirrorKept.Shows mirrorKept.UsableBothWays k) :
    Bounds mirrorKept.m mirrorKept.n k 1 := by
  refine h.bounds mirrorKept_usable (Or.inl Nat.two_pos) fun x y hx hy => ?_
  have hinner (y : Array ℝ) (hy : y.size = 2) :
      Vec.inner y y = Vec.entry y 0 * Vec.entry y 0 + Vec.entry y 1 * Vec.entry y 1 := by
    rw [Vec.inner_eq_sum, hy, Finset.sum_range_succ, Finset.sum_range_one]
  rw [mirrorKept_apply hx] at hy
  rw [← Except.ok.inj hy, mul_one, Vec.norm, Vec.norm, hinner _ (Vec.size_build ..), hinner x hx,
    Vec.entry_build _ (by decide), Vec.entry_build _ (by decide), add_comm]

/-- A sparse map with many rows and one column, without stored entries. -/
def tall : LinearMap ℝ := .sparse ⟨2305843009213693952, 1, [], List.Pairwise.nil, nofun⟩ (some 0)

end LinearMap

/-- The mirror as the only block of a matrix. -/
noncomputable def BlockMatrix.mirrorBlock : BlockMatrix ℝ where
  blocks := place Keyed.empty ⟨"r", "c", LinearMap.mirrorKept⟩
  rowDims := Keyed.empty.insert "r" 2
  colDims := Keyed.empty.insert "c" 2

theorem BlockMatrix.mirrorBlock_usable : mirrorBlock.Usable := by
  refine ⟨fun b hb => ?_, fun n hn => ?_⟩
  · rw [List.mem_singleton.1 hb]
    exact LinearMap.mirrorKept_usable
  · rw [List.mem_singleton.1 hn]
    decide

/-- The estimates for the mirror, as a map and as a block, rise, and as a map it is not found to make
    anything longer. -/
theorem normEstimate_from_below_mirror :
    ∃ maps mats next, Workbench (R := ℝ) [] maps mats next ∧ ∃ l ∈ maps, ∃ a ∈ mats,
      l.UsableBothWays ∧ a.Usable ∧ ∀ k k', k ≤ k' → ∃ x y x' y',
        l.normEstimate k = .ok x ∧ l.normEstimate k' = .ok y ∧ x ≤ y ∧ y ≤ 1 ∧
        a.normEstimate k = .ok x' ∧ a.normEstimate k' = .ok y' ∧ x' ≤ y' := by
  have hmap : Workbench (R := ℝ) [] [LinearMap.mirrorKept] [] 2 :=
    Workbench.start.keepMap (.opaqueMap OpaqueMap.mirrorBack_primitive)
  have hempty := hmap.keepMatrix .empty
  have hbench : Workbench (R := ℝ) [] [LinearMap.mirrorKept] [.mirrorBlock, .empty] 2 :=
    hempty.keepMatrix (.insertOrAdd List.mem_cons_self List.mem_cons_self rfl)
  obtain ⟨hmaps, hmats⟩ := normEstimate_from_below.2 _ _ _ _ hbench
  obtain ⟨k, hshows, hestimates⟩ := normEstimate_from_below.1 _ (hmaps _ List.mem_cons_self)
  obtain ⟨K, -, hblock⟩ := hmats _ List.mem_cons_self
  refine ⟨_, _, _, hbench, _, List.mem_cons_self, _, List.mem_cons_self, LinearMap.mirrorKept_usable,
    BlockMatrix.mirrorBlock_usable, fun i j hij => ?_⟩
  obtain ⟨x, hx, -⟩ := (hestimates.ends i).exists_of_unless LinearMap.mirrorKept_usable
  obtain ⟨y, hy, -, hle⟩ := (hestimates.ends j).exists_of_unless LinearMap.mirrorKept_usable
  obtain ⟨x', hx', -⟩ := (hblock.ends i).exists_of_unless BlockMatrix.mirrorBlock_usable
  obtain ⟨y', hy', -⟩ := (hblock.ends j).exists_of_unless BlockMatrix.mirrorBlock_usable
  exact ⟨x, y, x', y', hx, hy, hestimates.mono hij hx hy, hle 1 (LinearMap.mirrorKept_bounds hshows),
    hx', hy', hblock.mono hij hx' hy'⟩

/-- There is no room for the transpose of a sparse map with too many rows, so its estimate has no value.  A
    map without columns has the estimate zero, although a negative number bounds all of its products. -/
theorem normEstimate_crowded :
    ∃ (maps : List (LinearMap ℝ)) (mats : List (BlockMatrix ℝ)) (next : Nat), Workbench [] maps mats next ∧
      (∃ l ∈ maps, l.normEstimate 0 = .error .breach) ∧
      ∃ l ∈ maps, l.normEstimate 0 = .ok 0 ∧
        ∀ x, x.size = l.n → ∃ y, l.apply x = .ok y ∧ Vec.norm y ≤ Vec.norm x * (-1) := by
  have htall : Workbench [] [LinearMap.tall] [] 1 := Workbench.start.keepMap (.sparse _)
  have hboth : Workbench [] [LinearMap.scalar 0 1 (some 1), LinearMap.tall] [] 2 := htall.keepMap (.scalar 0 1)
  have hnorm (x : Array ℝ) (hx : x.size = 0) : Vec.norm x = 0 := by
    rw [Vec.norm, Vec.inner_eq_sum, hx, Finset.sum_range_zero, sqrt_zero]
  refine ⟨_, _, _, hboth, ⟨_, List.mem_cons_of_mem _ List.mem_cons_self, ?_⟩,
    _, List.mem_cons_self, rfl, fun x hx => ?_⟩
  · exact eq_breach_of_breached (by decide +kernel)
  · refine ⟨Vec.scale 1 x, bind_eq_ok.2 ⟨(), promise_eq_ok.2 (beq_iff_eq.2 hx), rfl⟩, ?_⟩
    rw [hnorm x hx, hnorm _ ((Vec.size_scale 1 x).trans hx), zero_mul]

end BlockAdmm
