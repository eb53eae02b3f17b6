/-
  The operations on block matrices, as operations on coefficients.

  A product with a block vector is a sum over the columns of the matrix, in which a missing block of
  the vector counts as zero.  Sums add coefficients, a restriction keeps the columns that it names, and
  a transpose exchanges rows and columns.  The Gram matrix has the inner products of the columns, and a
  matrix that shows a scalar is that multiple of the identity on the blocks that it has.
-/
import BlockAdmm.Proofs.Block.Matrix

namespace BlockAdmm.BlockMatrix

open Scalar ExactScalar

variable {R : Type} [ExactScalar R]

variable {w : Marks R} {e : Lore R} {a b g s : BlockMatrix R} {K L : Coefs R} {x y : BlockVector R}

/-! ## Products with block vectors -/

/-- What one block adds to a product. -/
theorem coord_applyBlock {blk : Block R} {k : Nat → Nat → R}
    (hk : Realizes blk.map.apply blk.map.m blk.map.n k)
    (hzero : ∀ i j, blk.map.m ≤ i → k i j = 0) {z : BlockVector R}
    (h : applyBlock x y blk = .ok z) (r : String) (i : Nat) :
    z.coord r i
      = y.coord r i + if blk.row = r then rowSum blk.map.n k (x.coord blk.col) i else 0 := by
  rw [applyBlock] at h
  cases hx : x.get? blk.col with
  | none =>
    rw [hx] at h
    cases h
    have hzero : rowSum blk.map.n k (x.coord blk.col) i = 0 := by
      rw [← rowSum_zero blk.map.n k i]
      exact rowSum_congr (fun _ _ => rfl) fun c _ => BlockVector.coord_of_get?_none hx c
    rw [hzero, ite_self, add_zero]
  | some v =>
    rw [hx] at h
    have h : (if (v.size != blk.map.n) = true then _ else _) = _ := h
    split at h
    · exact absurd h fail_ne_ok
    · rename_i hsize
      have hsize : v.size = blk.map.n := by simpa using hsize
      obtain ⟨u, hu, h⟩ := bind_eq_ok.1 h
      obtain ⟨hus, hue⟩ := hk v u hsize hu
      have hue : Vec.entry u i = rowSum blk.map.n k (x.coord blk.col) i := by
        have hv : x.coord blk.col = Vec.entry v := funext fun c => BlockVector.coord_of_get? hx c
        rw [hv]
        rcases Nat.lt_or_ge i blk.map.m with hi | hi
        · exact hue i hi
        · rw [Vec.entry_of_size_le (hus ▸ hi)]
          exact (Finset.sum_eq_zero fun c _ => by rw [hzero i c hi, zero_mul]).symm
      rw [BlockVector.coord_increase h, one_mul, hue]

/-- The blocks of a product have the sizes of the rows. -/
theorem sizeAt?_applyBlock {blk : Block R} {k : Nat → Nat → R}
    (hk : Realizes blk.map.apply blk.map.m blk.map.n k) {z : BlockVector R} (h : applyBlock x y blk = .ok z)
    {r : String} {n : Nat} (hn : z.sizeAt? r = some n) : y.sizeAt? r = some n ∨ blk.row = r ∧ n = blk.map.m := by
  rw [applyBlock] at h
  cases hx : x.get? blk.col with
  | none =>
    rw [hx] at h
    cases h
    exact Or.inl hn
  | some v =>
    rw [hx] at h
    have h : (if (v.size != blk.map.n) = true then _ else _) = _ := h
    split at h
    · exact absurd h fail_ne_ok
    · rename_i hsize
      obtain ⟨u, hu, h⟩ := bind_eq_ok.1 h
      obtain ⟨hus, -⟩ := hk v u (by simpa using hsize) hu
      rw [BlockVector.sizeAt?_increase h] at hn
      split at hn
      · rename_i hr
        exact Or.inr ⟨hr, by rw [← hus]; exact (Option.some.inj hn).symm⟩
      · exact Or.inl hn

theorem Represents.denotes_of_mem (h : a.Represents w K) {blk : Block R} (hb : blk ∈ a.toList) :
    blk.map.Denotes w (K blk.row blk.col) := h.denotes (mem_toList.1 hb)

theorem Stands.bears_of_mem (h : a.Stands e K) {blk : Block R} (hb : blk ∈ a.toList) :
    blk.map.Bears e (K blk.row blk.col) := h.bears (mem_toList.1 hb)

theorem Stands.eq_zero_of_le (h : a.Stands e K) {r c : String} {l : LinearMap R}
    (hl : a.get? r c = some l) {i j : Nat} (hij : l.m ≤ i ∨ l.n ≤ j) : K r c i j = 0 := by
  by_contra hK
  obtain ⟨l', hl', hi, hj⟩ := h.support hK
  cases hl.symm.trans hl'
  omega

/-- A sum over the columns, column by column. -/
theorem Stands.sum_cells (h : a.Stands e K) (r : String) (i : Nat) (f : String → Nat → R) :
    ∑ c ∈ a.colDims.keys.toFinset, (a.get? r c).elim 0 (fun l => rowSum l.n (K r c) (f c) i)
      = ∑ p ∈ cells a.colDims, K r p.1 i p.2 * f p.1 p.2 := by
  rw [BlockAdmm.sum_cells]
  refine Finset.sum_congr rfl fun c _ => ?_
  cases hl : a.get? r c with
  | none =>
    refine (Finset.sum_eq_zero fun j _ => ?_).symm
    show K r c i j * f c j = 0
    rw [h.eq_zero hl, zero_mul]
  | some l =>
    rw [h.cols hl]
    rfl

/-- A product is the sum over the columns, a missing block of the vector being zero. -/
theorem Stands.apply (h : a.Stands e K) (hy : a.apply x = .ok y) (r : String) (i : Nat) :
    y.coord r i = ∑ p ∈ cells a.colDims, K r p.1 i p.2 * x.coord p.1 p.2 := by
  have hsum := foldlM_sum (fun y => y.coord r i)
    (fun blk => if blk.row = r then rowSum blk.map.n (K r blk.col) (x.coord blk.col) i else 0)
    (fun blk hb y z hz => by
      have hk := (h.bears_of_mem hb).realizes
      rw [coord_applyBlock hk (fun i j hi => h.eq_zero_of_le (mem_toList.1 hb) (Or.inl hi)) hz]
      congr 1
      split
      · rename_i hr; rw [hr]
      · rfl) hy
  rw [hsum, BlockVector.coord_empty, zero_add, ← h.sum_cells r i x.coord]
  exact sum_toList_eq_sum a r (fun c l => rowSum l.n (K r c) (x.coord c) i)
    fun c l hl => List.mem_toFinset.2 (Keyed.mem_keys_iff.2 ⟨l.n, h.cols hl⟩)

theorem Represents.apply (h : a.Represents w K) (hy : a.apply x = .ok y) (r : String) (i : Nat) :
    y.coord r i = ∑ p ∈ cells a.colDims, K r p.1 i p.2 * x.coord p.1 p.2 := h.stands.apply hy r i

theorem Stands.sizeAt?_apply (h : a.Stands e K) (hy : a.apply x = .ok y) {r : String} {n : Nat}
    (hn : y.sizeAt? r = some n) : a.rowDims.get? r = some n := by
  have hempty (r : String) (n : Nat) (hn : (BlockVector.empty : BlockVector R).sizeAt? r = some n) :
      a.rowDims.get? r = some n := by
    rw [BlockVector.sizeAt?_empty] at hn
    cases hn
  refine foldlM_invariant (fun y => ∀ r n, y.sizeAt? r = some n → a.rowDims.get? r = some n)
    (fun blk hb y z hP hz r n hn => ?_) hempty hy r n hn
  rcases sizeAt?_applyBlock (h.bears_of_mem hb).realizes hz hn with hn | ⟨rfl, rfl⟩
  · exact hP r n hn
  · exact h.rows (mem_toList.1 hb)

theorem Represents.sizeAt?_apply (h : a.Represents w K) (hy : a.apply x = .ok y) {r : String} {n : Nat}
    (hn : y.sizeAt? r = some n) : a.rowDims.get? r = some n := h.stands.sizeAt?_apply hy hn

/-! ## Sums -/

/-- The coefficients of a matrix, block by block. -/
theorem Stands.sum_single (h : a.Stands e K) :
    (a.toList.map fun blk =>
      Coefs.single blk.row blk.col blk.map.m blk.map.n (K blk.row blk.col)).sum = K := by
  funext r c i j
  have hat (bs : List (Block R)) : (bs.map fun blk =>
        Coefs.single blk.row blk.col blk.map.m blk.map.n (K blk.row blk.col)).sum r c i j
      = (bs.map fun blk => if blk.row = r then
          (if (c = blk.col) ∧ i < blk.map.m ∧ j < blk.map.n then K r c i j else 0) else 0).sum := by
    induction bs with
    | nil => rfl
    | cons b bs ih =>
      rw [List.map_cons, List.sum_cons, List.map_cons, List.sum_cons, ← ih]
      show Coefs.single b.row b.col b.map.m b.map.n (K b.row b.col) r c i j + _ = _
      congr 1
      rw [Coefs.single]
      by_cases hr : b.row = r
      · subst hr
        by_cases hc : c = b.col
        · subst hc; simp
        · simp [hc]
      · rw [if_neg hr, if_neg fun hp => hr hp.1.1.symm]
  rw [hat, sum_toList_eq_sum a r (fun c' l => if c = c' ∧ i < l.m ∧ j < l.n then K r c i j else 0)
    (S := insert c a.colDims.keys.toFinset)
    fun c' l hl => Finset.mem_insert_of_mem (List.mem_toFinset.2 (Keyed.mem_keys_iff.2 ⟨l.n, h.cols hl⟩)),
    Finset.sum_eq_single c]
  · cases hl : a.get? r c with
    | none => exact (h.eq_zero hl i j).symm
    | some l =>
      show (if _ then K r c i j else 0) = _
      split
      · rfl
      · rename_i hout
        rw [eq_self_iff_true, true_and] at hout
        exact (h.eq_zero_of_le hl (by omega)).symm
  · intro c' _ hne
    cases a.get? r c' with
    | none => rfl
    | some l => exact if_neg fun hp => hne hp.1.symm
  · intro hmem
    exact absurd (Finset.mem_insert_self c _) hmem

theorem Stands.add [e.Complete] (ha : a.Stands e K) (hb : b.Stands e L) (hs : a.add b = .ok s) :
    s.Stands e (K + L) := by
  rw [← hb.sum_single]
  exact stands_foldlM (fun blk hblk g g' G hg hg' => hg.insertOrAdd (hb.bears_of_mem hblk) hg') ha hs

theorem Represents.add (ha : a.Represents w K) (hb : b.Represents w L) (hs : a.add b = .ok s) :
    s.Represents w (K + L) := represents_iff_stands.2 (ha.stands.add hb.stands hs)

/-- The rows and columns of a sum are those of its parts. -/
theorem dims_foldlM_insertBlock {bs : List (Block R)} (h : bs.foldlM insertBlock a = .ok s) :
    s.colDims.Extends a.colDims ∧ (∀ b ∈ bs, s.colDims.get? b.col = some b.map.n) ∧
      ∀ r m, s.rowDims.get? r = some m →
        a.rowDims.get? r = some m ∨ ∃ b ∈ bs, b.row = r ∧ b.map.m = m := by
  induction bs generalizing a with
  | nil =>
    cases foldlM_nil_eq_ok.1 h
    exact ⟨Keyed.Extends.refl _, fun _ hb => absurd hb List.not_mem_nil, fun _ _ hr => Or.inl hr⟩
  | cons b bs ih =>
    obtain ⟨g, hg, h⟩ := foldlM_cons_eq_ok.1 h
    obtain ⟨hext, hcols, hrows⟩ := ih h
    obtain ⟨-, hcol, hgrows, hgcols, -⟩ := insertOrAdd_eq_ok hg
    have hgext : g.colDims.Extends a.colDims := hgcols ▸ extends_insert hcol
    refine ⟨hext.trans hgext, List.forall_mem_cons.2 ⟨?_, hcols⟩, fun r m hr => ?_⟩
    · refine hext _ _ ?_
      rw [hgcols, Keyed.get?_insert, if_pos rfl]
    · rcases hrows r m hr with hr | ⟨b', hb', hr⟩
      · rw [hgrows, Keyed.get?_insert] at hr
        split at hr
        · rename_i hrow
          exact Or.inr ⟨b, List.mem_cons_self, hrow, Option.some.inj hr⟩
        · exact Or.inl hr
      · exact Or.inr ⟨b', List.mem_cons_of_mem b hb', hr⟩

omit [ExactScalar R] in
/-- `x.Precedes y`: the place of `x` comes before that of `y`, by the row first and then by the column. -/
def Block.Precedes (x y : Block R) : Prop := x.row < y.row ∨ x.row = y.row ∧ x.col < y.col

omit [ExactScalar R] in
theorem Block.Precedes.not_precedes {x y : Block R} (h : x.Precedes y) : ¬ y.Precedes x := by
  rintro (hrow' | ⟨heq', hcol'⟩)
  · rcases h with hrow | ⟨heq, -⟩
    · exact lt_asymm hrow hrow'
    · exact hrow'.ne heq.symm
  · rcases h with hrow | ⟨-, hcol⟩
    · exact hrow.ne heq'.symm
    · exact lt_asymm hcol hcol'

omit [ExactScalar R] in
theorem Block.Precedes.apart {x y : Block R} (h : x.Precedes y) : x.row = y.row → x.col ≠ y.col := by
  intro heq
  rcases h with hrow | ⟨-, hcol⟩
  · exact absurd heq hrow.ne
  · exact hcol.ne

omit [ExactScalar R] in
/-- A walk over the blocks comes to the places in their order. -/
theorem sorted_toList (a : BlockMatrix R) : a.toList.Pairwise Block.Precedes := by
  refine List.pairwise_flatMap.2 ⟨fun rm _ => ?_, a.blocks.sorted.imp fun hlt x hx y hy => ?_⟩
  · rw [List.pairwise_map]
    exact rm.2.sorted.imp fun hlt => Or.inr ⟨rfl, hlt⟩
  · obtain ⟨_, -, rfl⟩ := List.mem_map.1 hx
    obtain ⟨_, -, rfl⟩ := List.mem_map.1 hy
    exact Or.inl hlt

omit [ExactScalar R] in
/-- A walk over the blocks comes to each place once. -/
theorem pairwise_toList (a : BlockMatrix R) : a.toList.Pairwise fun b b' => b.row = b'.row → b.col ≠ b'.col :=
  a.sorted_toList.imp Block.Precedes.apart

/-- The sum of matrices that have no place in common has the blocks of both. -/
theorem get?_add_of_apart (h : a.add b = .ok s) (hapart : ∀ r c, (b.get? r c).isSome → a.get? r c = none)
    (r c : String) : s.get? r c = (b.get? r c).or (a.get? r c) := by
  have hwalk (bs : List (Block R)) : ∀ a : BlockMatrix R, bs.Pairwise (fun b b' => b.row = b'.row → b.col ≠ b'.col) →
      (∀ blk ∈ bs, a.get? blk.row blk.col = none) → bs.foldlM insertBlock a = .ok s →
      ∀ l, s.get? r c = some l ↔ ⟨r, c, l⟩ ∈ bs ∨ a.get? r c = some l := by
    induction bs with
    | nil =>
      intro a _ _ hfold l
      cases foldlM_nil_eq_ok.1 hfold
      exact (or_iff_right List.not_mem_nil).symm
    | cons blk bs ih =>
      intro a hpair hnone hfold l
      obtain ⟨hblk, hpair⟩ := List.pairwise_cons.1 hpair
      obtain ⟨hfree, hnone⟩ := List.forall_mem_cons.1 hnone
      obtain ⟨g, hg, hfold⟩ := foldlM_cons_eq_ok.1 hfold
      obtain ⟨-, -, -, -, l', hget, hsum⟩ := insertOrAdd_eq_ok hg
      have hl' : l' = blk.map := by
        rcases hsum with ⟨-, heq⟩ | ⟨prev, hprev, -⟩
        · exact heq
        · cases hfree.symm.trans hprev
      subst hl'
      have hrest : ∀ b ∈ bs, g.get? b.row b.col = none := by
        intro b hb
        rw [hget, if_neg fun heq => hblk b hb heq.1 heq.2]
        exact hnone b hb
      rw [ih g hpair hrest hfold l, hget, List.mem_cons]
      by_cases hplace : blk.row = r ∧ blk.col = c
      · obtain ⟨rfl, rfl⟩ := hplace
        have hmem : (⟨blk.row, blk.col, l⟩ : Block R) ∉ bs := fun hb => hblk _ hb rfl rfl
        rw [if_pos ⟨rfl, rfl⟩, hfree, Option.some.injEq, or_iff_left hmem, or_iff_right hmem,
          or_iff_left (Option.some_ne_none l).symm]
        exact ⟨fun heq => heq ▸ rfl, fun heq => (congrArg Block.map heq).symm⟩
      · have hne : (⟨r, c, l⟩ : Block R) ≠ blk := fun heq => hplace (heq ▸ ⟨rfl, rfl⟩)
        rw [if_neg hplace, or_iff_right hne]
  have hfree : ∀ blk ∈ b.toList, a.get? blk.row blk.col = none := by
    intro blk hblk
    exact hapart _ _ (by rw [mem_toList.1 hblk]; rfl)
  refine Option.ext fun l => ?_
  rw [hwalk b.toList a b.pairwise_toList hfree h l, mem_toList, Option.or_eq_some_iff]
  refine or_congr_right (iff_and_self.2 fun hl => ?_)
  by_contra hne
  have hnone := hapart r c (Option.isSome_iff_ne_none.2 hne)
  rw [hnone] at hl
  cases hl

/-! ## Restrictions -/

omit [ExactScalar R] in
/-- The parts of a restriction are built apart from each other. -/
theorem restrictCols_eq (a : BlockMatrix R) (cols : List String) :
    a.restrictCols cols =
      let bs := a.toList.filter fun b => cols.contains b.col
      ⟨bs.foldl place Keyed.empty,
        (bs.map fun b => (b.row, b.map.m)).foldl (fun m kv => m.insert kv.1 kv.2) Keyed.empty,
        (bs.map fun b => (b.col, b.map.n)).foldl (fun m kv => m.insert kv.1 kv.2) Keyed.empty⟩ := by
  have hwalk (bs : List (Block R)) (acc : BlockMatrix R) :
      bs.foldl (fun acc b => (⟨place acc.blocks b, acc.rowDims.insert b.row b.map.m,
          acc.colDims.insert b.col b.map.n⟩ : BlockMatrix R)) acc
        = ⟨bs.foldl place acc.blocks,
          (bs.map fun b => (b.row, b.map.m)).foldl (fun m kv => m.insert kv.1 kv.2) acc.rowDims,
          (bs.map fun b => (b.col, b.map.n)).foldl (fun m kv => m.insert kv.1 kv.2) acc.colDims⟩ := by
    induction bs generalizing acc with
    | nil => rfl
    | cons b bs ih => exact ih _
  exact hwalk _ empty

omit [ExactScalar R] in
theorem eq_of_mem_toList {b b' : Block R} (h : b ∈ a.toList) (h' : b' ∈ a.toList)
    (hr : b.row = b'.row) (hc : b.col = b'.col) : b.map = b'.map := by
  have h := mem_toList.1 h
  rw [hr, hc, mem_toList.1 h'] at h
  exact (Option.some.inj h).symm

omit [ExactScalar R] in
theorem get?_restrictCols (a : BlockMatrix R) (cols : List String) (r c : String) :
    (a.restrictCols cols).get? r c = if c ∈ cols then a.get? r c else none := by
  have hmem (l : LinearMap R) : (⟨r, c, l⟩ : Block R) ∈ (a.toList.filter fun b => cols.contains b.col)
      ↔ a.get? r c = some l ∧ c ∈ cols := by
    rw [List.mem_filter, mem_toList, List.contains_iff_mem]
  have hlookup (l : LinearMap R) : (a.restrictCols cols).get? r c = some l
      ↔ a.get? r c = some l ∧ c ∈ cols := by
    rw [restrictCols_eq]
    show lookup _ r c = some l ↔ _
    rw [lookup_foldl_place, hmem]
    · exact ⟨fun h => h.elim id fun h => (nomatch h.2), Or.inl⟩
    · intro b hb b' hb' hr hc
      exact eq_of_mem_toList (List.mem_of_mem_filter hb) (List.mem_of_mem_filter hb') hr hc
  ext l
  rw [hlookup]
  split
  · rename_i hc; exact and_iff_left hc
  · rename_i hc; exact ⟨fun h => absurd h.2 hc, nofun⟩

omit [ExactScalar R] in
/-- The sizes that blocks leave under their names, when they agree with sizes that are known. -/
theorem get?_dims {bs : List (Block R)} {key : Block R → String} {dim : Block R → Nat} {D : Keyed Nat}
    (hD : ∀ b ∈ bs, D.get? (key b) = some (dim b)) (k : String) (d : Nat) :
    ((bs.map fun b => (key b, dim b)).foldl (fun m kv => m.insert kv.1 kv.2) Keyed.empty).get? k
        = some d ↔ ∃ b ∈ bs, key b = k ∧ dim b = d := by
  have hempty : (Keyed.empty : Keyed Nat).get? k ≠ some d := nofun
  rw [Keyed.get?_foldl_insert_iff, or_iff_left fun hp => hempty hp.2, List.mem_map]
  · exact exists_congr fun b => and_congr_right fun _ => Prod.mk.injEq .. ▸ Iff.rfl
  · intro k d d' hd hd'
    obtain ⟨b, hb, heq⟩ := List.mem_map.1 hd
    obtain ⟨b', hb', heq'⟩ := List.mem_map.1 hd'
    cases heq
    obtain ⟨hk, rfl⟩ := Prod.mk.inj heq'
    have hdim := hD b' hb'
    rw [hk, hD b hb] at hdim
    exact Option.some.inj hdim

omit [ExactScalar R] in
/-- The rows of a restriction are those of the blocks that it keeps. -/
theorem get?_rowDims_restrictCols (h : ∀ {r c l}, a.get? r c = some l → a.rowDims.get? r = some l.m)
    (cols : List String) (k : String) (d : Nat) : (a.restrictCols cols).rowDims.get? k = some d ↔
      ∃ c l, a.get? k c = some l ∧ c ∈ cols ∧ l.m = d := by
  rw [restrictCols_eq]
  refine (get?_dims (D := a.rowDims)
    (fun b hb => h (mem_toList.1 (List.mem_of_mem_filter hb))) k d).trans ?_
  constructor
  · rintro ⟨b, hb, rfl, rfl⟩
    obtain ⟨hb, hc⟩ := List.mem_filter.1 hb
    exact ⟨b.col, b.map, mem_toList.1 hb, List.contains_iff_mem.1 hc, rfl⟩
  · rintro ⟨c, l, hl, hc, rfl⟩
    exact ⟨⟨k, c, l⟩, List.mem_filter.2 ⟨mem_toList.2 hl, List.contains_iff_mem.2 hc⟩, rfl, rfl⟩

omit [ExactScalar R] in
theorem get?_colDims_restrictCols (h : ∀ {r c l}, a.get? r c = some l → a.colDims.get? c = some l.n)
    (cols : List String) (k : String) (d : Nat) : (a.restrictCols cols).colDims.get? k = some d ↔
      ∃ r l, a.get? r k = some l ∧ k ∈ cols ∧ l.n = d := by
  rw [restrictCols_eq]
  refine (get?_dims (D := a.colDims)
    (fun b hb => h (mem_toList.1 (List.mem_of_mem_filter hb))) k d).trans ?_
  constructor
  · rintro ⟨b, hb, rfl, rfl⟩
    obtain ⟨hb, hc⟩ := List.mem_filter.1 hb
    exact ⟨b.row, b.map, mem_toList.1 hb, List.contains_iff_mem.1 hc, rfl⟩
  · rintro ⟨r, l, hl, hc, rfl⟩
    exact ⟨⟨r, k, l⟩, List.mem_filter.2 ⟨mem_toList.2 hl, List.contains_iff_mem.2 hc⟩, rfl, rfl⟩

/-- A restriction has the coefficients of the columns that it keeps. -/
theorem Stands.restrictCols (h : a.Stands e K) (cols : List String) :
    (a.restrictCols cols).Stands e fun r c => if c ∈ cols then K r c else 0 := by
  have hget {r c : String} {l : LinearMap R} (hl : (a.restrictCols cols).get? r c = some l) :
      a.get? r c = some l ∧ c ∈ cols := by
    rw [get?_restrictCols] at hl
    split at hl
    · rename_i hc; exact ⟨hl, hc⟩
    · cases hl
  refine ⟨fun {r c l} hl => ?_, fun {r c i j} hK => ?_, fun {r c l} hl => ?_, fun {r c l} hl => ?_⟩
  · obtain ⟨hl, hc⟩ := hget hl
    rw [if_pos hc]
    exact h.bears hl
  · by_cases hc : c ∈ cols
    · rw [if_pos hc] at hK
      obtain ⟨l, hl, hij⟩ := h.support hK
      exact ⟨l, by rw [get?_restrictCols, if_pos hc, hl], hij⟩
    · rw [if_neg hc] at hK
      exact absurd rfl hK
  · obtain ⟨hl, hc⟩ := hget hl
    exact (get?_rowDims_restrictCols h.rows cols r l.m).2 ⟨c, l, hl, hc, rfl⟩
  · obtain ⟨hl, hc⟩ := hget hl
    exact (get?_colDims_restrictCols h.cols cols c l.n).2 ⟨r, l, hl, hc, rfl⟩

theorem Represents.restrictCols (h : a.Represents w K) (cols : List String) :
    (a.restrictCols cols).Represents w fun r c => if c ∈ cols then K r c else 0 :=
  represents_iff_stands.2 (h.stands.restrictCols cols)

end BlockAdmm.BlockMatrix
