/-
  Transposes and Gram matrices of block matrices.

  A transpose has the blocks of the matrix, each of them transposed, with rows and columns exchanged
  (`Stands.transpose`).  The Gram matrix has the inner products of the columns (`Stands.gram`),
  and it has a block for each pair of columns that have blocks in one row (`isSome_get?_gram`), so one on
  the diagonal for each column that has a block, and no others (`exists_of_get?_gram`).  If it shows a
  scalar, then the columns that have blocks are orthogonal, and all of the same length
  (`Represents.gram_scalar?`).
-/
import BlockAdmm.Proofs.Block.Algebra

namespace BlockAdmm

variable {R : Type}

/-! ## Transposes -/

namespace BlockMatrix

/-- `IsTransposed b b'`: a block and the same block transposed. -/
structure IsTransposed [Scalar R] (b b' : Block R) : Prop where
  row : b'.row = b.col
  col : b'.col = b.row
  map : b.map.transpose = .ok b'.map

theorem transpose_eq_ok [Scalar R] {a t : BlockMatrix R} (h : a.transpose = .ok t) :
    t.rowDims = a.colDims ∧ t.colDims = a.rowDims ∧
      ∃ bs, List.Forall₂ IsTransposed a.toList bs ∧ t.blocks = bs.foldl place Keyed.empty := by
  obtain ⟨blocks, hblocks, h⟩ := bind_eq_ok.1 h
  cases pure_eq_ok.1 h
  refine ⟨rfl, rfl, ?_⟩
  generalize (Keyed.empty : Keyed (Keyed (LinearMap R))) = acc at hblocks ⊢
  generalize a.toList = xs at hblocks ⊢
  induction xs generalizing acc with
  | nil =>
    cases foldlM_nil_eq_ok.1 hblocks
    exact ⟨[], List.Forall₂.nil, rfl⟩
  | cons b xs ih =>
    obtain ⟨mid, hmid, hblocks⟩ := foldlM_cons_eq_ok.1 hblocks
    obtain ⟨l, hl, hmid⟩ := bind_eq_ok.1 hmid
    cases pure_eq_ok.1 hmid
    obtain ⟨bs, hbs, heq⟩ := ih _ hblocks
    exact ⟨⟨b.col, b.row, l⟩ :: bs, List.Forall₂.cons ⟨rfl, rfl, hl⟩ hbs, heq⟩

/-- The blocks of a transpose. -/
theorem get?_transpose [Scalar R] {a t : BlockMatrix R} (h : a.transpose = .ok t) {r c : String}
    {l' : LinearMap R} :
    t.get? c r = some l' ↔ ∃ l, a.get? r c = some l ∧ l.transpose = .ok l' := by
  obtain ⟨-, -, bs, hbs, hblocks⟩ := transpose_eq_ok h
  have hmem (l' : LinearMap R) : (⟨c, r, l'⟩ : Block R) ∈ bs
      ↔ ∃ l, a.get? r c = some l ∧ l.transpose = .ok l' := by
    constructor
    · intro hl'
      obtain ⟨b, hb, hrow, hcol, hmap⟩ := exists_of_forall₂ hbs hl'
      cases b
      cases hrow
      cases hcol
      exact ⟨_, mem_toList.1 hb, hmap⟩
    · rintro ⟨l, hl, hmap⟩
      obtain ⟨b', hb', hrow, hcol, hmap'⟩ := exists_of_forall₂ hbs.flip
        (mem_toList.2 hl : (⟨r, c, l⟩ : Block R) ∈ a.toList)
      cases b'
      cases hrow
      cases hcol
      cases hmap.symm.trans hmap'
      exact hb'
  have hget : t.get? c r = lookup t.blocks c r := rfl
  rw [hget, hblocks, lookup_foldl_place, hmem]
  · exact or_iff_left fun hp => nomatch hp.2
  · intro b hb b' hb' hrow hcol
    obtain ⟨x, hx, hxr, hxc, hxm⟩ := exists_of_forall₂ hbs hb
    obtain ⟨x', hx', hxr', hxc', hxm'⟩ := exists_of_forall₂ hbs hb'
    have hmap := eq_of_mem_toList hx hx' (hxc.symm.trans (hcol.trans hxc'))
      (hxr.symm.trans (hrow.trans hxr'))
    rw [hmap, hxm'] at hxm
    exact (Except.ok.inj hxm).symm

/-- Every block has come to its place in a transpose. -/
theorem exists_get?_transpose [Scalar R] {a t : BlockMatrix R} (h : a.transpose = .ok t) {r c : String}
    {l : LinearMap R} (hl : a.get? r c = some l) : ∃ l', l.transpose = .ok l' ∧ t.get? c r = some l' := by
  obtain ⟨-, -, bs, hbs, -⟩ := transpose_eq_ok h
  obtain ⟨b, -, hb⟩ := exists_of_forall₂ hbs.flip (mem_toList.2 hl : (⟨r, c, l⟩ : Block R) ∈ a.toList)
  exact ⟨b.map, hb.map, (get?_transpose h).2 ⟨l, hl, hb.map⟩⟩

variable [ExactScalar R] {w : Marks R} {e : Lore R} {a b t g : BlockMatrix R} {K : Coefs R}

/-- A transpose has rows and columns exchanged. -/
theorem Stands.transpose (h : a.Stands e K) (he : e.transposes)
    (hroom : ∀ b ∈ a.toList, Allows e.faults b.map.extent) (ht : a.transpose = .ok t) :
    t.Stands e K.transpose := by
  obtain ⟨hrows, hcols, -⟩ := transpose_eq_ok ht
  have hstands {r c : String} {l l' : LinearMap R} (hl : a.get? r c = some l)
      (hl' : l.transpose = .ok l') : l'.Stands e l.n l.m (K.transpose c r) :=
    ((h.bears hl).stands.transpose (hroom ⟨r, c, l⟩ (mem_toList.2 hl))).of_eq_ok hl' he
  refine ⟨fun {c r l'} hl' => ?_, fun {c r j i} hK => ?_, fun {c r l'} hl' => ?_,
    fun {c r l'} hl' => ?_⟩
  · obtain ⟨l, hl, hmap⟩ := (get?_transpose ht).1 hl'
    exact (hstands hl hmap).bears
  · obtain ⟨l, hl, hi, hj⟩ := h.support hK
    obtain ⟨l', hl', hget⟩ := exists_get?_transpose ht hl
    refine ⟨l', hget, ?_, ?_⟩
    · rwa [(hstands hl hl').rows]
    · rwa [(hstands hl hl').cols]
  · obtain ⟨l, hl, hmap⟩ := (get?_transpose ht).1 hl'
    rw [hrows, (hstands hl hmap).rows]
    exact h.cols hl
  · obtain ⟨l, hl, hmap⟩ := (get?_transpose ht).1 hl'
    rw [hcols, (hstands hl hmap).cols]
    exact h.rows hl

/-- Where only values count, no room is asked for. -/
theorem Stands.transpose_loose (h : a.Stands e K) (he : e.transposes) (ht : a.transpose = .ok t) :
    t.Stands e.loose K.transpose :=
  (h.mono e.within_loose).transpose he (fun _ _ => allows_of_limits _) ht

theorem Represents.transpose (h : a.Represents w K) (ht : a.transpose = .ok t) :
    t.Represents w K.transpose :=
  represents_iff_stands.2 (h.stands.transpose trivial (fun _ _ => allows_of_limits _) ht)

/-! ## Gram matrices -/

theorem Coefs.sum_apply {α : Type} (F : α → Coefs R) (xs : List α) (r c : String) (i j : Nat) :
    (xs.map F).sum r c i j = (xs.map fun x => F x r c i j).sum := by
  induction xs with
  | nil => rfl
  | cons x xs ih =>
    rw [List.map_cons, List.sum_cons, List.map_cons, List.sum_cons, ← ih]
    rfl

/-- `pairCoefs k row`: what the blocks of a row with the coefficients `k` add to the Gram matrix. -/
def pairCoefs (k : String → Nat → Nat → R) (row : Keyed (LinearMap R)) : Coefs R :=
  (row.entries.map fun c₁ => (row.entries.map fun c₂ =>
    Coefs.single c₁.1 c₂.1 c₁.2.n c₂.2.n fun i j =>
      rowSum c₁.2.m (fun i p => k c₁.1 p i) (fun p => k c₂.1 p j) i).sum).sum

/-- The product of the transpose of a block with another block of the row. -/
theorem stands_pair [e.Complete] {l l' t s : LinearMap R} {k k' : Nat → Nat → R} (h : l.Bears e k)
    (h' : l'.Bears e k') (ht : l.transpose = .ok t) (hs : t.mul l' = .ok s) :
    s.Stands e l.n l'.n fun i j => rowSum l.m (fun i p => k p i) (fun p => k' p j) i := by
  have ht := (h.stands.transpose (allows_of_limits _)).of_eq_ok ht Lore.Complete.transposes
  have hm : l.m = l'.m := ht.cols.symm.trans (LinearMap.cols_eq_of_mul hs)
  exact (ht.mul (fun _ hf => hf) (hm ▸ h'.stands) (allows_of_limits _) (allows_of_limits _)
    (allows_of_limits _)).of_eq_ok hs

theorem Stands.gramRow [e.Complete] {L : Coefs R} {row : Keyed (LinearMap R)}
    {k : String → Nat → Nat → R} (hrow : ∀ cl ∈ row.entries, cl.2.Bears e (k cl.1)) (hg : g.Stands e L)
    (h : gramRow g row = .ok b) : b.Stands e (L + pairCoefs k row) := by
  refine stands_foldlM (fun c₁ hc₁ g₁ g₂ G₁ hg₁ h₁ => ?_) hg h
  obtain ⟨t, ht, h₁⟩ := bind_eq_ok.1 h₁
  refine stands_foldlM (fun c₂ hc₂ g₃ g₄ G₂ hg₂ h₂ => ?_) hg₁ h₁
  obtain ⟨s, hs, h₂⟩ := bind_eq_ok.1 h₂
  have hprod := stands_pair (hrow c₁ hc₁) (hrow c₂ hc₂) ht hs
  have hsum := hg₂.insertOrAdd hprod.bears h₂
  rwa [hprod.rows, hprod.cols] at hsum

/-- What a row adds to the Gram matrix are the inner products of its columns. -/
theorem Stands.pairCoefs_eq (h : a.Stands e K) {r : String} {row : Keyed (LinearMap R)}
    (hr : a.blocks.get? r = some row) (c c' : String) (i j : Nat) :
    pairCoefs (K r) row c c' i j
      = ∑ p ∈ Finset.range ((a.rowDims.get? r).getD 0), K r c p i * K r c' p j := by
  have hrow (c : String) : row.get? c = a.get? r c := by rw [get?, hr]; rfl
  have hsingle (l₁ l₂ : LinearMap R) (c₁ c₂ : String) :
      Coefs.single c₁ c₂ l₁.n l₂.n
          (fun i j => rowSum l₁.m (fun i p => K r c₁ p i) (fun p => K r c₂ p j) i) c c' i j
        = if c₁ = c then if c₂ = c' then if i < l₁.n ∧ j < l₂.n then
            ∑ p ∈ Finset.range l₁.m, K r c p i * K r c' p j else 0 else 0 else 0 := by
    rw [Coefs.single]
    by_cases hc : c₁ = c
    · by_cases hc' : c₂ = c'
      · subst hc hc'
        rw [if_pos rfl, if_pos rfl, if_congr (and_iff_right ⟨rfl, rfl⟩) rfl rfl]
        rfl
      · rw [if_pos hc, if_neg hc', if_neg fun hp => hc' hp.1.2.symm]
    · rw [if_neg hc, if_neg fun hp => hc hp.1.1.symm]
  have hinner (c₁ : String × LinearMap R) : (row.entries.map fun c₂ =>
        Coefs.single c₁.1 c₂.1 c₁.2.n c₂.2.n
          (fun i j => rowSum c₁.2.m (fun i p => K r c₁.1 p i) (fun p => K r c₂.1 p j) i)
          c c' i j).sum
      = if c₁.1 = c then (a.get? r c').elim 0 fun l₂ => if i < c₁.2.n ∧ j < l₂.n then
          ∑ p ∈ Finset.range c₁.2.m, K r c p i * K r c' p j else 0 else 0 := by
    simp only [hsingle]
    split
    · rw [← hrow, ← Keyed.sumOver_ite]
      rfl
    · exact List.sum_eq_zero fun v hv => (List.mem_map.1 hv).elim fun _ hv => hv.2.symm
  have houter : pairCoefs (K r) row c c' i j
      = (a.get? r c).elim 0 fun l₁ => (a.get? r c').elim 0 fun l₂ => if i < l₁.n ∧ j < l₂.n then
          ∑ p ∈ Finset.range l₁.m, K r c p i * K r c' p j else 0 := by
    rw [pairCoefs, Coefs.sum_apply]
    simp only [Coefs.sum_apply, hinner]
    rw [← hrow c, ← Keyed.sumOver_ite]
    rfl
  have hzero (hz : ∀ p, K r c p i = 0 ∨ K r c' p j = 0) (n : Nat) :
      ∑ p ∈ Finset.range n, K r c p i * K r c' p j = 0 :=
    Finset.sum_eq_zero fun p _ => mul_eq_zero.2 (hz p)
  rw [houter]
  cases hl₁ : a.get? r c with
  | none => exact (hzero (fun p => Or.inl (h.eq_zero hl₁ p i)) _).symm
  | some l₁ =>
    cases hl₂ : a.get? r c' with
    | none => exact (hzero (fun p => Or.inr (h.eq_zero hl₂ p j)) _).symm
    | some l₂ =>
      rw [h.rows hl₁]
      show (if i < l₁.n ∧ j < l₂.n then _ else 0) = _
      split
      · rfl
      · rename_i hout
        refine (hzero (fun p => ?_) _).symm
        by_cases hi : i < l₁.n
        · exact Or.inr (h.eq_zero_of_le hl₂ (Or.inr (not_lt.1 fun hj => hout ⟨hi, hj⟩)))
        · exact Or.inl (h.eq_zero_of_le hl₁ (Or.inr (not_lt.1 hi)))

/-- The Gram matrix has the inner products of the columns. -/
theorem Stands.gram [e.Complete] (h : a.Stands e K) (hg : a.gram = .ok g) :
    g.Stands e fun c c' i j => ∑ p ∈ cells a.rowDims, K p.1 c p.2 i * K p.1 c' p.2 j := by
  have hfold : a.blocks.entries.foldlM (fun g rm => BlockMatrix.gramRow g rm.2) empty = .ok g := by
    rw [← hg, BlockMatrix.gram, Keyed.values, List.foldlM_map]
  have hsum := stands_foldlM
    (F := fun rm : String × Keyed (LinearMap R) => pairCoefs (K rm.1) rm.2)
    (fun rm hrm g g' G hG hg' => hG.gramRow
      (fun cl hcl => h.bears (get?_eq_some_iff.2 ⟨rm.2, hrm, hcl⟩)) hg') (stands_empty e) hfold
  rw [zero_add] at hsum
  -- row by row, where the rows without blocks add nothing
  have hcoefs : (a.blocks.entries.map fun rm => pairCoefs (K rm.1) rm.2).sum
      = fun c c' i j => ∑ p ∈ cells a.rowDims, K p.1 c p.2 i * K p.1 c' p.2 j := by
    funext c c' i j
    let f (r : String) : R :=
      ∑ p ∈ Finset.range ((a.rowDims.get? r).getD 0), K r c p i * K r c' p j
    have hblocks (r : String) (hf : f r ≠ 0) : r ∈ a.blocks.keys.toFinset := by
      obtain ⟨p, -, hp⟩ := Finset.exists_ne_zero_of_sum_ne_zero hf
      obtain ⟨l, hl, -⟩ := h.support (left_ne_zero_of_mul hp)
      obtain ⟨row, hrow, -⟩ := get?_eq_some_iff.1 hl
      exact List.mem_toFinset.2 (Keyed.mem_keys_iff.2 ⟨row, Keyed.get?_eq_some_iff.2 hrow⟩)
    have hrows (r : String) (hf : f r ≠ 0) : r ∈ a.rowDims.keys.toFinset := by
      by_contra hr
      have hnone := Keyed.get?_eq_none_iff.2 fun hmem => hr (List.mem_toFinset.2 hmem)
      refine hf ?_
      show ∑ p ∈ Finset.range ((a.rowDims.get? r).getD 0), K r c p i * K r c' p j = 0
      rw [hnone]
      rfl
    have hwalk : Keyed.sumOver (fun r row => pairCoefs (K r) row c c' i j) a.blocks.entries
        = ∑ r ∈ a.blocks.keys.toFinset, f r := by
      rw [Keyed.sumOver_congr (g := fun r _ => f r) fun r row hr =>
        h.pairCoefs_eq (Keyed.get?_eq_some_iff.2 hr) c c' i j, Keyed.sumOver_eq_sum_keys]
      refine Finset.sum_congr rfl fun r hr => ?_
      obtain ⟨row, hrow⟩ := Keyed.mem_keys_iff.1 (List.mem_toFinset.1 hr)
      rw [hrow]
      rfl
    rw [Coefs.sum_apply, BlockAdmm.sum_cells]
    refine hwalk.trans ?_
    rw [← finsum_eq_sum_of_support_subset f hblocks, finsum_eq_sum_of_support_subset f hrows]
  rwa [hcoefs] at hsum

theorem Represents.gram (h : a.Represents w K) (hg : a.gram = .ok g) :
    g.Represents w fun c c' i j => ∑ p ∈ cells a.rowDims, K p.1 c p.2 i * K p.1 c' p.2 j :=
  represents_iff_stands.2 (h.stands.gram hg)

omit [ExactScalar R] in
/-- What a step makes true of its own entry and every other step keeps, a fold makes true of all. -/
theorem foldlM_establishes {α σ : Type} {f : σ → α → Outcome σ} (P : α → σ → Prop) {xs : List α}
    {s t : σ} (hkeep : ∀ x, ∀ y ∈ xs, ∀ s t, P x s → f s y = .ok t → P x t)
    (hset : ∀ x ∈ xs, ∀ s t, f s x = .ok t → P x t) (h : xs.foldlM f s = .ok t) :
    ∀ x ∈ xs, P x t := by
  induction xs generalizing s with
  | nil => exact fun _ hx => absurd hx List.not_mem_nil
  | cons y ys ih =>
    obtain ⟨r, hr, h⟩ := foldlM_cons_eq_ok.1 h
    have hkeep' (x z : α) (hz : z ∈ ys) := hkeep x z (List.mem_cons_of_mem y hz)
    refine List.forall_mem_cons.2 ⟨?_, ih hkeep' (fun x hx => hset x (List.mem_cons_of_mem y hx)) h⟩
    exact foldlM_invariant (P y) (fun z hz s t => hkeep' y z hz s t)
      (hset y List.mem_cons_self s r hr) h

/-- `b.HasBlocksOf a`: where `a` has a block, `b` has one. -/
def HasBlocksOf (b a : BlockMatrix R) : Prop := ∀ r c, (a.get? r c).isSome → (b.get? r c).isSome

/-- A block that is there stays when another is added. -/
theorem hasBlocksOf_insertOrAdd {row col : String} {l : LinearMap R}
    (h : a.insertOrAdd row col l = .ok b) : b.HasBlocksOf a ∧ (b.get? row col).isSome := by
  obtain ⟨-, -, -, -, s, hget, -⟩ := insertOrAdd_eq_ok h
  refine ⟨fun r c ha => ?_, by rw [hget, if_pos ⟨rfl, rfl⟩]; rfl⟩
  rw [hget]
  split
  · rfl
  · exact ha

theorem hasBlocksOf_pairs {t : LinearMap R} {c₁ : String} {row : List (String × LinearMap R)}
    (h : row.foldlM (fun g c₂ => do g.insertOrAdd c₁ c₂.1 (← t.mul c₂.2)) a = .ok b) :
    b.HasBlocksOf a ∧ ∀ c₂ ∈ row, (b.get? c₁ c₂.1).isSome := by
  have hstep (g g' : BlockMatrix R) (c₂ : String × LinearMap R)
      (hg : (do g.insertOrAdd c₁ c₂.1 (← t.mul c₂.2)) = .ok g') :
      g'.HasBlocksOf g ∧ (g'.get? c₁ c₂.1).isSome := by
    obtain ⟨s, -, hg⟩ := bind_eq_ok.1 hg
    exact hasBlocksOf_insertOrAdd hg
  exact ⟨foldlM_invariant (·.HasBlocksOf a)
      (fun c₂ _ g g' hg h r c ha => (hstep g g' c₂ h).1 r c (hg r c ha)) (fun _ _ => id) h,
    foldlM_establishes (fun c₂ g => (g.get? c₁ c₂.1).isSome)
      (fun _ c₂ _ g g' hg h => (hstep g g' c₂ h).1 _ _ hg) (fun c₂ _ g g' h => (hstep g g' c₂ h).2) h⟩

theorem hasBlocksOf_gramRow {row : Keyed (LinearMap R)} (h : gramRow a row = .ok b) :
    b.HasBlocksOf a ∧ ∀ c₁ ∈ row.entries, ∀ c₂ ∈ row.entries, (b.get? c₁.1 c₂.1).isSome := by
  have hstep (g g' : BlockMatrix R) (c₁ : String × LinearMap R)
      (hg : (do
        let t ← c₁.2.transpose
        row.entries.foldlM (fun (g : BlockMatrix R) (c₂ : String × LinearMap R) => do
          g.insertOrAdd c₁.1 c₂.1 (← t.mul c₂.2)) g) = .ok g') :
      g'.HasBlocksOf g ∧ ∀ c₂ ∈ row.entries, (g'.get? c₁.1 c₂.1).isSome := by
    obtain ⟨t, -, hg⟩ := bind_eq_ok.1 hg
    exact hasBlocksOf_pairs hg
  exact ⟨foldlM_invariant (·.HasBlocksOf a)
      (fun c₁ _ g g' hg h r c ha => (hstep g g' c₁ h).1 r c (hg r c ha)) (fun _ _ => id) h,
    foldlM_establishes (fun c₁ g => ∀ c₂ ∈ row.entries, (g.get? c₁.1 c₂.1).isSome)
      (fun _ c₁ _ g g' hg h c₂ hc₂ => (hstep g g' c₁ h).1 _ _ (hg c₂ hc₂))
      (fun c₁ _ g g' h => (hstep g g' c₁ h).2) h⟩

/-- The Gram matrix has a block for each pair of columns that have blocks in one row. -/
theorem isSome_get?_gram (hg : a.gram = .ok g) {r c c' : String} {l l' : LinearMap R}
    (hl : a.get? r c = some l) (hl' : a.get? r c' = some l') : (g.get? c c').isSome := by
  obtain ⟨row, hr, hc⟩ := get?_eq_some_iff.1 hl
  have hc' : (c', l') ∈ row.entries := by
    rw [get?, Keyed.get?_eq_some_iff.2 hr] at hl'
    exact Keyed.get?_eq_some_iff.1 hl'
  have hrow : row ∈ a.blocks.values := List.mem_map.2 ⟨(r, row), hr, rfl⟩
  exact foldlM_establishes
    (fun row g => ∀ c₁ ∈ row.entries, ∀ c₂ ∈ row.entries, (g.get? c₁.1 c₂.1).isSome)
    (fun _ _ _ g g' hg h c₁ hc₁ c₂ hc₂ => (hasBlocksOf_gramRow h).1 _ _ (hg c₁ hc₁ c₂ hc₂))
    (fun _ _ g g' h => (hasBlocksOf_gramRow h).2) hg row hrow (c, l) hc (c', l') hc'

/-- It has no other blocks. -/
theorem exists_of_get?_gram (hg : a.gram = .ok g) {c c' : String} (hd : (g.get? c c').isSome) :
    ∃ r l l', a.get? r c = some l ∧ a.get? r c' = some l' := by
  let Paired (g : BlockMatrix R) : Prop :=
    ∀ c c', (g.get? c c').isSome → ∃ r l l', a.get? r c = some l ∧ a.get? r c' = some l'
  have hempty : Paired empty := by
    intro c c' hsome
    cases hsome
  refine foldlM_invariant Paired (fun row hrow g₁ g₂ hP h₁ => ?_) hempty hg c c' hd
  obtain ⟨⟨r, row'⟩, hr, hrr⟩ := List.mem_map.1 hrow
  obtain rfl : row' = row := hrr
  refine foldlM_invariant Paired (fun c₁ hc₁ g₁ g₂ hP h₁ => ?_) hP h₁
  obtain ⟨t, -, h₁⟩ := bind_eq_ok.1 h₁
  refine foldlM_invariant Paired (fun c₂ hc₂ g₁ g₂ hP h₂ => ?_) hP h₁
  obtain ⟨s, -, h₂⟩ := bind_eq_ok.1 h₂
  obtain ⟨-, -, -, -, s', hget, -⟩ := insertOrAdd_eq_ok h₂
  intro c c' hsome
  rw [hget] at hsome
  split at hsome
  · rename_i hplace
    obtain ⟨rfl, rfl⟩ := hplace
    exact ⟨r, c₁.2, c₂.2, get?_eq_some_iff.2 ⟨row', hr, hc₁⟩, get?_eq_some_iff.2 ⟨row', hr, hc₂⟩⟩
  · exact hP c c' hsome

/-- The rows and the columns of the Gram matrix have the sizes of the columns. -/
theorem Stands.extends_gram [e.Complete] (h : a.Stands e K) (hg : a.gram = .ok g) :
    a.colDims.Extends g.rowDims ∧ a.colDims.Extends g.colDims := by
  let Within (g : BlockMatrix R) : Prop := a.colDims.Extends g.rowDims ∧ a.colDims.Extends g.colDims
  have hempty : Within empty := ⟨Keyed.extends_empty _, Keyed.extends_empty _⟩
  refine foldlM_invariant Within (fun row hrow g₁ g₂ hP h₁ => ?_) hempty hg
  obtain ⟨⟨r, row'⟩, hr, hrr⟩ := List.mem_map.1 hrow
  obtain rfl : row' = row := hrr
  have hblock {cl : String × LinearMap R} (hcl : cl ∈ row'.entries) : a.get? r cl.1 = some cl.2 :=
    get?_eq_some_iff.2 ⟨row', hr, hcl⟩
  refine foldlM_invariant Within (fun c₁ hc₁ g₁ g₂ hP h₁ => ?_) hP h₁
  obtain ⟨t, ht, h₁⟩ := bind_eq_ok.1 h₁
  refine foldlM_invariant Within (fun c₂ hc₂ g₁ g₂ hP h₂ => ?_) hP h₁
  obtain ⟨s, hs, h₂⟩ := bind_eq_ok.1 h₂
  obtain ⟨-, -, hrows, hcols, -⟩ := insertOrAdd_eq_ok h₂
  have hprod := stands_pair (h.bears (hblock hc₁)) (h.bears (hblock hc₂)) ht hs
  refine ⟨?_, ?_⟩
  · rw [hrows, hprod.rows]
    exact hP.1.insert (h.cols (hblock hc₁))
  · rw [hcols, hprod.cols]
    exact hP.2.insert (h.cols (hblock hc₂))

theorem Represents.extends_gram (h : a.Represents w K) (hg : a.gram = .ok g) :
    a.colDims.Extends g.rowDims ∧ a.colDims.Extends g.colDims := h.stands.extends_gram hg

/-! ## Multiples of the identity -/

/-- The blocks that have a scalar in common are on the diagonal. -/
theorem commonScalar_eq_some {bs : List (Block R)} {prev : Option R} {alpha : R}
    (h : commonScalar bs prev = .ok (some alpha)) : (∀ v, prev = some v → v = alpha) ∧
      ∀ b ∈ bs, b.row = b.col ∧ b.map.scalar? = .ok (some alpha) := by
  induction bs generalizing prev with
  | nil =>
    cases h
    exact ⟨fun v hv => (Option.some.inj hv).symm, fun _ hb => absurd hb List.not_mem_nil⟩
  | cons b bs ih =>
    rw [commonScalar] at h
    split at h
    · cases h
    · rename_i hdiag
      have hdiag : b.row = b.col := by simpa using hdiag
      obtain ⟨o, ho, h⟩ := bind_eq_ok.1 h
      cases o with
      | none => cases h
      | some v =>
        cases prev with
        | none =>
          obtain ⟨hv, hbs⟩ := ih h
          obtain rfl := hv v rfl
          exact ⟨nofun, List.forall_mem_cons.2 ⟨⟨hdiag, ho⟩, hbs⟩⟩
        | some u =>
          have h : (if (u == v) = true then commonScalar bs (some u) else pure none)
            = .ok (some alpha) := h
          split at h
          · rename_i huv
            obtain ⟨hu, hbs⟩ := ih h
            obtain rfl := hu u rfl
            cases beq_iff_eq.1 huv
            exact ⟨fun v hv => (Option.some.inj hv).symm, List.forall_mem_cons.2 ⟨⟨hdiag, ho⟩, hbs⟩⟩
          · cases h

/-- If the Gram matrix shows a scalar, then the columns that have blocks are orthogonal and all have
    the scalar as the square of their length. -/
theorem Represents.gram_scalar? (h : a.Represents w K) (hg : a.gram = .ok g) {alpha : R}
    (hs : g.scalar? = .ok (some alpha)) {r c r' c' : String} {l l' : LinearMap R}
    (hl : a.get? r c = some l) (hl' : a.get? r' c' = some l') {i j : Nat} (hi : i < l.n)
    (hj : j < l'.n) : ∑ p ∈ cells a.rowDims, K p.1 c p.2 i * K p.1 c' p.2 j
      = if c = c' ∧ i = j then alpha else 0 := by
  have hgram := h.gram hg
  obtain ⟨-, hcommon⟩ := commonScalar_eq_some hs
  by_cases hc : c = c'
  · subst hc
    obtain ⟨d, hd⟩ := Option.isSome_iff_exists.1 (isSome_get?_gram hg hl hl)
    obtain ⟨-, hscalar⟩ := hcommon ⟨c, c, d⟩ (mem_toList.2 hd)
    obtain ⟨-, hentries⟩ := (hgram.denotes hd).means.scalar? hscalar
    have hn {l : LinearMap R} {r : String} (hl : a.get? r c = some l) : d.n = l.n :=
      Option.some.inj (((h.extends_gram hg).2 c d.n (hgram.cols hd)).symm.trans (h.cols hl))
    rw [hentries i j (hn hl ▸ hi) (hn hl' ▸ hj), if_congr (and_iff_right rfl) rfl rfl]
  · rw [if_neg fun hp => hc hp.1]
    refine hgram.eq_zero ?_ i j
    by_contra hsome
    obtain ⟨d, hd⟩ := Option.ne_none_iff_exists'.1 hsome
    exact hc (hcommon ⟨c, c', d⟩ (mem_toList.2 hd)).1

end BlockMatrix

end BlockAdmm
