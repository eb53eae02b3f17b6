/-
  Block vectors and block matrices under other names.

  Names only keep blocks apart, so what is computed from blocks under other names are the same blocks under the
  other names.  Two things have to be shown for that.  The blocks are walked through in the order of their names,
  so the sums over a row come in another order; over an exact reading they are the same (`Renamed.apply`).  And
  whether a product has a value does not depend on the names either, since that is a matter of the sizes and of
  the room for each single block (`BlockMatrix.Sized.exists_apply_iff`).

  Blocks are also allowed to differ in their marks, which matter for nothing (`LinearMap.Alike`).
-/
import BlockAdmm.Proofs.Block.Coefs
import BlockAdmm.Proofs.Block.Fits
import BlockAdmm.Proofs.LinearMap.Bare

namespace BlockAdmm

open Scalar ExactScalar

variable {R : Type} {α : Type}

/-! ## Finite maps -/

namespace Keyed

/-- `m.Renamed ρ m'`: what `m` has under a name, `m'` has under the name that `ρ` gives it. -/
def Renamed (ρ : Equiv.Perm String) (m m' : Keyed α) : Prop := ∀ k, m'.get? (ρ k) = m.get? k

variable {ρ : Equiv.Perm String} {m m' : Keyed α}

theorem Renamed.symm (h : m.Renamed ρ m') : m'.Renamed ρ.symm m := by
  intro k
  rw [← h, Equiv.apply_symm_apply]

/-- What stands under a name stands under the other, and nothing else does. -/
theorem renamed_of (h : ∀ k v, m.get? k = some v → m'.get? (ρ k) = some v)
    (h' : ∀ k v, m'.get? (ρ k) = some v → ∃ v, m.get? k = some v) : m.Renamed ρ m' := by
  intro k
  cases hk : m.get? k with
  | some v => exact h k v hk
  | none =>
    refine Option.eq_none_iff_forall_ne_some.2 fun v hv => ?_
    obtain ⟨v', hv'⟩ := h' k v hv
    cases hk.symm.trans hv'

/-- Under the same names there is one map with the same values. -/
theorem renamed_refl_iff : m.Renamed (Equiv.refl String) m' ↔ m' = m := by
  constructor
  · intro h
    exact ext_get? h
  · rintro rfl k
    rfl

theorem Renamed.insert (h : m.Renamed ρ m') (k : String) (v : α) :
    (m.insert k v).Renamed ρ (m'.insert (ρ k) v) := by
  intro k'
  rw [get?_insert, get?_insert, h k']
  exact if_congr ρ.apply_eq_iff_eq rfl rfl

/-- The values come in another order. -/
theorem Renamed.values_perm (h : m.Renamed ρ m') : m.values.Perm m'.values := by
  have hnodup : (m.entries.map fun kv => (ρ kv.1, kv.2)).Nodup := by
    refine (List.Nodup.of_map Prod.fst m.nodup_keys).map fun kv kv' heq => ?_
    obtain ⟨hk, hv⟩ := Prod.mk.inj heq
    exact Prod.ext (ρ.injective hk) hv
  have hperm : (m.entries.map fun kv => (ρ kv.1, kv.2)).Perm m'.entries := by
    refine (List.perm_ext_iff_of_nodup hnodup (List.Nodup.of_map Prod.fst m'.nodup_keys)).2 fun kv => ?_
    rw [← get?_eq_some_iff, List.mem_map]
    constructor
    · rintro ⟨kv, hkv, rfl⟩
      rw [h]
      exact get?_eq_some_iff.2 hkv
    · intro hkv
      refine ⟨(ρ.symm kv.1, kv.2), get?_eq_some_iff.1 ?_, ?_⟩
      · rw [← h, Equiv.apply_symm_apply]
        exact hkv
      · rw [Equiv.apply_symm_apply]
  have hvalues := hperm.map Prod.snd
  rw [List.map_map] at hvalues
  exact hvalues

end Keyed

/-- A sum over the cells of renamed sizes. -/
theorem sum_cells_renamed {M : Type} [AddCommMonoid M] {ρ : Equiv.Perm String} {D D' : Keyed Nat}
    (h : D.Renamed ρ D') (f : Cell → M) : ∑ p ∈ cells D', f p = ∑ p ∈ cells D, f ⟨ρ p.1, p.2⟩ := by
  refine (Finset.sum_bij (fun (p : Cell) _ => (⟨ρ p.1, p.2⟩ : Cell)) (fun p hp => ?_) (fun p _ q _ heq => ?_)
    (fun q hq => ?_) fun _ _ => rfl).symm
  · obtain ⟨n, hn, hlt⟩ := mem_cells.1 hp
    exact mem_cells.2 ⟨n, (h p.1).trans hn, hlt⟩
  · obtain ⟨k, i⟩ := p
    obtain ⟨k', i'⟩ := q
    obtain ⟨hk, hi⟩ := Sigma.mk.inj heq
    cases ρ.injective hk
    cases hi
    rfl
  · obtain ⟨n, hn, hlt⟩ := mem_cells.1 hq
    refine ⟨⟨ρ.symm q.1, q.2⟩, mem_cells.2 ⟨n, ?_, hlt⟩, ?_⟩
    · rw [← h, Equiv.apply_symm_apply]
      exact hn
    · obtain ⟨k, i⟩ := q
      simp only [Equiv.apply_symm_apply]

/-! ## Block vectors -/

namespace BlockVector

/-- `x.Renamed ρ x'`: the blocks of `x` under other names. -/
def Renamed (ρ : Equiv.Perm String) (x x' : BlockVector R) : Prop := x.blocks.Renamed ρ x'.blocks

variable {ρ : Equiv.Perm String} {x x' y y' z z' : BlockVector R}

theorem renamed_refl_iff : x.Renamed (Equiv.refl String) x' ↔ x' = x := by
  rw [Renamed, Keyed.renamed_refl_iff]
  constructor
  · intro h
    cases x
    cases x'
    exact congrArg mk h
  · rintro rfl
    rfl

theorem renamed_empty (ρ : Equiv.Perm String) : (empty : BlockVector R).Renamed ρ empty := fun _ => rfl

theorem Renamed.get? (h : x.Renamed ρ x') (k : String) : x'.get? (ρ k) = x.get? k := h k

theorem Renamed.sizeAt? (h : x.Renamed ρ x') (k : String) : x'.sizeAt? (ρ k) = x.sizeAt? k :=
  congrArg (Option.map Array.size) (h k)

theorem Renamed.dim_eq (h : x.Renamed ρ x') : x'.dim = x.dim := by
  have hsizes : (x.blocks.map Array.size).Renamed ρ (x'.blocks.map Array.size) := by
    intro k
    rw [Keyed.get?_map, Keyed.get?_map, h k]
  exact hsizes.values_perm.symm.sum_eq

variable [ExactScalar R]

theorem Renamed.coord (h : x.Renamed ρ x') (k : String) (i : Nat) : x'.coord (ρ k) i = x.coord k i := by
  rw [BlockVector.coord, h.get? k]
  rfl

omit [ExactScalar R] in
theorem Renamed.insert (h : x.Renamed ρ x') (k : String) (v : Array R) :
    (x.insert k v).Renamed ρ (x'.insert (ρ k) v) := Keyed.Renamed.insert h k v

/-- One block of a sum. -/
theorem Renamed.increase (h : x.Renamed ρ x') {k : String} {a : R} {v : Array R} (hy : x.increase k a v = .ok y)
    (hy' : x'.increase (ρ k) a v = .ok y') : y.Renamed ρ y' := by
  obtain ⟨-, rfl⟩ := increase_eq_ok.1 hy
  obtain ⟨-, rfl⟩ := increase_eq_ok.1 hy'
  rw [h.get?]
  exact h.insert k _

/-- Blocks of one length with the same entries are one block. -/
theorem get?_eq_of_coord {k k' : String} (hsize : y.sizeAt? k' = x.sizeAt? k)
    (hcoord : ∀ i, y.coord k' i = x.coord k i) : y.get? k' = x.get? k := by
  cases hx : x.get? k with
  | none => rwa [sizeAt?_eq_none_iff.2 hx, sizeAt?_eq_none_iff] at hsize
  | some u =>
    rw [sizeAt?_eq_some_iff.2 ⟨u, hx, rfl⟩, sizeAt?_eq_some_iff] at hsize
    obtain ⟨v, hv, hvu⟩ := hsize
    have hvu : v = u := by
      refine Vec.ext_entry hvu fun i _ => ?_
      rw [← coord_of_get? hv, ← coord_of_get? hx, hcoord]
    rw [hv, hvu]

/-- The sum of block vectors that have no name in common has the blocks of both. -/
theorem get?_addScaled_of_apart (h : x.addScaled 1 y = .ok z) (hapart : ∀ k, (y.get? k).isSome → x.get? k = none)
    (k : String) : z.get? k = (y.get? k).or (x.get? k) := by
  cases hy : y.get? k with
  | some v =>
    have hx : x.get? k = none := hapart k (by rw [hy]; rfl)
    rw [Option.some_or, ← hy]
    refine get?_eq_of_coord (x := y) (y := z) ?_ fun i => ?_
    · rw [sizeAt?_addScaled h, sizeAt?_eq_some_iff.2 ⟨v, hy, rfl⟩, Option.some_or]
    · rw [coord_addScaled h, coord_of_get?_none hx, one_mul, zero_add]
  | none =>
    rw [Option.none_or]
    refine get?_eq_of_coord (x := x) (y := z) ?_ fun i => ?_
    · rw [sizeAt?_addScaled h, sizeAt?_eq_none_iff.2 hy, Option.none_or]
    · rw [coord_addScaled h, coord_of_get?_none hy, mul_zero, add_zero]

/-- Block vectors can be added just if the blocks that both have are of one length. -/
theorem exists_addScaled_iff (a : R) :
    (∃ z, x.addScaled a y = .ok z) ↔ ∀ k m n, x.sizeAt? k = some m → y.sizeAt? k = some n → m = n := by
  refine ⟨?_, exists_addScaled a⟩
  rintro ⟨z, hz⟩ k m n hm hn
  -- the block of `x` is still there when its turn comes
  have hwalk (es : List (String × Array R)) (w : BlockVector R) (hnd : (es.map Prod.fst).Nodup)
      (hw : ∀ kv ∈ es, w.sizeAt? kv.1 = x.sizeAt? kv.1) (h : es.foldlM (increaseEach a) w = .ok z) :
      ∀ kv ∈ es, ∀ m, x.sizeAt? kv.1 = some m → m = kv.2.size := by
    induction es generalizing w with
    | nil => exact fun _ hkv => absurd hkv List.not_mem_nil
    | cons kv es ih =>
      rw [List.map_cons, List.nodup_cons] at hnd
      obtain ⟨r, hr, h⟩ := foldlM_cons_eq_ok.1 h
      have hr : w.increase kv.1 a kv.2 = .ok r := hr
      refine List.forall_mem_cons.2 ⟨fun m hm => ?_, ih r hnd.2 (fun kv' hkv' => ?_) h⟩
      · exact (increase_eq_ok.1 hr).1 m ((hw kv List.mem_cons_self).trans hm)
      · have hne : kv.1 ≠ kv'.1 := fun heq => hnd.1 (heq ▸ List.mem_map.2 ⟨kv', hkv', rfl⟩)
        rw [sizeAt?_increase hr, if_neg hne]
        exact hw kv' (List.mem_cons_of_mem _ hkv')
  obtain ⟨v, hv, rfl⟩ := sizeAt?_eq_some_iff.1 hn
  exact hwalk _ x y.blocks.nodup_keys (fun _ _ => rfl) hz (k, v) (Keyed.get?_eq_some_iff.1 hv) m hm

/-- A sum under other names. -/
theorem Renamed.addScaled (hx : x.Renamed ρ x') (hy : y.Renamed ρ y') (a : R) :
    Matched (Renamed ρ) (x.addScaled a y) (x'.addScaled a y') := by
  refine Matched.of_iff ?_ fun z z' hz hz' k => ?_
  · rw [exists_addScaled_iff, exists_addScaled_iff]
    constructor
    · intro h k m n hm hn
      refine h (ρ.symm k) m n ?_ ?_
      · rw [← hx.sizeAt?, Equiv.apply_symm_apply, hm]
      · rw [← hy.sizeAt?, Equiv.apply_symm_apply, hn]
    · intro h k m n hm hn
      exact h (ρ k) m n ((hx.sizeAt? k).trans hm) ((hy.sizeAt? k).trans hn)
  · refine get?_eq_of_coord (x := z) (y := z') ?_ fun i => ?_
    · rw [sizeAt?_addScaled hz', sizeAt?_addScaled hz, hx.sizeAt?, hy.sizeAt?]
    · rw [coord_addScaled hz', coord_addScaled hz, hx.coord, hy.coord]

theorem Renamed.norm_eq (h : x.Renamed ρ x') : x'.norm = x.norm := by
  have hperm := (h.values_perm.map fun v => Vec.inner v v).symm
  rw [norm, norm, total_eq_sum, total_eq_sum, hperm.sum_eq]

end BlockVector

/-! ## Block matrices -/

namespace LinearMap

variable [ExactScalar R] {l l' : LinearMap R}

@[simp] theorem coef_bare (l : LinearMap R) : l.bare.coef = l.coef := by
  induction l with
  | kronecker a b iha ihb =>
    funext r c
    simp only [bare, coef, iha, ihb, m_bare, n_bare]
  | dense | sparse | diagonal | scalar | opaqueMap => rfl

theorem Alike.coef_eq (h : l.Alike l') : l.coef = l'.coef := by
  rw [← coef_bare, h.bare, coef_bare]

end LinearMap

namespace BlockMatrix

section Blocks

/-- `a.Renamed ρ γ a'`: the blocks of `a`, which may have other marks, under the names that `ρ` gives the rows
    and `γ` the columns. -/
structure Renamed (ρ γ : Equiv.Perm String) (a a' : BlockMatrix R) : Prop where
  sized : a.Sized
  blocks : ∀ r c, (a'.get? (ρ r) (γ c)).map LinearMap.bare = (a.get? r c).map LinearMap.bare
  rows : a.rowDims.Renamed ρ a'.rowDims
  cols : a.colDims.Renamed γ a'.colDims

variable {ρ γ : Equiv.Perm String} {a a' t t' : BlockMatrix R} {r c : String} {l l' : LinearMap R}

/-- Where there are blocks on both sides and they differ in their marks. -/
theorem map_bare_eq {o o' : Option (LinearMap R)} (h : ∀ l, o = some l → ∃ l', o' = some l' ∧ l.Alike l')
    (h' : ∀ l', o' = some l' → ∃ l, o = some l) : o'.map LinearMap.bare = o.map LinearMap.bare := by
  cases o with
  | some l =>
    obtain ⟨l', rfl, hl⟩ := h l rfl
    exact congrArg some hl.bare.symm
  | none =>
    cases o' with
    | none => rfl
    | some l' =>
      obtain ⟨l, hl⟩ := h' l' rfl
      cases hl

namespace Renamed

theorem exists_right (h : a.Renamed ρ γ a') (hl : a.get? r c = some l) :
    ∃ l', a'.get? (ρ r) (γ c) = some l' ∧ l.Alike l' := by
  have hblocks := h.blocks r c
  rw [hl, Option.map_some, Option.map_eq_some_iff] at hblocks
  obtain ⟨l', hl', hbare⟩ := hblocks
  exact ⟨l', hl', h.sized.plain hl, hbare.symm⟩

theorem exists_left (h : a.Renamed ρ γ a') (hl' : a'.get? (ρ r) (γ c) = some l') :
    ∃ l, a.get? r c = some l ∧ l.Alike l' := by
  have hblocks := (h.blocks r c).symm
  rw [hl', Option.map_some, Option.map_eq_some_iff] at hblocks
  obtain ⟨l, hl, hbare⟩ := hblocks
  exact ⟨l, hl, h.sized.plain hl, hbare⟩

theorem sized_right (h : a.Renamed ρ γ a') : a'.Sized := by
  -- every place of `a'` is one of `a` under another name
  have hplace {r' c' : String} {l' : LinearMap R} (hl' : a'.get? r' c' = some l') :
      ∃ r c l, ρ r = r' ∧ γ c = c' ∧ a.get? r c = some l ∧ l.Alike l' := by
    obtain ⟨r, rfl⟩ := ρ.surjective r'
    obtain ⟨c, rfl⟩ := γ.surjective c'
    obtain ⟨l, hl, halike⟩ := h.exists_left hl'
    exact ⟨r, c, l, rfl, rfl, hl, halike⟩
  refine ⟨fun hl' => ?_, fun hl' => ?_, fun hl' => ?_⟩
  all_goals obtain ⟨r, c, l, rfl, rfl, hl, halike⟩ := hplace hl'
  · exact halike.plain_right
  · rw [h.rows r, h.sized.rows hl, halike.m_eq]
  · rw [h.cols c, h.sized.cols hl, halike.n_eq]

theorem symm (h : a.Renamed ρ γ a') : a'.Renamed ρ.symm γ.symm a := by
  refine ⟨h.sized_right, fun r' c' => ?_, h.rows.symm, h.cols.symm⟩
  have hblocks := (h.blocks (ρ.symm r') (γ.symm c')).symm
  rwa [Equiv.apply_symm_apply, Equiv.apply_symm_apply] at hblocks

end Renamed

/-- `a.Tight`: the matrix is sized, and only the rows and columns in which it has blocks have sizes. -/
structure Tight (a : BlockMatrix R) : Prop extends Sized a where
  row : ∀ {r m}, a.rowDims.get? r = some m → ∃ c l, a.get? r c = some l
  col : ∀ {c n}, a.colDims.get? c = some n → ∃ r l, a.get? r c = some l

theorem tight_empty : (empty : BlockMatrix R).Tight := ⟨sized_empty, nofun, nofun⟩

theorem tight_iff : a.Tight ↔ a.Sized ∧ a.Held :=
  ⟨fun h => ⟨h.toSized, h.row, h.col⟩, fun h => ⟨h.1, h.2.row, h.2.col⟩⟩

theorem Sized.tight_restrictCols (h : a.Sized) (cols : List String) : (a.restrictCols cols).Tight :=
  tight_iff.2 ⟨h.restrictCols cols, h.framed.held_restrictCols cols⟩

/-- The sizes of a tight matrix are those of its blocks, so the blocks are all there is to compare. -/
theorem Tight.renamed (h : a.Tight) (h' : a'.Tight)
    (hblocks : ∀ r c, (a'.get? (ρ r) (γ c)).map LinearMap.bare = (a.get? r c).map LinearMap.bare) :
    a.Renamed ρ γ a' := by
  -- what is still to be shown of the sizes is the same for rows and columns
  have hblock {r c : String} {l : LinearMap R} (hl : a.get? r c = some l) :
      ∃ l', a'.get? (ρ r) (γ c) = some l' ∧ l'.size = l.size := by
    have heq := hblocks r c
    rw [hl, Option.map_some, Option.map_eq_some_iff] at heq
    obtain ⟨l', hl', hbare⟩ := heq
    exact ⟨l', hl', by rw [← LinearMap.size_bare, hbare, LinearMap.size_bare]⟩
  have hback {r c : String} {l' : LinearMap R} (hl' : a'.get? (ρ r) (γ c) = some l') : ∃ l, a.get? r c = some l := by
    have heq := (hblocks r c).symm
    rw [hl', Option.map_some, Option.map_eq_some_iff] at heq
    obtain ⟨l, hl, -⟩ := heq
    exact ⟨l, hl⟩
  refine ⟨h.toSized, hblocks, Keyed.renamed_of (fun r m hr => ?_) fun r m hm => ?_,
    Keyed.renamed_of (fun c n hc => ?_) fun c n hn => ?_⟩
  · obtain ⟨c, l, hl⟩ := h.row hr
    obtain ⟨l', hl', hsize⟩ := hblock hl
    rw [h'.rows hl', ← hr, h.rows hl]
    exact congrArg some (congrArg Prod.fst hsize)
  · obtain ⟨c', l', hl'⟩ := h'.row hm
    obtain ⟨c, rfl⟩ := γ.surjective c'
    obtain ⟨l, hl⟩ := hback hl'
    exact ⟨l.m, h.rows hl⟩
  · obtain ⟨r, l, hl⟩ := h.col hc
    obtain ⟨l', hl', hsize⟩ := hblock hl
    rw [h'.cols hl', ← hc, h.cols hl]
    exact congrArg some (congrArg Prod.snd hsize)
  · obtain ⟨r', l', hl'⟩ := h'.col hn
    obtain ⟨r, rfl⟩ := ρ.surjective r'
    obtain ⟨l, hl⟩ := hback hl'
    exact ⟨l.n, h.cols hl⟩

/-- A restriction keeps the same columns under their names. -/
theorem Renamed.restrictCols (h : a.Renamed ρ (Equiv.refl String) a') (cols : List String) :
    (a.restrictCols cols).Renamed ρ (Equiv.refl String) (a'.restrictCols cols) := by
  refine (h.sized.tight_restrictCols cols).renamed (h.sized_right.tight_restrictCols cols) fun r c => ?_
  have hcols : Equiv.refl String c = c := rfl
  rw [hcols, get?_restrictCols, get?_restrictCols]
  split
  · exact h.blocks r c
  · rfl

/-- A transpose has the names of the rows for its columns. -/
theorem Renamed.transpose [Scalar R] (h : a.Renamed ρ γ a') (ht : a.transpose = .ok t)
    (ht' : a'.transpose = .ok t') : t.Renamed γ ρ t' := by
  obtain ⟨hrows, hcols, -⟩ := transpose_eq_ok ht
  obtain ⟨hrows', hcols', -⟩ := transpose_eq_ok ht'
  -- each block of the transpose, with the block on the other side
  have hright {a a' t t' : BlockMatrix R} {ρ γ : Equiv.Perm String} (h : a.Renamed ρ γ a')
      (ht : a.transpose = .ok t) (ht' : a'.transpose = .ok t') (c r : String) (l : LinearMap R)
      (hl : t.get? c r = some l) : ∃ l', t'.get? (γ c) (ρ r) = some l' ∧ l.Alike l' := by
    obtain ⟨k, hk, hl⟩ := (get?_transpose ht).1 hl
    obtain ⟨k', hk', halike⟩ := h.exists_right hk
    have hboth := halike.transpose
    rw [hl] at hboth
    cases hl' : k'.transpose with
    | error f =>
      rw [hl'] at hboth
      exact hboth.elim
    | ok l' =>
      rw [hl'] at hboth
      exact ⟨l', (get?_transpose ht').2 ⟨k', hk', hl'⟩, hboth⟩
  refine ⟨h.sized.of_transpose ht, fun c r => map_bare_eq (hright h ht ht' c r) fun l' hl' => ?_, ?_, ?_⟩
  · obtain ⟨l, hl, -⟩ := hright h.symm ht' ht (γ c) (ρ r) l' hl'
    rw [Equiv.symm_apply_apply, Equiv.symm_apply_apply] at hl
    exact ⟨l, hl⟩
  · rw [hrows, hrows']
    exact h.cols
  · rw [hcols, hcols']
    exact h.rows

/-- A map that is added to a block. -/
theorem Renamed.insertOrAdd [ExactScalar R] {b b' : BlockMatrix R} (h : a.Renamed ρ γ a') (hl : l.Alike l')
    (hb : a.insertOrAdd r c l = .ok b) (hb' : a'.insertOrAdd (ρ r) (γ c) l' = .ok b') : b.Renamed ρ γ b' := by
  obtain ⟨-, -, hrows, hcols, s, hget, hs⟩ := insertOrAdd_eq_ok hb
  obtain ⟨-, -, hrows', hcols', s', hget', hs'⟩ := insertOrAdd_eq_ok hb'
  have hsum : s.bare = s'.bare := by
    rcases hs with ⟨hnone, rfl⟩ | ⟨prev, hprev, hs⟩
    · rcases hs' with ⟨-, rfl⟩ | ⟨prev', hprev', -⟩
      · exact hl.bare
      · obtain ⟨prev, hprev, -⟩ := h.exists_left hprev'
        cases hnone.symm.trans hprev
    · obtain ⟨prev', hprev', halike⟩ := h.exists_right hprev
      rcases hs' with ⟨hnone, -⟩ | ⟨prev'', hprev'', hs'⟩
      · cases hnone.symm.trans hprev'
      · cases hprev''.symm.trans hprev'
        have hboth := halike.add hl
        rw [hs, hs'] at hboth
        exact hboth.bare
  refine ⟨h.sized.of_insertOrAdd hl.plain hb, fun r₁ c₁ => ?_, ?_, ?_⟩
  · rw [hget, hget']
    by_cases hplace : r = r₁ ∧ c = c₁
    · rw [if_pos hplace, if_pos ⟨congrArg ρ hplace.1, congrArg γ hplace.2⟩]
      exact congrArg some hsum.symm
    · rw [if_neg hplace, if_neg fun h => hplace ⟨ρ.injective h.1, γ.injective h.2⟩]
      exact h.blocks r₁ c₁
  · rw [hrows, hrows', ← hl.m_eq]
    exact h.rows.insert r l.m
  · rw [hcols, hcols', ← hl.n_eq]
    exact h.cols.insert c l.n

end Blocks

/-! ## Sums -/

section Sums

variable [ExactScalar R] {a b s : BlockMatrix R}

theorem Tight.insertOrAdd (h : a.Tight) {row col : String} {l : LinearMap R} (hl : l.Plain)
    (hb : a.insertOrAdd row col l = .ok b) : b.Tight :=
  tight_iff.2 ⟨h.toSized.of_insertOrAdd hl hb, (tight_iff.1 h).2.insertOrAdd hb⟩

theorem Tight.add (h : a.Tight) (hb : b.Sized) (hs : a.add b = .ok s) : s.Tight :=
  foldlM_invariant Tight (fun _ hblk _ _ hg hg' => hg.insertOrAdd (hb.plain (mem_toList.1 hblk)) hg') h hs

end Sums

/-! ## Products -/

section Products

variable {ρ γ : Equiv.Perm String} {a a' : BlockMatrix R} {x x' y y' : BlockVector R}

theorem applyBlock_eq_ok [Scalar R] {blk : Block R} {z : BlockVector R} (h : applyBlock x y blk = .ok z) :
    (x.get? blk.col = none ∧ z = y) ∨ ∃ v u, x.get? blk.col = some v ∧ v.size = blk.map.n ∧
      blk.map.apply v = .ok u ∧ y.insertOrAdd blk.row u = .ok z := by
  rw [applyBlock] at h
  cases hx : x.get? blk.col with
  | none =>
    rw [hx] at h
    exact Or.inl ⟨rfl, (Except.ok.inj h).symm⟩
  | some v =>
    rw [hx] at h
    dsimp only at h
    split at h
    · obtain ⟨_, h, -⟩ := bind_eq_ok.1 h
      exact absurd h fail_ne_ok
    · rename_i hsize
      obtain ⟨u, hu, h⟩ := bind_eq_ok.1 h
      exact Or.inr ⟨v, u, rfl, by simpa using hsize, hu, h⟩

variable [ExactScalar R]

/-- A matrix without functions can be applied just if each block that meets one of the vector fits it and has
    room. -/
theorem Sized.exists_apply_iff (ha : a.Sized) : (∃ y, a.apply x = .ok y) ↔
    ∀ r c l, a.get? r c = some l → ∀ v, x.get? c = some v → v.size = l.n ∧ l.Fits := by
  constructor
  · rintro ⟨y, hy⟩ r c l hl v hv
    have hsteps := foldlM_establishes (fun blk (_ : BlockVector R) => ∃ y z, applyBlock x y blk = .ok z)
      (fun _ _ _ _ _ h _ => h) (fun _ _ s t h => ⟨s, t, h⟩) hy
    obtain ⟨y', z, hstep⟩ := hsteps ⟨r, c, l⟩ (mem_toList.2 hl)
    rcases applyBlock_eq_ok hstep with ⟨hnone, -⟩ | ⟨v', u, hv', hsize, hu, -⟩
    · cases hnone.symm.trans hv
    · cases hv'.symm.trans hv
      refine ⟨hsize, ?_⟩
      by_contra hfits
      rw [((ha.plain hl).apply hsize).breach hfits] at hu
      cases hu
  · intro h
    have hsizes : ∀ blk ∈ a.toList, ∀ m, x.sizeAt? blk.col = some m → m = blk.map.n := by
      intro blk hblk m hm
      obtain ⟨v, hv, rfl⟩ := BlockVector.sizeAt?_eq_some_iff.1 hm
      exact (h _ _ _ (mem_toList.1 hblk) v hv).1
    have hplain : ∀ blk ∈ a.toList, blk.map.Plain := fun blk hblk => ha.plain (mem_toList.1 hblk)
    refine ((ha.represents noMarks).okIff_apply hplain hsizes).ok fun blk hblk => ?_
    cases hv : x.get? blk.col with
    | none => exact Or.inl rfl
    | some v => exact Or.inr (h _ _ _ (mem_toList.1 hblk) v hv).2

/-- A product has the rows in which a block meets one of the vector. -/
theorem isSome_get?_apply (hy : a.apply x = .ok y) (r : String) :
    (y.get? r).isSome ↔ ∃ c l, a.get? r c = some l ∧ (x.get? c).isSome := by
  have hinsert {y z : BlockVector R} {k : String} {u : Array R} (h : y.insertOrAdd k u = .ok z) (r : String) :
      (z.get? r).isSome ↔ k = r ∨ (y.get? r).isSome := by
    obtain ⟨-, rfl⟩ := BlockVector.increase_eq_ok.1 h
    rw [BlockVector.get?, BlockVector.insert, Keyed.get?_insert]
    split
    · rename_i hk
      simp [hk]
    · rename_i hk
      simp [hk, BlockVector.get?]
  constructor
  · refine foldlM_invariant (fun y => ∀ r, (y.get? r).isSome → ∃ c l, a.get? r c = some l ∧ (x.get? c).isSome)
      (fun blk hblk y z hP hz r hr => ?_) (fun r hr => ?_) hy r
    · rcases applyBlock_eq_ok hz with ⟨-, rfl⟩ | ⟨v, u, hv, -, -, hz⟩
      · exact hP r hr
      · rcases (hinsert hz r).1 hr with rfl | hr
        · exact ⟨blk.col, blk.map, mem_toList.1 hblk, by rw [hv]; rfl⟩
        · exact hP r hr
    · cases hr
  · rintro ⟨c, l, hl, hx⟩
    refine foldlM_establishes (fun blk y => (x.get? blk.col).isSome → (y.get? blk.row).isSome)
      (fun blk blk' _ y z hP hz hx => ?_) (fun blk _ y z hz hx => ?_) hy ⟨r, c, l⟩ (mem_toList.2 hl) hx
    · rcases applyBlock_eq_ok hz with ⟨-, rfl⟩ | ⟨v, u, -, -, -, hz⟩
      · exact hP hx
      · exact (hinsert hz _).2 (Or.inr (hP hx))
    · rcases applyBlock_eq_ok hz with ⟨hnone, -⟩ | ⟨v, u, -, -, -, hz⟩
      · rw [hnone] at hx
        cases hx
      · exact (hinsert hz _).2 (Or.inl rfl)

namespace Renamed

theorem coef (h : a.Renamed ρ γ a') (r c : String) : a'.coef (ρ r) (γ c) = a.coef r c := by
  funext i j
  rw [BlockMatrix.coef, BlockMatrix.coef]
  cases hl : a.get? r c with
  | some l =>
    obtain ⟨l', hl', halike⟩ := h.exists_right hl
    simp only [hl', halike.m_eq, halike.n_eq, halike.coef_eq]
  | none =>
    cases hl' : a'.get? (ρ r) (γ c) with
    | none => rfl
    | some l' =>
      obtain ⟨l, hl₁, -⟩ := h.exists_left hl'
      cases hl.symm.trans hl₁

/-- The product of a point with the coefficients, in another order. -/
theorem product (h : a.Renamed ρ γ a') {u u' : String → Nat → R} (hu : ∀ c j, u' (γ c) j = u c j) (r : String)
    (i : Nat) : a'.product u' (ρ r) i = a.product u r i := by
  rw [BlockMatrix.product, BlockMatrix.product, sumCells, sumCells, sum_cells_renamed h.cols]
  exact Finset.sum_congr rfl fun p _ => by rw [h.coef, hu]

/-- A product under other names. -/
theorem apply (h : a.Renamed ρ γ a') (hx : x.Renamed γ x') :
    Matched (BlockVector.Renamed ρ) (a.apply x) (a'.apply x') := by
  -- what can be applied on one side can be applied on the other
  have hside {a a' : BlockMatrix R} {ρ γ : Equiv.Perm String} {x x' : BlockVector R} (h : a.Renamed ρ γ a')
      (hx : x.Renamed γ x') (hy : ∃ y, a'.apply x' = .ok y) : ∃ y, a.apply x = .ok y := by
    rw [h.sized_right.exists_apply_iff] at hy
    rw [h.sized.exists_apply_iff]
    intro r c l hl v hv
    obtain ⟨l', hl', halike⟩ := h.exists_right hl
    obtain ⟨hsize, hfits⟩ := hy _ _ _ hl' v ((hx.get? c).trans hv)
    exact ⟨hsize.trans halike.n_eq.symm, halike.fits_iff.2 hfits⟩
  have hrows {a a' : BlockMatrix R} {ρ γ : Equiv.Perm String} {x x' y y' : BlockVector R} (h : a.Renamed ρ γ a')
      (hx : x.Renamed γ x') (hy : a.apply x = .ok y) (hy' : a'.apply x' = .ok y') (r : String)
      (hr : (y.get? r).isSome) : (y'.get? (ρ r)).isSome := by
    obtain ⟨c, l, hl, hc⟩ := (isSome_get?_apply hy r).1 hr
    obtain ⟨l', hl', -⟩ := h.exists_right hl
    exact (isSome_get?_apply hy' _).2 ⟨γ c, l', hl', by rw [hx.get?]; exact hc⟩
  refine Matched.of_iff ⟨hside h.symm hx.symm, hside h hx⟩ fun y y' hy hy' r => ?_
  refine BlockVector.get?_eq_of_coord (x := y) (y := y') ?_ fun i => ?_
  · -- a block that is there has the size of its row
    have hsize (k : Nat) (hk : y.sizeAt? r = some k) : y'.sizeAt? (ρ r) = some k := by
      obtain ⟨v, hv, -⟩ := BlockVector.sizeAt?_eq_some_iff.1 hk
      obtain ⟨v', hv'⟩ := Option.isSome_iff_exists.1 (hrows h hx hy hy' r (by rw [hv]; rfl))
      have hk' := (h.sized_right.represents noMarks).sizeAt?_apply hy'
        (BlockVector.sizeAt?_eq_some_iff.2 ⟨v', hv', rfl⟩)
      rw [h.rows r, (h.sized.represents noMarks).sizeAt?_apply hy hk] at hk'
      rw [BlockVector.sizeAt?_eq_some_iff]
      exact ⟨v', hv', (Option.some.inj hk').symm⟩
    cases hk : y.sizeAt? r with
    | some k => exact hsize k hk
    | none =>
      rw [BlockVector.sizeAt?_eq_none_iff] at hk ⊢
      by_contra hne
      have hback := hrows h.symm hx.symm hy' hy (ρ r) (Option.isSome_iff_ne_none.2 hne)
      rw [Equiv.symm_apply_apply, hk] at hback
      cases hback
  · rw [h.sized_right.product_eq hy', h.sized.product_eq hy]
    exact h.product hx.coord r i

end Renamed

end Products

end BlockMatrix

end BlockAdmm
