/-
  Block vectors as points.

  A block vector gives a scalar to each name and index, zero where it has nothing (`coord`), and over
  an exact reading its operations are those of points: what is added under a name is added there
  (`coord_increase`), and a sum of block vectors is the sum of the points (`coord_addScaled`).  The
  square of the norm is the sum of the squares of all coordinates, over any names and bounds that
  cover the blocks (`normSq_eq_sum`).
-/
import BlockAdmm.Proofs.Keyed
import BlockAdmm.Proofs.Outcome
import BlockAdmm.Proofs.Vec
import BlockAdmm.Block.Vector

namespace BlockAdmm.BlockVector

open Scalar ExactScalar

/-- `x.sizeAt? k`: the length of the block under a name. -/
def sizeAt? {R : Type} (x : BlockVector R) (k : String) : Option Nat := (x.get? k).map Array.size

/-- `x.coord k i`: entry `i` of the block under a name, zero where there is none. -/
def coord {R : Type} [Scalar R] (x : BlockVector R) (k : String) (i : Nat) : R :=
  Vec.entry ((x.get? k).getD #[]) i

section Sizes

variable {R : Type}

theorem sizeAt?_empty (k : String) : (empty : BlockVector R).sizeAt? k = none := rfl

theorem sizeAt?_eq_none_iff {x : BlockVector R} {k : String} : x.sizeAt? k = none ↔ x.get? k = none :=
  Option.map_eq_none_iff

theorem sizeAt?_eq_some_iff {x : BlockVector R} {k : String} {n : Nat} :
    x.sizeAt? k = some n ↔ ∃ v, x.get? k = some v ∧ v.size = n := Option.map_eq_some_iff

theorem sizeAt?_insert (x : BlockVector R) (k k' : String) (v : Array R) :
    (x.insert k v).sizeAt? k' = if k = k' then some v.size else x.sizeAt? k' := by
  rw [sizeAt?, get?, insert, Keyed.get?_insert]
  split <;> rfl

end Sizes

variable {R : Type} [ExactScalar R] {x y z : BlockVector R} {k : String} {v : Array R} {i : Nat}

/-! ## Points -/

omit [ExactScalar R] in
theorem coord_of_get? [Scalar R] (h : x.get? k = some v) (i : Nat) : x.coord k i = Vec.entry v i := by
  rw [coord, h]; rfl

omit [ExactScalar R] in
theorem coord_of_get?_none [Scalar R] (h : x.get? k = none) (i : Nat) : x.coord k i = 0 := by
  rw [coord, h]; exact Vec.entry_empty i

@[simp] theorem coord_empty (k : String) (i : Nat) : (empty : BlockVector R).coord k i = 0 :=
  coord_of_get?_none rfl i

theorem coord_insert (x : BlockVector R) (k k' : String) (v : Array R) (i : Nat) :
    (x.insert k v).coord k' i = if k = k' then Vec.entry v i else x.coord k' i := by
  rw [coord, get?, insert, Keyed.get?_insert]
  split <;> rfl

/-! ## Adding -/

/-- A block that is added to has the length of what is added. -/
theorem increase_eq_ok {a : R} : x.increase k a v = .ok y ↔
    (∀ n, x.sizeAt? k = some n → n = v.size) ∧
      y = x.insert k (Vec.axpy a v ((x.get? k).getD (Vec.zero v.size))) := by
  have hzero : Vec.scale a v = Vec.axpy a v (Vec.zero v.size) := by
    refine Vec.ext_entry (by rw [Vec.size_scale, Vec.size_axpy, Vec.size_zero]) fun i _ => ?_
    rw [Vec.entry_scale, Vec.entry_axpy a (Vec.size_zero _).symm, Vec.entry_zero, zero_add]
  rw [increase]
  cases hx : x.get? k with
  | none =>
    rw [sizeAt?_eq_none_iff.2 hx]
    constructor
    · intro h
      cases h
      exact ⟨nofun, by rw [hzero]; rfl⟩
    · rintro ⟨-, rfl⟩
      show Except.ok (x.insert k (Vec.scale a v)) = _
      rw [hzero]
      rfl
  | some u =>
    rw [sizeAt?_eq_some_iff.2 ⟨u, hx, rfl⟩]
    show (if (u.size != v.size) = true then fail _ else Except.ok _) = _ ↔ _
    split
    · rename_i hne
      rw [bne_iff_ne] at hne
      exact ⟨fun h => absurd h fail_ne_ok, fun h => absurd (h.1 _ rfl) hne⟩
    · rename_i heq
      have heq : u.size = v.size := by simpa using heq
      constructor
      · intro h
        cases h
        exact ⟨fun n hn => Option.some.inj hn ▸ heq, rfl⟩
      · rintro ⟨-, rfl⟩
        rfl

theorem sizeAt?_increase {a : R} (h : x.increase k a v = .ok y) (k' : String) :
    y.sizeAt? k' = if k = k' then some v.size else x.sizeAt? k' := by
  obtain ⟨hs, rfl⟩ := increase_eq_ok.1 h
  rw [sizeAt?_insert, Vec.size_axpy]
  split
  · cases hx : x.get? k with
    | none => exact congrArg some (Vec.size_zero _)
    | some u => exact congrArg some (hs _ (sizeAt?_eq_some_iff.2 ⟨u, hx, rfl⟩))
  · rfl

/-- What is added under a name is added there and nowhere else. -/
theorem coord_increase {a : R} (h : x.increase k a v = .ok y) (k' : String) (i : Nat) :
    y.coord k' i = x.coord k' i + if k = k' then a * Vec.entry v i else 0 := by
  obtain ⟨hs, rfl⟩ := increase_eq_ok.1 h
  rw [coord_insert]
  split
  · rename_i hk
    subst hk
    cases hx : x.get? k with
    | none =>
      show Vec.entry (Vec.axpy a v (Vec.zero v.size)) i = _
      rw [Vec.entry_axpy a (Vec.size_zero _).symm, Vec.entry_zero, coord_of_get?_none hx]
    | some u =>
      have hsize : u.size = v.size := hs _ (sizeAt?_eq_some_iff.2 ⟨u, hx, rfl⟩)
      show Vec.entry (Vec.axpy a v u) i = _
      rw [Vec.entry_axpy a hsize.symm, coord_of_get? hx]
  · rw [add_zero]

/-- A walk over the blocks meets each coordinate once. -/
theorem sumOver_coord (x : BlockVector R) (k : String) (i : Nat) :
    Keyed.sumOver (fun k' v => if k' = k then Vec.entry v i else 0) x.blocks.entries = x.coord k i := by
  rw [Keyed.sumOver_ite, coord, get?]
  cases x.blocks.get? k with
  | none => exact (Vec.entry_empty i).symm
  | some v => rfl

/-- A sum of block vectors is the sum of the points. -/
theorem coord_addScaled {a : R} (h : x.addScaled a y = .ok z) (k : String) (i : Nat) :
    z.coord k i = x.coord k i + a * y.coord k i := by
  rw [← sumOver_coord y]
  rw [addScaled] at h
  generalize y.blocks.entries = es at h ⊢
  induction es generalizing x with
  | nil =>
    cases foldlM_nil_eq_ok.1 h
    show z.coord k i = z.coord k i + a * 0
    rw [mul_zero, add_zero]
  | cons kv es ih =>
    obtain ⟨k', v⟩ := kv
    obtain ⟨r, hr, h⟩ := foldlM_cons_eq_ok.1 h
    rw [ih h, coord_increase hr, Keyed.sumOver_cons]
    split <;> ring

/-- The names of a sum are those of its parts, with the same lengths. -/
theorem sizeAt?_addScaled {a : R} (h : x.addScaled a y = .ok z) (k : String) :
    z.sizeAt? k = (y.sizeAt? k).or (x.sizeAt? k) := by
  have hwalk (es : List (String × Array R)) (x : BlockVector R) (hnd : (es.map Prod.fst).Nodup)
      (h : es.foldlM (increaseEach a) x = .ok z) :
      z.sizeAt? k = ((Keyed.find k es).map Array.size).or (x.sizeAt? k) := by
    induction es generalizing x with
    | nil => cases foldlM_nil_eq_ok.1 h; rfl
    | cons kv es ih =>
      obtain ⟨k', v⟩ := kv
      rw [List.map_cons, List.nodup_cons] at hnd
      obtain ⟨r, hr, h⟩ := foldlM_cons_eq_ok.1 h
      rw [ih r hnd.2 h, sizeAt?_increase hr, Keyed.find]
      by_cases hk : k' = k
      · subst hk
        have hnone : Keyed.find k' es = none := Keyed.find_eq_none_of_not_mem hnd.1
        rw [if_pos rfl, if_pos rfl, hnone]
        rfl
      · rw [if_neg hk, if_neg hk]
  exact hwalk _ x y.blocks.nodup_keys h

/-! ## Replacing -/

omit [ExactScalar R] in
/-- Blocks that are put one after another into a vector replace what was there. -/
theorem get?_foldl_insert (x y : BlockVector R) (k : String) :
    (y.blocks.entries.foldl (fun x kv => x.insert kv.1 kv.2) x).get? k
      = (y.get? k).or (x.get? k) := by
  have hblocks (es : List (String × Array R)) (x : BlockVector R) :
      (es.foldl (fun x kv => x.insert kv.1 kv.2) x).blocks
        = es.foldl (fun m kv => m.insert kv.1 kv.2) x.blocks := by
    induction es generalizing x with
    | nil => rfl
    | cons kv es ih => exact ih _
  rw [get?, hblocks]
  cases hy : y.get? k with
  | none =>
    have hk : k ∉ y.blocks.entries.map Prod.fst := Keyed.get?_eq_none_iff.1 hy
    rw [Keyed.get?_foldl_insert_of_not_mem _ _ _ hk]
    rfl
  | some v => exact Keyed.get?_foldl_insert_of_mem y.blocks.nodup_keys _ (Keyed.get?_eq_some_iff.1 hy)

/-! ## The norm -/

/-- `x.normSq`: the square of the norm. -/
def normSq (x : BlockVector R) : R := Keyed.sumOver (fun _ v => Vec.inner v v) x.blocks.entries

theorem norm_eq_sqrt (x : BlockVector R) : x.norm = Scalar.sqrt x.normSq := by
  rw [norm, total_eq_sum, normSq, Keyed.sumOver, Keyed.values, List.map_map]
  rfl

theorem normSq_nonneg (x : BlockVector R) : 0 ≤ x.normSq := by
  refine List.sum_nonneg fun s hs => ?_
  obtain ⟨kv, -, rfl⟩ := List.mem_map.1 hs
  exact Vec.inner_self_nonneg kv.2

/-- A sum over the entries of all blocks is a sum over the coordinates. -/
theorem sumOver_mul_eq_sum {S : Finset String} {d : String → Nat}
    (h : ∀ k n, x.sizeAt? k = some n → k ∈ S ∧ n ≤ d k) (f : String → Nat → R) :
    Keyed.sumOver (fun k v => ∑ i ∈ Finset.range v.size, Vec.entry v i * f k i) x.blocks.entries
      = ∑ k ∈ S, ∑ i ∈ Finset.range (d k), x.coord k i * f k i := by
  have hsub : x.blocks.keys.toFinset ⊆ S := by
    intro k hk
    obtain ⟨v, hv⟩ := Keyed.mem_keys_iff.1 (List.mem_toFinset.1 hk)
    exact (h k v.size (sizeAt?_eq_some_iff.2 ⟨v, hv, rfl⟩)).1
  rw [Keyed.sumOver_eq_sum_keys]
  refine (Finset.sum_congr rfl fun k hk => ?_).trans (Finset.sum_subset hsub fun k _ hk => ?_)
  · obtain ⟨v, hv⟩ := Keyed.mem_keys_iff.1 (List.mem_toFinset.1 hk)
    have hle := (h k v.size (sizeAt?_eq_some_iff.2 ⟨v, hv, rfl⟩)).2
    rw [hv]
    show ∑ i ∈ Finset.range v.size, Vec.entry v i * f k i = _
    simp only [coord_of_get? (x := x) hv]
    refine Finset.sum_subset (Finset.range_mono hle) fun i _ hi => ?_
    rw [Vec.entry_of_size_le (by simpa using hi), zero_mul]
  · have hnone : x.get? k = none :=
      Keyed.get?_eq_none_iff.2 fun hmem => hk (List.mem_toFinset.2 hmem)
    refine Finset.sum_eq_zero fun i _ => ?_
    rw [coord_of_get?_none hnone, zero_mul]

/-- The square of the norm is the sum of the squares of the coordinates. -/
theorem normSq_eq_sum {S : Finset String} {d : String → Nat}
    (h : ∀ k n, x.sizeAt? k = some n → k ∈ S ∧ n ≤ d k) :
    x.normSq = ∑ k ∈ S, ∑ i ∈ Finset.range (d k), x.coord k i * x.coord k i := by
  rw [← sumOver_mul_eq_sum h x.coord, normSq]
  refine Keyed.sumOver_congr fun k v hv => ?_
  have hget : x.get? k = some v := Keyed.get?_eq_some_iff.2 hv
  rw [Vec.inner_eq_sum]
  exact Finset.sum_congr rfl fun i _ => by rw [coord_of_get? hget]

end BlockAdmm.BlockVector
