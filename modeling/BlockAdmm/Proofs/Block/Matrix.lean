/-
  Block matrices as coefficients.

  A block matrix has a coefficient for each row name, column name, row and column, zero where it has no
  block (`Stands`).  Every operation on block matrices is then the operation on coefficients: a block that
  is added adds its coefficients (`Stands.insertOrAdd`), and whatever is built step by step has the sum of
  what the steps add (`stands_foldlM`).  So sums, transposes, restrictions and Gram matrices need no more
  than what one step does, and a product with a block vector is a sum over the columns (`Stands.apply`).

  All this is said for any lore of opaque maps.  Where only the values count and the marks in use are
  given, a matrix that stands for coefficients represents them (`Represents`, `represents_iff_stands`).
-/
import BlockAdmm.Proofs.Block.Vector
import BlockAdmm.Proofs.LinearMap.Structure

namespace BlockAdmm

open Scalar ExactScalar

variable {R : Type}

/-! ## Blocks and their places -/

namespace BlockMatrix

theorem get?_eq_some_iff {a : BlockMatrix R} {r c : String} {l : LinearMap R} :
    a.get? r c = some l ↔ ∃ row, (r, row) ∈ a.blocks.entries ∧ (c, l) ∈ row.entries := by
  rw [get?, Option.bind_eq_some_iff]
  constructor
  · rintro ⟨row, hr, hc⟩
    exact ⟨row, Keyed.get?_eq_some_iff.1 hr, Keyed.get?_eq_some_iff.1 hc⟩
  · rintro ⟨row, hr, hc⟩
    exact ⟨row, Keyed.get?_eq_some_iff.2 hr, Keyed.get?_eq_some_iff.2 hc⟩

/-- The blocks of the list are the blocks at their places. -/
theorem mem_toList {a : BlockMatrix R} {b : Block R} :
    b ∈ a.toList ↔ a.get? b.row b.col = some b.map := by
  rw [get?_eq_some_iff, toList, List.mem_flatMap]
  constructor
  · rintro ⟨⟨r, row⟩, hr, hb⟩
    obtain ⟨⟨c, l⟩, hc, rfl⟩ := List.mem_map.1 hb
    exact ⟨row, hr, hc⟩
  · rintro ⟨row, hr, hc⟩
    exact ⟨(b.row, row), hr, List.mem_map.2 ⟨(b.col, b.map), hc, rfl⟩⟩

/-- `lookup blocks r c`: the block at a place. -/
def lookup (blocks : Keyed (Keyed (LinearMap R))) (r c : String) : Option (LinearMap R) :=
  (blocks.get? r).bind fun row => row.get? c

theorem lookup_place (blocks : Keyed (Keyed (LinearMap R))) (b : Block R) (r c : String) :
    lookup (place blocks b) r c
      = if b.row = r ∧ b.col = c then some b.map else lookup blocks r c := by
  rw [lookup, place, Keyed.get?_insert]
  by_cases hr : b.row = r
  · subst hr
    rw [if_pos rfl]
    show (((blocks.get? b.row).getD Keyed.empty).insert b.col b.map).get? c = _
    rw [Keyed.get?_insert]
    by_cases hc : b.col = c
    · rw [if_pos hc, if_pos ⟨rfl, hc⟩]
    · rw [if_neg hc, if_neg fun h => hc h.2, lookup]
      cases blocks.get? b.row <;> rfl
  · rw [if_neg hr, if_neg fun h => hr h.1, lookup]

/-- Placing several blocks, of which those for one place are the same. -/
theorem lookup_foldl_place {bs : List (Block R)}
    (hsame : ∀ b ∈ bs, ∀ b' ∈ bs, b.row = b'.row → b.col = b'.col → b.map = b'.map)
    (blocks : Keyed (Keyed (LinearMap R))) {r c : String} {l : LinearMap R} :
    lookup (bs.foldl place blocks) r c = some l ↔
      ⟨r, c, l⟩ ∈ bs ∨ (∀ l', ⟨r, c, l'⟩ ∉ bs) ∧ lookup blocks r c = some l := by
  induction bs generalizing blocks with
  | nil =>
    rw [List.foldl_nil]
    exact ⟨fun h => Or.inr ⟨fun _ => List.not_mem_nil, h⟩, fun h => h.elim nofun And.right⟩
  | cons b bs ih =>
    have ih := ih (fun x hx y hy => hsame x (List.mem_cons_of_mem _ hx) y (List.mem_cons_of_mem _ hy))
    rw [List.foldl_cons, ih, lookup_place]
    by_cases hb : b.row = r ∧ b.col = c
    · obtain ⟨rfl, rfl⟩ := hb
      rw [if_pos ⟨rfl, rfl⟩, Option.some.injEq, List.mem_cons]
      constructor
      · rintro (h | ⟨-, rfl⟩)
        · exact Or.inl (Or.inr h)
        · exact Or.inl (Or.inl rfl)
      · rintro ((h | h) | ⟨h, -⟩)
        · by_cases hmem : ∃ l', (⟨b.row, b.col, l'⟩ : Block R) ∈ bs
          · obtain ⟨l', hl'⟩ := hmem
            have hll : b.map = l' :=
              hsame b List.mem_cons_self _ (List.mem_cons_of_mem _ hl') rfl rfl
            subst hll
            exact Or.inl (h ▸ hl')
          · exact Or.inr ⟨fun l' hl' => hmem ⟨l', hl'⟩, (congrArg Block.map h).symm⟩
        · exact Or.inl h
        · exact absurd List.mem_cons_self (h b.map)
    · rw [if_neg hb, List.mem_cons]
      have hne (l' : LinearMap R) : (⟨r, c, l'⟩ : Block R) ≠ b := by
        rintro rfl
        exact hb ⟨rfl, rfl⟩
      simp only [List.mem_cons, hne, false_or]

end BlockMatrix

/-! ## Named indices -/

/-- `D.Extends E`: what `E` has under a name, `D` has too. -/
def Keyed.Extends {α : Type} (D E : Keyed α) : Prop := ∀ k v, E.get? k = some v → D.get? k = some v

theorem Keyed.Extends.refl {α : Type} (D : Keyed α) : D.Extends D := fun _ _ h => h

theorem Keyed.extends_empty {α : Type} (D : Keyed α) : D.Extends empty := fun _ _ h =>
  absurd h.symm (Option.some_ne_none _)

theorem Keyed.Extends.trans {α : Type} {D E F : Keyed α} (h : D.Extends E) (h' : E.Extends F) :
    D.Extends F := fun k v hv => h k v (h' k v hv)

theorem Keyed.Extends.insert {α : Type} {D E : Keyed α} {k : String} {v : α} (h : D.Extends E)
    (hk : D.get? k = some v) : D.Extends (E.insert k v) := by
  intro k' v' hv
  rw [Keyed.get?_insert] at hv
  split at hv
  · rename_i heq
    rw [← heq, ← Option.some.inj hv]
    exact hk
  · exact h k' v' hv

/-- A name with an index under it. -/
abbrev Cell := (_ : String) × Nat

/-- `cells D`: the names of `D`, each with the indices below its size. -/
def cells (D : Keyed Nat) : Finset Cell :=
  D.keys.toFinset.sigma fun k => Finset.range ((D.get? k).getD 0)

theorem mem_cells {D : Keyed Nat} {p : Cell} : p ∈ cells D ↔ ∃ n, D.get? p.1 = some n ∧ p.2 < n := by
  rw [cells, Finset.mem_sigma, List.mem_toFinset, Keyed.mem_keys_iff]
  constructor
  · rintro ⟨⟨n, hn⟩, hi⟩
    rw [hn] at hi
    exact ⟨n, hn, Finset.mem_range.1 hi⟩
  · rintro ⟨n, hn, hi⟩
    refine ⟨⟨n, hn⟩, ?_⟩
    rw [hn]
    exact Finset.mem_range.2 hi

theorem cells_mono {D E : Keyed Nat} (h : D.Extends E) : cells E ⊆ cells D := fun p hp => by
  obtain ⟨n, hn, hi⟩ := mem_cells.1 hp
  exact mem_cells.2 ⟨n, h _ _ hn, hi⟩

section Sums

variable [ExactScalar R] {D E : Keyed Nat} {f : Cell → R}

/-- The sum over any cells outside of which there are only zeros. -/
theorem sum_cells_eq {S T : Finset Cell} (hS : ∀ p, f p ≠ 0 → p ∈ S) (hT : ∀ p, f p ≠ 0 → p ∈ T) :
    ∑ p ∈ S, f p = ∑ p ∈ T, f p := by
  rw [← finsum_eq_sum_of_support_subset f fun p hp => hS p hp,
    ← finsum_eq_sum_of_support_subset f fun p hp => hT p hp]

/-- The sum over the cells, name by name. -/
theorem sum_cells (D : Keyed Nat) (f : Cell → R) :
    ∑ p ∈ cells D, f p
      = ∑ k ∈ D.keys.toFinset, ∑ i ∈ Finset.range ((D.get? k).getD 0), f ⟨k, i⟩ :=
  Finset.sum_sigma ..

end Sums

/-! ## Coefficients -/

/-- Coefficients by row name, column name, row and column. -/
abbrev Coefs (R : Type) := String → String → Nat → Nat → R

/-- `Coefs.single row col m n k`: the coefficients `k` of `m` rows and `n` columns at one place. -/
def Coefs.single [Zero R] (row col : String) (m n : Nat) (k : Nat → Nat → R) : Coefs R :=
  fun r c i j => if (r = row ∧ c = col) ∧ i < m ∧ j < n then k i j else 0

/-- `K.transpose`: rows and columns exchanged. -/
def Coefs.transpose (K : Coefs R) : Coefs R := fun c r j i => K r c i j

section Products

variable [ExactScalar R]

/-- `sumCells D K x r i`: entry `i` of row `r` of the product of the coefficients `K` with a point. -/
def sumCells (D : Keyed Nat) (K : Coefs R) (x : String → Nat → R) (r : String) (i : Nat) : R :=
  ∑ p ∈ cells D, K r p.1 i p.2 * x p.1 p.2

/-- Over columns that came later the coefficients are zero. -/
theorem sumCells_of_extends {D E : Keyed Nat} {K : Coefs R} (hD : D.Extends E)
    (hK : ∀ {r c i j}, K r c i j ≠ 0 → (⟨c, j⟩ : Cell) ∈ cells E) (x : String → Nat → R) (r : String)
    (i : Nat) : sumCells D K x r i = sumCells E K x r i :=
  sum_cells_eq (fun _ h => cells_mono hD (hK (left_ne_zero_of_mul h)))
    fun _ h => hK (left_ne_zero_of_mul h)

theorem sumCells_add (D : Keyed Nat) (K L : Coefs R) (x : String → Nat → R) (r : String) (i : Nat) :
    sumCells D (K + L) x r i = sumCells D K x r i + sumCells D L x r i := by
  rw [sumCells, sumCells, sumCells, ← Finset.sum_add_distrib]
  exact Finset.sum_congr rfl fun _ _ => add_mul ..

theorem sumCells_single {D : Keyed Nat} {col : String} {n : Nat} (hD : D.get? col = some n)
    (row : String) (m : Nat) (k : Nat → Nat → R) (x : String → Nat → R) (r : String) (i : Nat) :
    sumCells D (Coefs.single row col m n k) x r i
      = if r = row ∧ i < m then rowSum n k (x col) i else 0 := by
  rw [sumCells, sum_cells, Finset.sum_eq_single col]
  · rw [hD]
    by_cases hr : r = row ∧ i < m
    · rw [if_pos hr]
      refine Finset.sum_congr rfl fun j hj => ?_
      rw [Coefs.single, if_pos ⟨⟨hr.1, rfl⟩, hr.2, Finset.mem_range.1 hj⟩]
    · rw [if_neg hr]
      refine Finset.sum_eq_zero fun j _ => ?_
      rw [Coefs.single, if_neg fun hp => hr ⟨hp.1.1, hp.2.1⟩, zero_mul]
  · intro c _ hc
    refine Finset.sum_eq_zero fun j _ => ?_
    rw [Coefs.single, if_neg fun hp => hc hp.1.2, zero_mul]
  · intro hmem
    exact absurd (List.mem_toFinset.2 (Keyed.mem_keys_iff.2 ⟨n, hD⟩)) hmem

end Products

namespace BlockMatrix

/-- `a.Represents w K`: the blocks of `a` have the coefficients `K`, which are zero elsewhere, and the
    sizes that are kept by name are those of the blocks. -/
structure Represents [ExactScalar R] (w : Marks R) (a : BlockMatrix R) (K : Coefs R) : Prop where
  denotes : ∀ {r c l}, a.get? r c = some l → l.Denotes w (K r c)
  support : ∀ {r c i j}, K r c i j ≠ 0 → ∃ l, a.get? r c = some l ∧ i < l.m ∧ j < l.n
  rows : ∀ {r c l}, a.get? r c = some l → a.rowDims.get? r = some l.m
  cols : ∀ {r c l}, a.get? r c = some l → a.colDims.get? c = some l.n

/-- `a.Stands e K`: the same, as far as `e` knows. -/
structure Stands [ExactScalar R] (e : Lore R) (a : BlockMatrix R) (K : Coefs R) : Prop where
  bears : ∀ {r c l}, a.get? r c = some l → l.Bears e (K r c)
  support : ∀ {r c i j}, K r c i j ≠ 0 → ∃ l, a.get? r c = some l ∧ i < l.m ∧ j < l.n
  rows : ∀ {r c l}, a.get? r c = some l → a.rowDims.get? r = some l.m
  cols : ∀ {r c l}, a.get? r c = some l → a.colDims.get? c = some l.n

variable [ExactScalar R] {w v : Marks R} {e e' : Lore R} {a b g : BlockMatrix R} {K L : Coefs R}

theorem represents_iff_stands : a.Represents w K ↔ a.Stands w.lore K :=
  ⟨fun h => ⟨fun hl => LinearMap.denotes_iff_bears.1 (h.denotes hl), h.support, h.rows, h.cols⟩,
    fun h => ⟨fun hl => LinearMap.denotes_iff_bears.2 (h.bears hl), h.support, h.rows, h.cols⟩⟩

theorem Represents.stands (h : a.Represents w K) : a.Stands w.lore K := represents_iff_stands.1 h

theorem stands_empty (e : Lore R) : (empty : BlockMatrix R).Stands e 0 :=
  ⟨nofun, fun h => absurd rfl h, nofun, nofun⟩

theorem represents_empty (w : Marks R) : (empty : BlockMatrix R).Represents w 0 :=
  represents_iff_stands.2 (stands_empty _)

theorem Stands.mono (h : a.Stands e K) (he : e.Within e') : a.Stands e' K :=
  ⟨fun hl => (h.bears hl).mono he, h.support, h.rows, h.cols⟩

theorem Represents.mono (h : a.Represents v K) (hw : w.Extends v) : a.Represents w K :=
  represents_iff_stands.2 (h.stands.mono hw.within)

/-- The coefficients are zero outside of the rows and columns. -/
theorem Stands.mem_cells (h : a.Stands e K) {r c : String} {i j : Nat} (hK : K r c i j ≠ 0) :
    ⟨r, i⟩ ∈ cells a.rowDims ∧ ⟨c, j⟩ ∈ cells a.colDims := by
  obtain ⟨l, hl, hi, hj⟩ := h.support hK
  exact ⟨BlockAdmm.mem_cells.2 ⟨l.m, h.rows hl, hi⟩, BlockAdmm.mem_cells.2 ⟨l.n, h.cols hl, hj⟩⟩

theorem Represents.mem_cells (h : a.Represents w K) {r c : String} {i j : Nat} (hK : K r c i j ≠ 0) :
    ⟨r, i⟩ ∈ cells a.rowDims ∧ ⟨c, j⟩ ∈ cells a.colDims := h.stands.mem_cells hK

/-- One and the same matrix does not stand for two matrices but by opaque maps that never have a value, so
    the coefficients belong to a proof and not to the matrix; but where there is no block they are zero. -/
theorem Stands.eq_zero (h : a.Stands e K) {r c : String} (hnone : a.get? r c = none)
    (i j : Nat) : K r c i j = 0 := by
  by_contra hK
  obtain ⟨l, hl, -⟩ := h.support hK
  exact nomatch hnone.symm.trans hl

theorem Represents.eq_zero (h : a.Represents w K) {r c : String} (hnone : a.get? r c = none)
    (i j : Nat) : K r c i j = 0 := h.stands.eq_zero hnone i j

omit [ExactScalar R] in
theorem checkDim_eq_ok {known : Option Nat} {e : Nat → SolverError} {d : Nat} {u : Unit} :
    checkDim known e d = .ok u ↔ ∀ d', known = some d' → d' = d := by
  cases known with
  | none => exact ⟨fun _ _ h => (nomatch h), fun _ => rfl⟩
  | some d' =>
    show (if (d' != d) = true then fail (e d') else .ok ()) = _ ↔ _
    split
    · rename_i hne
      exact ⟨fun h => absurd h fail_ne_ok, fun h => absurd (h d' rfl) (bne_iff_ne.1 hne)⟩
    · rename_i heq
      exact ⟨fun _ d'' hd => Option.some.inj hd ▸ by simpa using heq, fun _ => rfl⟩

omit [ExactScalar R] in
/-- What an insertion did: the place, the sizes that are kept, and the block that is there now. -/
theorem insertOrAdd_eq_ok [Scalar R] {row col : String} {l : LinearMap R} (h : a.insertOrAdd row col l = .ok b) :
    (∀ m, a.rowDims.get? row = some m → m = l.m) ∧ (∀ n, a.colDims.get? col = some n → n = l.n) ∧
      b.rowDims = a.rowDims.insert row l.m ∧ b.colDims = a.colDims.insert col l.n ∧
      ∃ s, (∀ r c, b.get? r c = if row = r ∧ col = c then some s else a.get? r c) ∧
        ((a.get? row col = none ∧ s = l) ∨ ∃ prev, a.get? row col = some prev ∧ prev.add l = .ok s) := by
  obtain ⟨_, hrow, h⟩ := bind_eq_ok.1 h
  obtain ⟨_, hcol, h⟩ := bind_eq_ok.1 h
  refine ⟨checkDim_eq_ok.1 hrow, checkDim_eq_ok.1 hcol, ?_⟩
  have hplace (s : LinearMap R) (r c : String) :=
    lookup_place a.blocks ⟨row, col, s⟩ r c
  cases hprev : a.get? row col with
  | none =>
    rw [hprev] at h
    cases h
    exact ⟨rfl, rfl, l, hplace l, Or.inl ⟨rfl, rfl⟩⟩
  | some prev =>
    rw [hprev] at h
    obtain ⟨s, hs, h⟩ := bind_eq_ok.1 h
    cases pure_eq_ok.1 h
    exact ⟨rfl, rfl, s, hplace s, Or.inr ⟨prev, rfl, hs⟩⟩

omit [ExactScalar R] in
theorem extends_insert {D : Keyed Nat} {k : String} {d : Nat} (h : ∀ n, D.get? k = some n → n = d) :
    (D.insert k d).Extends D := by
  intro k' n hn
  rw [Keyed.get?_insert]
  split
  · rename_i hk
    subst hk
    rw [h n hn]
  · exact hn

/-- An insertion adds the coefficients of the map at its place. -/
theorem Stands.insertOrAdd [e.Complete] {row col : String} {l : LinearMap R} {k : Nat → Nat → R}
    (h : a.Stands e K) (hl : l.Bears e k) (hs : a.insertOrAdd row col l = .ok b) :
    b.Stands e (K + Coefs.single row col l.m l.n k) := by
  obtain ⟨hrow, hcol, hrows, hcols, s, hget, hcase⟩ := insertOrAdd_eq_ok hs
  -- the block at the place afterwards
  have hsum : s.Stands e l.m l.n fun i j => K row col i j + k i j := by
    rcases hcase with ⟨hnone, rfl⟩ | ⟨prev, hprev, hadd⟩
    · refine hl.stands.congr fun i j _ _ => ?_
      rw [h.eq_zero hnone, zero_add]
    · have hprevious : prev.Stands e l.m l.n (K row col) :=
        ⟨Prod.ext (hrow _ (h.rows hprev)) (hcol _ (h.cols hprev)), h.bears hprev⟩
      exact (hprevious.add (fun _ hf => hf) Lore.Complete.unique hl.stands (allows_of_limits _)
        (allows_of_limits _) (allows_of_limits _) (allows_of_limits _)).of_eq_ok hadd
  refine ⟨?_, ?_, ?_, ?_⟩
  · intro r c l' hl'
    rw [hget] at hl'
    split at hl'
    · rename_i hplace
      obtain ⟨rfl, rfl⟩ := hplace
      cases hl'
      refine hsum.bears.congr fun i j hi hj => ?_
      rw [hsum.rows] at hi
      rw [hsum.cols] at hj
      show K row col i j + (if _ then k i j else 0) = _
      rw [if_pos ⟨⟨rfl, rfl⟩, hi, hj⟩]
    · rename_i hplace
      refine (h.bears hl').congr fun i j _ _ => ?_
      show K r c i j + (if _ then k i j else 0) = _
      rw [if_neg fun hp => hplace ⟨hp.1.1.symm, hp.1.2.symm⟩, add_zero]
  · intro r c i j hK
    rw [hget]
    by_cases hplace : row = r ∧ col = c
    · obtain ⟨rfl, rfl⟩ := hplace
      rw [if_pos ⟨rfl, rfl⟩]
      refine ⟨s, rfl, ?_⟩
      rw [hsum.rows, hsum.cols]
      by_contra hout
      refine hK ?_
      show K row col i j + (if _ then k i j else 0) = 0
      rw [if_neg fun hp => hout hp.2, add_zero]
      by_contra hK'
      obtain ⟨l', hl', hi, hj⟩ := h.support hK'
      exact hout ⟨hrow _ (h.rows hl') ▸ hi, hcol _ (h.cols hl') ▸ hj⟩
    · rw [if_neg hplace]
      refine h.support fun hz => hK ?_
      show K r c i j + (if _ then k i j else 0) = 0
      rw [if_neg fun hp => hplace ⟨hp.1.1.symm, hp.1.2.symm⟩, hz, add_zero]
  · intro r c l' hl'
    rw [hget] at hl'
    split at hl'
    · rename_i hplace
      obtain ⟨rfl, rfl⟩ := hplace
      cases hl'
      rw [hrows, Keyed.get?_insert, if_pos rfl, hsum.rows]
    · rw [hrows]
      exact extends_insert hrow _ _ (h.rows hl')
  · intro r c l' hl'
    rw [hget] at hl'
    split at hl'
    · rename_i hplace
      obtain ⟨rfl, rfl⟩ := hplace
      cases hl'
      rw [hcols, Keyed.get?_insert, if_pos rfl, hsum.cols]
    · rw [hcols]
      exact extends_insert hcol _ _ (h.cols hl')

theorem Represents.insertOrAdd {row col : String} {l : LinearMap R} {k : Nat → Nat → R}
    (h : a.Represents w K) (hl : l.Denotes w k) (hs : a.insertOrAdd row col l = .ok b) :
    b.Represents w (K + Coefs.single row col l.m l.n k) :=
  represents_iff_stands.2 (h.stands.insertOrAdd (LinearMap.denotes_iff_bears.1 hl) hs)

/-- What is built step by step has the sum of the coefficients that the steps add. -/
theorem stands_foldlM {α : Type} {step : BlockMatrix R → α → Outcome (BlockMatrix R)}
    {F : α → Coefs R} {xs : List α}
    (hstep : ∀ x ∈ xs, ∀ g g' G, g.Stands e G → step g x = .ok g' → g'.Stands e (G + F x))
    (h : a.Stands e K) (hs : xs.foldlM step a = .ok b) : b.Stands e (K + (xs.map F).sum) := by
  induction xs generalizing a K with
  | nil =>
    cases foldlM_nil_eq_ok.1 hs
    rw [List.map_nil, List.sum_nil, add_zero]
    exact h
  | cons x xs ih =>
    obtain ⟨g, hg, hs⟩ := foldlM_cons_eq_ok.1 hs
    rw [List.map_cons, List.sum_cons, ← add_assoc]
    exact ih (fun y hy => hstep y (List.mem_cons_of_mem x hy))
      (hstep x List.mem_cons_self a g K h hg) hs

/-! ## Sums over the blocks -/

omit [ExactScalar R] in
theorem get?_row (a : BlockMatrix R) (r c : String) : (a.row r).get? c = a.get? r c := by
  rw [row, get?]
  cases a.blocks.get? r <;> rfl

omit [ExactScalar R] in
/-- A sum over the blocks of one row. -/
theorem sum_toList_row {M : Type} [AddCommGroup M] (a : BlockMatrix R) (r : String)
    (f : String → LinearMap R → M) :
    (a.toList.map fun b => if b.row = r then f b.col b.map else 0).sum
      = Keyed.sumOver f (a.row r).entries := by
  have hwalk (es : List (String × Keyed (LinearMap R))) :
      ((es.flatMap fun rm => rm.2.entries.map fun cm => (⟨rm.1, cm.1, cm.2⟩ : Block R)).map
          fun b => if b.row = r then f b.col b.map else 0).sum
        = Keyed.sumOver (fun r' row => if r' = r then Keyed.sumOver f row.entries else 0) es := by
    induction es with
    | nil => rfl
    | cons x es ih =>
      rw [List.flatMap_cons, List.map_append, List.sum_append, ih, Keyed.sumOver_cons, List.map_map]
      congr 1
      by_cases hx : x.1 = r
      · rw [if_pos hx, Keyed.sumOver]
        exact congrArg List.sum (List.map_congr_left fun cm _ => if_pos hx)
      · rw [if_neg hx]
        refine List.sum_eq_zero fun v hv => ?_
        obtain ⟨cm, -, rfl⟩ := List.mem_map.1 hv
        exact if_neg hx
  rw [toList, hwalk, Keyed.sumOver_ite, row]
  cases a.blocks.get? r <;> rfl

omit [ExactScalar R] in
/-- A sum over the blocks of one row, column by column. -/
theorem sum_toList_eq_sum {M : Type} [AddCommGroup M] (a : BlockMatrix R) (r : String)
    (f : String → LinearMap R → M) {S : Finset String}
    (hS : ∀ c l, a.get? r c = some l → c ∈ S) :
    (a.toList.map fun b => if b.row = r then f b.col b.map else 0).sum
      = ∑ c ∈ S, (a.get? r c).elim 0 (f c) := by
  have hat (c : String) : Keyed.at? f c ((a.row r).get? c) = (a.get? r c).elim 0 (f c) := by
    rw [get?_row]
    cases a.get? r c <;> rfl
  rw [sum_toList_row, Keyed.sumOver_eq_sum_keys]
  simp only [hat]
  refine Finset.sum_subset (fun c hc => ?_) fun c _ hc => ?_
  · obtain ⟨l, hl⟩ := Keyed.mem_keys_iff.1 (List.mem_toFinset.1 hc)
    exact hS c l (get?_row a r c ▸ hl)
  · have hnone : (a.row r).get? c = none :=
      Keyed.get?_eq_none_iff.2 fun hmem => hc (List.mem_toFinset.2 hmem)
    rw [get?_row] at hnone
    rw [hnone]
    rfl

end BlockMatrix

end BlockAdmm
