/-
  Dense and sparse matrices over an exact reading, entry by entry.

  A dense matrix is given by its entries already; what is left to say is what its products and sums
  come to.  A list of triplets puts at each place the sum of the values that name it (`placed`).  Ordering the
  triplets and merging those of one place leaves these sums as they are, so a matrix that is gathered
  from triplets has the entries that the triplets put there (`entry_gather`); each operation on sparse
  matrices is then a computation with `placed` on the triplets that it gathers.
-/
import BlockAdmm.Proofs.Outcome
import BlockAdmm.Proofs.Vec
import BlockAdmm.Sparse

namespace BlockAdmm

open Scalar ExactScalar

variable {R : Type} [ExactScalar R]

/-! ## Quotient and remainder of an index -/

theorem mul_add_eq_iff {d q i k : Nat} (hi : i < d) : q * d + i = k ↔ q = k / d ∧ i = k % d := by
  have hd : 0 < d := by omega
  constructor
  · rintro rfl
    rw [Nat.mul_comm, Nat.mul_add_div hd, Nat.div_eq_of_lt hi, Nat.mul_add_mod, Nat.mod_eq_of_lt hi]
    exact ⟨(Nat.add_zero q).symm, rfl⟩
  · rintro ⟨rfl, rfl⟩
    exact Nat.div_add_mod' k d

theorem div_mod_lt {p q k : Nat} (h : k < p * q) : k / q < p ∧ k % q < q := by
  have hq : 0 < q := Nat.pos_of_ne_zero fun hq => by rw [hq, Nat.mul_zero] at h; omega
  exact ⟨(Nat.div_lt_iff_lt_mul hq).2 h, Nat.mod_lt k hq⟩

/-! ## Products and parts of vectors -/

namespace Vec

variable {x y z : Array R} {r : R} {o : Nat}

theorem dot_eq_ok : dot x y = .ok r ↔ x.size = y.size ∧ r = inner x y := by
  rw [dot, bind_eq_ok]
  constructor
  · rintro ⟨_, hsize, hr⟩
    exact ⟨beq_iff_eq.1 (promise_eq_ok.1 hsize), (pure_eq_ok.1 hr).symm⟩
  · rintro ⟨hsize, rfl⟩
    exact ⟨(), promise_eq_ok.2 (beq_iff_eq.2 hsize), rfl⟩

omit [ExactScalar R] in
/-- The entries that are overwritten, and the others. -/
theorem overwrite_eq_ok [Scalar R] (h : overwrite x o y = .ok z) : z.size = x.size ∧
    (∀ i, i < y.size → entry z (o + i) = entry y i) ∧
    ∀ i, i < x.size → i < o ∨ o + y.size ≤ i → entry z i = entry x i := by
  obtain ⟨_, hfit, h⟩ := bind_eq_ok.1 h
  have hfit : o + y.size ≤ x.size := of_decide_eq_true (promise_eq_ok.1 hfit)
  cases pure_eq_ok.1 h
  refine ⟨size_build .., fun i hi => ?_, fun i hi hout => ?_⟩
  · have hin : (decide (o ≤ o + i) && decide (o + i < o + y.size)) = true := by
      rw [Bool.and_eq_true, decide_eq_true_iff, decide_eq_true_iff]
      omega
    rw [entry_build _ (by omega), if_pos hin, Nat.add_sub_cancel_left]
  · have hnot : ¬ (decide (o ≤ i) && decide (i < o + y.size)) = true := by
      rw [Bool.and_eq_true, decide_eq_true_iff, decide_eq_true_iff]
      omega
    rw [entry_build _ hi, if_neg hnot]

end Vec

/-! ## Dense matrices -/

namespace Dense

omit [ExactScalar R] in
theorem entry_transpose [Scalar R] (a : Dense R) {r c : Nat} (hr : r < a.n) (hc : c < a.m) :
    a.transpose.entry r c = a.entry c r := entry_build _ hr hc

theorem entry_scale (alpha : R) (a : Dense R) (r c : Nat) :
    (a.scale alpha).entry r c = alpha * a.entry r c := Vec.entry_scale alpha a.data _

theorem entry_diagonal (d : Array R) {r c : Nat} (hr : r < d.size) (hc : c < d.size) :
    (diagonal d).entry r c = if r = c then Vec.entry d r else 0 := entry_build _ hr hc

theorem entry_identity {n r c : Nat} (hr : r < n) (hc : c < n) :
    (identity n : Dense R).entry r c = if r = c then 1 else 0 := entry_build _ hr hc

omit [ExactScalar R] in
theorem make_eq_ok {m n : Nat} {f : Nat → Nat → R} {a : Dense R} :
    make m n f = .ok a ↔ m * n ≤ capacity ∧ a = build m n f := by
  rw [make, bind_eq_ok]
  constructor
  · rintro ⟨u, hu, ha⟩
    exact ⟨room_eq_ok.1 hu, (pure_eq_ok.1 ha).symm⟩
  · rintro ⟨hroom, rfl⟩
    exact ⟨(), room_eq_ok.2 hroom, rfl⟩

omit [ExactScalar R] in
/-- A matrix that has a row but no entries has no columns. -/
theorem n_eq_zero_of_not_hasEntries {a : Dense R} {r : Nat} (h : ¬ a.hasEntries = true)
    (hr : r < a.m) : a.n = 0 := by
  rw [hasEntries, Bool.and_eq_true, decide_eq_true_iff, decide_eq_true_iff] at h
  omega

/-- The product with a vector that fits needs only room for its value. -/
theorem mulVec_eq_ok {a : Dense R} {x y : Array R} (hx : x.size = a.n) :
    a.mulVec x = .ok y ↔ a.m ≤ capacity ∧
      y = Vec.build a.m fun r => ∑ c ∈ Finset.range a.n, a.entry r c * Vec.entry x c := by
  have hcombine : a.combine 1 x 0 (Vec.zero a.m)
      = Vec.build a.m fun r => ∑ c ∈ Finset.range a.n, a.entry r c * Vec.entry x c := by
    rw [combine]
    refine congrArg _ (funext fun r => ?_)
    rw [sumBelow_eq_sum, one_mul, zero_mul, add_zero]
  have hzero (h : ¬ a.hasEntries = true) : (Vec.zero a.m : Array R)
      = Vec.build a.m fun r => ∑ c ∈ Finset.range a.n, a.entry r c * Vec.entry x c := by
    refine Vec.ext_entry (by rw [Vec.size_zero, Vec.size_build]) fun r hr => ?_
    rw [Vec.size_zero] at hr
    rw [Vec.entry_zero, Vec.entry_build _ hr, n_eq_zero_of_not_hasEntries h hr, Finset.sum_range_zero]
  rw [mulVec, bind_eq_ok]
  constructor
  · rintro ⟨u, hu, hy⟩
    refine ⟨room_eq_ok.1 hu, ?_⟩
    split at hy
    · obtain ⟨_, _, hy⟩ := bind_eq_ok.1 hy
      rw [← pure_eq_ok.1 hy, hcombine]
    · rename_i h
      rw [← pure_eq_ok.1 hy, hzero h]
  · rintro ⟨hroom, rfl⟩
    refine ⟨(), room_eq_ok.2 hroom, ?_⟩
    split
    · rw [transform, bind_eq_ok]
      refine ⟨(), promise_eq_ok.2 ?_, pure_eq_ok.2 hcombine⟩
      rw [hx, Vec.size_zero, beq_self_eq_true, beq_self_eq_true, Bool.and_self]
    · rename_i h
      rw [hzero h]
      rfl

omit [ExactScalar R] in
/-- The product of the transpose is computed without the transpose, with the same operations. -/
theorem transMulVec_eq_mulVec [Scalar R] (a : Dense R) (x : Array R) :
    a.transMulVec x = a.transpose.mulVec x := by
  have hentries : a.transpose.hasEntries = a.hasEntries := Bool.and_comm ..
  have hcombine : a.combineTranspose 1 x 0 (Vec.zero a.n) = a.transpose.combine 1 x 0 (Vec.zero a.n) := by
    refine Vec.ext_entry (by rw [combineTranspose, combine, Vec.size_build, Vec.size_build]; rfl)
      fun c hc => ?_
    rw [combineTranspose, Vec.size_build] at hc
    have hc' : c < a.transpose.m := hc
    rw [combineTranspose, combine, Vec.entry_build _ hc, Vec.entry_build _ hc']
    refine congrArg (fun s => 1 * s + 0 * Vec.entry (Vec.zero a.n) c) (sumBelow_congr fun r hr => ?_)
    rw [transpose, entry_build _ hc hr]
  rw [transMulVec, mulVec, hentries, transform, transformTranspose, hcombine]
  rfl

theorem entry_product {a b : Dense R} {r c : Nat} (hr : r < a.m) (hc : c < b.n) :
    (a.product b).entry r c = ∑ k ∈ Finset.range a.n, a.entry r k * b.entry k c := by
  rw [product, entry_build _ hr hc]
  split
  · rw [sumBelow_eq_sum, one_mul, zero_mul, add_zero]
  · rename_i h
    rw [n_eq_zero_of_not_hasEntries h hr, Finset.sum_range_zero]

theorem mulMat_eq_ok {a b d : Dense R} :
    a.mulMat b = .ok d ↔ a.n = b.m ∧ a.m * b.n ≤ capacity ∧ d = a.product b := by
  rw [mulMat, bind_eq_ok]
  constructor
  · rintro ⟨_, hab, h⟩
    obtain ⟨_, hu, hd⟩ := bind_eq_ok.1 h
    exact ⟨beq_iff_eq.1 (promise_eq_ok.1 hab), room_eq_ok.1 hu, (pure_eq_ok.1 hd).symm⟩
  · rintro ⟨hab, hroom, rfl⟩
    exact ⟨(), promise_eq_ok.2 (beq_iff_eq.2 hab), bind_eq_ok.2 ⟨(), room_eq_ok.2 hroom, rfl⟩⟩

theorem addScaled_eq_ok {alpha : R} {a b d : Dense R} :
    addScaled alpha b a = .ok d ↔ a.m = b.m ∧ a.n = b.n ∧
      d = build a.m a.n fun r c => a.entry r c + alpha * b.entry r c := by
  rw [addScaled, bind_eq_ok]
  constructor
  · rintro ⟨_, hab, h⟩
    have hab := promise_eq_ok.1 hab
    rw [Bool.and_eq_true, beq_iff_eq, beq_iff_eq] at hab
    exact ⟨hab.1, hab.2, (pure_eq_ok.1 h).symm⟩
  · rintro ⟨hm, hn, rfl⟩
    refine ⟨(), promise_eq_ok.2 ?_, rfl⟩
    rw [hm, hn, beq_self_eq_true, beq_self_eq_true, Bool.and_self]

/-- Over an exact reading equal matrices are the same, and so are identical ones. -/
theorem eq_of_equal {a b : Dense R} (h : a.equal b = true ∨ a.same b = true) : a = b := by
  obtain ⟨m, n, x, hx⟩ := a
  obtain ⟨m', n', y, hy⟩ := b
  have hall : (m = m' ∧ n = n') ∧ x = y := by
    rcases h with h | h
    · rw [equal, Bool.and_eq_true, Bool.and_eq_true, beq_iff_eq, beq_iff_eq] at h
      exact ⟨h.1, Vec.eq_of_equal h.2⟩
    · rw [same, Bool.and_eq_true, Bool.and_eq_true, beq_iff_eq, beq_iff_eq] at h
      exact ⟨h.1, Vec.eq_of_same h.2⟩
  obtain ⟨⟨rfl, rfl⟩, rfl⟩ := hall
  rfl

end Dense

/-! ## Sparse matrices -/

namespace Sparse

/-! ## What triplets put at a place -/

/-- `placed r c ts`: the sum of the values of the triplets at row `r` and column `c`. -/
def placed (r c : Nat) (ts : List (Triplet R)) : R :=
  (ts.map fun e => if e.row = r ∧ e.col = c then e.value else 0).sum

theorem placed_nil (r c : Nat) : placed r c ([] : List (Triplet R)) = 0 := rfl

theorem placed_cons (r c : Nat) (t : Triplet R) (ts : List (Triplet R)) :
    placed r c (t :: ts) = (if t.row = r ∧ t.col = c then t.value else 0) + placed r c ts := by
  rw [placed, List.map_cons, List.sum_cons]; rfl

theorem placed_append (r c : Nat) (ts us : List (Triplet R)) :
    placed r c (ts ++ us) = placed r c ts + placed r c us := by
  rw [placed, List.map_append, List.sum_append]; rfl

theorem placed_perm {r c : Nat} {ts us : List (Triplet R)} (h : ts.Perm us) :
    placed r c ts = placed r c us := (h.map _).sum_eq

theorem placed_flatMap {α : Type} (r c : Nat) (xs : List α) (f : α → List (Triplet R)) :
    placed r c (xs.flatMap f) = (xs.map fun x => placed r c (f x)).sum := by
  induction xs with
  | nil => rfl
  | cons x xs ih => rw [List.flatMap_cons, placed_append, ih, List.map_cons, List.sum_cons]

theorem placed_flatMap_range (r c n : Nat) (f : Nat → List (Triplet R)) :
    placed r c ((List.range n).flatMap f) = ∑ i ∈ Finset.range n, placed r c (f i) := by
  rw [placed_flatMap, Finset.sum_range]
  rw [← List.sum_ofFn, List.ofFn_eq_map, ← List.map_coe_finRange_eq_range, List.map_map]
  rfl

/-- Merging a triplet into a list puts its value where it belongs. -/
theorem placed_insert (r c : Nat) (t : Triplet R) (xs : List (Triplet R)) :
    placed r c (insert t xs) = placed r c (t :: xs) := by
  induction xs with
  | nil => rfl
  | cons x xs ih =>
    rw [insert]
    split
    · rfl
    · split
      · rw [placed_cons, ih, placed_cons, placed_cons, placed_cons, add_left_comm]
      · rename_i h h'
        have hplace : x.row = t.row ∧ x.col = t.col := by
          unfold Triplet.Before at h h'; omega
        rw [placed_cons, placed_cons, placed_cons, ← hplace.1, ← hplace.2]
        by_cases hx : x.row = r ∧ x.col = c
        · rw [if_pos hx, if_pos hx, if_pos hx]; ring
        · rw [if_neg hx, if_neg hx, if_neg hx]; ring

theorem placed_gatherFrom {m n r c : Nat} (hr : r < m) (hc : c < n) (ts xs : List (Triplet R)) :
    placed r c (gatherFrom m n ts xs) = placed r c ts + placed r c xs := by
  induction ts generalizing xs with
  | nil => rw [placed_nil, zero_add]; rfl
  | cons t ts ih =>
    show placed r c (gatherFrom m n ts (if t.row < m ∧ t.col < n then insert t xs else xs)) = _
    rw [ih, placed_cons]
    by_cases ht : t.row < m ∧ t.col < n
    · rw [if_pos ht, placed_insert, placed_cons]; ring
    · rw [if_neg ht, if_neg (by omega)]; ring

theorem entry_eq_placed (a : Sparse R) (r c : Nat) : a.entry r c = placed r c a.entries := by
  rw [entry, foldl_ite_add, zero_add]; rfl

theorem entry_gather {m n r c : Nat} (hr : r < m) (hc : c < n) (ts : List (Triplet R)) :
    (gather m n ts).entry r c = placed r c ts := by
  rw [entry_eq_placed]
  show placed r c (gatherFrom m n (arranged ts) []) = _
  rw [placed_gatherFrom hr hc, placed_nil, add_zero, placed_perm (arranged_perm ts)]

/-- Where there is an entry, a triplet is stored. -/
theorem exists_mem_of_entry_ne_zero {a : Sparse R} {r c : Nat} (h : a.entry r c ≠ 0) :
    ∃ e ∈ a.entries, e.row = r ∧ e.col = c := by
  by_contra hnone
  refine h ((entry_eq_placed a r c).trans (List.sum_eq_zero fun v hv => ?_))
  obtain ⟨e, he, rfl⟩ := List.mem_map.1 hv
  exact if_neg fun hplace => hnone ⟨e, he, hplace⟩

/-- A sum along a row of triplets, each weighted by its column. -/
theorem sum_placed_mul {n : Nat} (r : Nat) (ts : List (Triplet R)) (g : Nat → R)
    (h : ∀ e ∈ ts, e.col < n) :
    ∑ c ∈ Finset.range n, placed r c ts * g c
      = (ts.map fun e => if e.row = r then e.value * g e.col else 0).sum := by
  induction ts with
  | nil => simp [placed_nil]
  | cons t ts ih =>
    have ht : t.col ∈ Finset.range n := Finset.mem_range.2 (h t List.mem_cons_self)
    rw [List.map_cons, List.sum_cons, ← ih fun e he => h e (List.mem_cons_of_mem t he)]
    simp only [placed_cons, add_mul]
    rw [Finset.sum_add_distrib]
    congr 1
    by_cases hr : t.row = r
    · simp [hr, ite_mul, Finset.sum_ite_eq, ht]
    · simp [hr]

/-- A sum along a row of a sparse matrix goes over the stored entries of the row. -/
theorem sum_entry_mul (a : Sparse R) (r : Nat) (g : Nat → R) :
    ∑ c ∈ Finset.range a.n, a.entry r c * g c
      = (a.entries.map fun e => if e.row = r then e.value * g e.col else 0).sum := by
  simp only [entry_eq_placed]
  exact sum_placed_mul r _ g fun e he => (a.inside e he).2

/-! ## The entries of the operations -/

theorem entry_mulVec (a : Sparse R) (x : Array R) {r : Nat} (hr : r < a.m) :
    Vec.entry (a.mulVec x) r = ∑ c ∈ Finset.range a.n, a.entry r c * Vec.entry x c := by
  rw [mulVec, Vec.entry_build _ hr, foldl_ite_add, zero_add, sum_entry_mul]

/-- What a filtered list of places puts somewhere. -/
theorem placed_filterMap {f : Nat → R} {g : Nat → Nat × Nat} (r c n : Nat) :
    placed r c ((List.range n).filterMap fun i =>
        if f i != 0 then some (⟨(g i).1, (g i).2, f i⟩ : Triplet R) else none)
      = ∑ i ∈ Finset.range n, if g i = (r, c) then f i else 0 := by
  induction n with
  | zero => rfl
  | succ n ih =>
    rw [List.range_succ, List.filterMap_append, placed_append, ih, Finset.sum_range_succ]
    congr 1
    by_cases hf : f n = 0
    · simp [hf, placed_nil]
    · simp [hf, placed_cons, placed_nil, Prod.ext_iff]

theorem entry_ofDense (d : Dense R) {r c : Nat} (hr : r < d.m) (hc : c < d.n) :
    (ofDense d).entry r c = d.entry r c := by
  rw [ofDense, entry_gather hr hc, placed_flatMap_range]
  have hcol (j : Nat) := placed_filterMap (f := fun i => d.entry i j) (g := fun i => (i, j)) r c d.m
  simp only [hcol, Prod.mk.injEq]
  rw [Finset.sum_eq_single c]
  · rw [Finset.sum_eq_single r]
    · rw [if_pos ⟨rfl, rfl⟩]
    · intro i _ hi
      rw [if_neg fun h => hi h.1]
    · intro h
      exact absurd (Finset.mem_range.2 hr) h
  · intro j _ hj
    exact Finset.sum_eq_zero fun i _ => if_neg fun h => hj h.2
  · intro h
    exact absurd (Finset.mem_range.2 hc) h

theorem entry_ofDiagonal (d : Array R) {r c : Nat} (hr : r < d.size) (hc : c < d.size) :
    (ofDiagonal d).entry r c = if r = c then Vec.entry d r else 0 := by
  rw [ofDiagonal, entry_gather hr hc]
  rw [placed_filterMap (f := fun i => Vec.entry d i) (g := fun i => (i, i)), Finset.sum_eq_single r]
  · by_cases h : r = c
    · rw [if_pos h, if_pos (by rw [h])]
    · rw [if_neg h, if_neg fun hp => h (Prod.mk.inj hp).2]
  · intro i _ hi
    exact if_neg fun hp => hi (Prod.mk.inj hp).1
  · intro h
    exact absurd (Finset.mem_range.2 hr) h

theorem entry_transpose (a : Sparse R) {r c : Nat} (hr : r < a.n) (hc : c < a.m) :
    a.transpose.entry r c = a.entry c r := by
  rw [transpose, entry_gather hr hc, entry_eq_placed, placed, placed, List.map_map]
  congr 1
  refine List.map_congr_left fun e _ => ?_
  simp only [Function.comp_apply, and_comm]

theorem entry_scale (alpha : R) (a : Sparse R) {r c : Nat} (hr : r < a.m) (hc : c < a.n) :
    (a.scale alpha).entry r c = alpha * a.entry r c := by
  rw [scale, entry_gather hr hc, entry_eq_placed, placed, placed, List.map_map,
    ← List.sum_map_mul_left]
  congr 1
  refine List.map_congr_left fun e _ => ?_
  simp only [Function.comp_apply, mul_ite, mul_zero]

theorem entry_add (a b : Sparse R) {r c : Nat} (hr : r < a.m) (hc : c < a.n) :
    (a.add b).entry r c = a.entry r c + b.entry r c := by
  rw [add, entry_gather hr hc, placed_append, entry_eq_placed, entry_eq_placed]

/-- What one entry of the right factor adds to a product. -/
theorem placed_mul_entry (a : Sparse R) (f : Triplet R) (r c : Nat) :
    placed r c ((a.entries.filter fun e => e.col = f.row).map fun e =>
        (⟨e.row, f.col, e.value * f.value⟩ : Triplet R))
      = if f.col = c then f.value * a.entry r f.row else 0 := by
  rw [entry_eq_placed]
  induction a.entries with
  | nil => simp [placed_nil]
  | cons e es ih =>
    rw [List.filter_cons, placed_cons]
    by_cases he : e.col = f.row
    · rw [if_pos (decide_eq_true he), List.map_cons, placed_cons, ih]
      by_cases hc : f.col = c
      · by_cases hr : e.row = r <;> simp [hc, hr, he, mul_add, mul_comm]
      · simp [hc]
    · have hplace : ¬ (e.row = r ∧ e.col = f.row) := fun h => he h.2
      rw [if_neg (by simpa using he), ih, if_neg hplace, zero_add]

theorem entry_mul (a b : Sparse R) {r c : Nat} (hab : a.n = b.m) (hr : r < a.m) (hc : c < b.n) :
    (a.mul b).entry r c = ∑ k ∈ Finset.range a.n, a.entry r k * b.entry k c := by
  have hcol := sum_placed_mul (n := b.m) c (b.entries.map fun f => ⟨f.col, f.row, f.value⟩)
    (fun k => a.entry r k) (by
      intro e he
      obtain ⟨f, hf, rfl⟩ := List.mem_map.1 he
      exact (b.inside f hf).1)
  have hswap (k : Nat) : placed c k (b.entries.map fun f => (⟨f.col, f.row, f.value⟩ : Triplet R))
      = b.entry k c := by
    rw [entry_eq_placed, placed, placed, List.map_map]
    simp only [Function.comp_def, and_comm]
  simp only [hswap] at hcol
  rw [mul, entry_gather hr hc, products, placed_flatMap, hab]
  simp only [placed_mul_entry, mul_comm (a.entry r _)]
  rw [hcol, List.map_map]
  rfl

theorem entry_kronecker (a b : Sparse R) {r c : Nat} (hr : r < a.m * b.m) (hc : c < a.n * b.n) :
    (a.kronecker b).entry r c
      = a.entry (r / b.m) (c / b.n) * b.entry (r % b.m) (c % b.n) := by
  rw [kronecker, entry_gather hr hc, placed_flatMap, entry_eq_placed, placed, ← List.sum_map_mul_right]
  congr 1
  refine List.map_congr_left fun e _ => ?_
  rw [entry_eq_placed, placed, placed, List.map_map, ← List.sum_map_mul_left]
  congr 1
  refine List.map_congr_left fun f hf => ?_
  have hf' := b.inside f hf
  -- an entry of `a` fixes the quotients and one of `b` the remainders
  simp only [Function.comp_apply, mul_add_eq_iff hf'.1, mul_add_eq_iff hf'.2]
  by_cases he : e.row = r / b.m ∧ e.col = c / b.n
  · by_cases hfm : f.row = r % b.m ∧ f.col = c % b.n
    · rw [if_pos ⟨⟨he.1, hfm.1⟩, he.2, hfm.2⟩, if_pos he, if_pos hfm]
    · rw [if_neg fun h => hfm ⟨h.1.2, h.2.2⟩, if_neg hfm, mul_zero]
  · rw [if_neg fun h => he ⟨h.1.1, h.2.1⟩, if_neg he, zero_mul]

omit [ExactScalar R] in
theorem size_of_diagonal? [Scalar R] {a : Sparse R} {d : Array R} (h : a.diagonal? = some d) :
    d.size = a.n := by
  rw [diagonal?] at h
  split at h
  · cases h; exact Vec.size_build ..
  · cases h

/-- The diagonal of a matrix that stores only zeros beside it. -/
theorem entry_of_diagonal? {a : Sparse R} {d : Array R} (h : a.diagonal? = some d) {r c : Nat}
    (hr : r < a.n) : a.entry r c = if r = c then Vec.entry d r else 0 := by
  rw [diagonal?] at h
  split at h
  · rename_i hall
    cases h
    by_cases hrc : r = c
    · subst hrc
      rw [if_pos rfl, Vec.entry_build _ hr]
    · rw [if_neg hrc, entry_eq_placed, placed]
      refine List.sum_eq_zero fun v hv => ?_
      obtain ⟨e, he, rfl⟩ := List.mem_map.1 hv
      have hz := List.all_eq_true.1 hall e he
      rw [Bool.or_eq_true, beq_iff_eq, beq_iff_eq] at hz
      split
      · rename_i hplace
        rcases hz with hz | hz
        · exact absurd (hplace.1.symm.trans (hz.trans hplace.2)) hrc
        · exact hz
      · rfl
  · cases h

omit [ExactScalar R] in
/-- Entries that agree place by place are the same. -/
theorem eq_of_agree {eq : R → R → Bool} (heq : ∀ x y, eq x y = true → x = y) {a b : Sparse R}
    (h : agree eq a b = true) : a = b := by
  obtain ⟨m, n, xs, hs, hi⟩ := a
  obtain ⟨m', n', ys, hs', hi'⟩ := b
  rw [agree, Bool.and_eq_true, Bool.and_eq_true, Bool.and_eq_true, beq_iff_eq, beq_iff_eq,
    beq_iff_eq, List.all_eq_true] at h
  obtain ⟨⟨⟨hm, hn⟩, hlen⟩, hall⟩ := h
  simp only at hm hn hlen hall
  subst hm hn
  have hxy : xs = ys := by
    clear hs hs' hi hi'
    induction xs generalizing ys with
    | nil => exact (List.length_eq_zero_iff.1 hlen.symm).symm
    | cons x xs ih =>
      cases ys with
      | nil => cases hlen
      | cons y ys =>
        have hxy := hall (x, y) List.mem_cons_self
        rw [Bool.and_eq_true, Bool.and_eq_true, beq_iff_eq, beq_iff_eq] at hxy
        obtain ⟨⟨hr, hc⟩, hv⟩ := hxy
        have hxy : x = y := by
          obtain ⟨r, c, v⟩ := x
          obtain ⟨r', c', v'⟩ := y
          rw [Triplet.mk.injEq]
          exact ⟨hr, hc, heq v v' hv⟩
        rw [hxy, ih ys (fun p hp => hall p (List.mem_cons_of_mem _ hp)) (Nat.succ.inj hlen)]
  subst hxy
  rfl

theorem eq_of_equal {a b : Sparse R} (h : a.equal b = true ∨ a.same b = true) : a = b := by
  rcases h with h | h
  · exact eq_of_agree (fun x y hxy => beq_iff_eq.1 hxy) h
  · exact eq_of_agree (fun x y hxy => (same_iff x y).1 hxy) h

end Sparse

end BlockAdmm
