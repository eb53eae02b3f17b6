/-
  The sizes of vectors and matrices.

  An operation on vectors or matrices that fit keeps its promises, and its result has the size that the
  sizes of the operands say; only what is to be stored can be too large.  A sparse matrix stores no more
  entries than it has places, so for the triplets it is made from there is a bound in its size.  The scalars
  may be any.
-/
import BlockAdmm.Proofs.Safety.Outcome
import BlockAdmm.Proofs.Vec
import BlockAdmm.Sparse

namespace BlockAdmm

open Scalar

variable {R : Type} [Scalar R] {E : Fault → Prop} [Limits E]

namespace Vec

omit [Limits E]

theorem ends_dot {x y : Array R} (h : x.size = y.size) : Ends E (fun _ => True) (dot x y) :=
  (ends_promise (beq_iff_eq.2 h)).bind fun _ _ => ends_ok trivial

theorem ends_addScaled (alpha : R) {x y : Array R} (h : x.size = y.size) :
    Ends E (fun z => z.size = y.size) (addScaled alpha x y) :=
  (ends_promise (beq_iff_eq.2 h)).bind fun _ _ => ends_ok (size_axpy ..)

theorem ends_slice {x : Array R} {o d : Nat} (h : o + d ≤ x.size) :
    Ends E (fun y => y.size = d) (slice x o d) :=
  (ends_promise (decide_eq_true h)).bind fun _ _ => ends_ok (size_build ..)

theorem ends_overwrite {x y : Array R} {o : Nat} (h : o + y.size ≤ x.size) :
    Ends E (fun z => z.size = x.size) (overwrite x o y) :=
  (ends_promise (decide_eq_true h)).bind fun _ _ => ends_ok (size_build ..)

end Vec

namespace Dense

omit [Scalar R] [Limits E] in
theorem ends_make {m n : Nat} (hroom : Allows E (m * n)) (f : Nat → Nat → R) :
    Ends E (fun a => a.size = (m, n)) (make m n f) :=
  hroom.ends_room.bind fun _ _ => ends_ok rfl

omit [Limits E] in
theorem ends_mulVec {a : Dense R} {x : Array R} (hroom : Allows E a.m) (hx : x.size = a.n) :
    Ends E (fun y => y.size = a.m) (a.mulVec x) := by
  refine hroom.ends_room.bind fun _ _ => ?_
  split
  · have hfit : (x.size == a.n && (Vec.zero a.m : Array R).size == a.m) = true := by
      rw [hx, Vec.size_zero, beq_self_eq_true, beq_self_eq_true, Bool.and_self]
    exact (ends_promise hfit).bind fun _ _ => ends_ok (Vec.size_build ..)
  · exact ends_ok (Vec.size_zero _)

theorem ends_transMulVec {a : Dense R} {x : Array R} (hx : x.size = a.m) :
    Ends E (fun y => y.size = a.n) (a.transMulVec x) := by
  refine (ends_room _).bind fun _ _ => ?_
  split
  · have hfit : (x.size == a.m && (Vec.zero a.n : Array R).size == a.n) = true := by
      rw [hx, Vec.size_zero, beq_self_eq_true, beq_self_eq_true, Bool.and_self]
    exact (ends_promise hfit).bind fun _ _ => ends_ok (Vec.size_build ..)
  · exact ends_ok (Vec.size_zero _)

omit [Limits E] in
theorem ends_mulMat {a b : Dense R} (hroom : Allows E (a.m * b.n)) (h : a.n = b.m) :
    Ends E (fun d => d.size = (a.m, b.n)) (a.mulMat b) :=
  (ends_promise (beq_iff_eq.2 h)).bind fun _ _ => hroom.ends_room.bind fun _ _ => ends_ok rfl

omit [Limits E] in
theorem ends_addScaled {a b : Dense R} (alpha : R) (h : b.size = a.size) :
    Ends E (fun d => d.size = a.size) (addScaled alpha b a) := by
  obtain ⟨hm, hn⟩ := Prod.mk.inj h
  have hfit : (a.m == b.m && a.n == b.n) = true := by
    rw [hm, hn, beq_self_eq_true, beq_self_eq_true, Bool.and_self]
  exact (ends_promise hfit).bind fun _ _ => ends_ok rfl

end Dense

namespace Sparse

omit [Limits E]

theorem ends_expand {a : Sparse R} (hroom : Allows E (a.m * a.n)) :
    Ends E (fun d => d.size = a.size) a.expand :=
  hroom.ends_room.bind fun _ _ => ends_ok rfl

theorem ends_flip {a : Sparse R} (hroom : Allows E (a.m + 1)) :
    Ends E (fun t => t.size = (a.n, a.m)) a.flip :=
  hroom.ends_room.bind fun _ _ => ends_ok rfl

/-! ## How many entries are stored -/

omit [Scalar R]

theorem length_le_of_increasing {is : List Nat} {n : Nat} (h : is.Pairwise (· < ·)) (hn : ∀ i ∈ is, i < n) :
    is.length ≤ n := by
  have hsub : is ⊆ List.range n := fun i hi => List.mem_range.2 (hn i hi)
  have hle := (List.subperm_of_subset (h.imp Nat.ne_of_lt) hsub).length_le
  rwa [List.length_range] at hle

theorem place_lt {m c : Nat} {e : Triplet R} (hrow : e.row < m) (hcol : e.col < c) :
    m * e.col + e.row < m * c :=
  calc m * e.col + e.row < m * (e.col + 1) := Nat.add_lt_add_left hrow _
    _ ≤ m * c := Nat.mul_le_mul_left _ hcol

/-- The entries are at different places, counted column after column. -/
theorem length_entries_le (a : Sparse R) : a.entries.length ≤ a.m * a.n := by
  have hplaces : (a.entries.map fun e => a.m * e.col + e.row).Pairwise (· < ·) := by
    refine List.pairwise_map.2 (a.sorted.imp_of_mem fun {e f} he _ hbefore => ?_)
    rcases hbefore with hcol | ⟨hcol, hlt⟩
    · exact Nat.lt_of_lt_of_le (place_lt (a.inside e he).1 hcol) (Nat.le_add_right ..)
    · rw [hcol]
      exact Nat.add_lt_add_left hlt _
  have hle := length_le_of_increasing hplaces fun i hi => by
    obtain ⟨e, he, rfl⟩ := List.mem_map.1 hi
    exact place_lt (a.inside e he).1 (a.inside e he).2
  rwa [List.length_map] at hle

theorem length_column_le (a : Sparse R) (c : Nat) : (a.entries.filter fun e => e.col = c).length ≤ a.m := by
  have hrows : ((a.entries.filter fun e => e.col = c).map Triplet.row).Pairwise (· < ·) := by
    refine List.pairwise_map.2 ((a.sorted.filter _).imp_of_mem fun {e f} he hf hbefore => ?_)
    have hcol : e.col = c := of_decide_eq_true (List.mem_filter.1 he).2
    have hcol' : f.col = c := of_decide_eq_true (List.mem_filter.1 hf).2
    rcases hbefore with hlt | ⟨-, hlt⟩
    · omega
    · exact hlt
  have hle := length_le_of_increasing hrows fun i hi => by
    obtain ⟨e, he, rfl⟩ := List.mem_map.1 hi
    exact (a.inside e (List.mem_of_mem_filter he)).1
  rwa [List.length_map] at hle

theorem length_products_le [Scalar R] (a b : Sparse R) : (a.products b).length ≤ b.m * b.n * a.m := by
  have hcolumns (i) (hi : i ∈ b.entries.map fun f => ((a.entries.filter fun e => e.col = f.row).map fun e =>
      (⟨e.row, f.col, e.value * f.value⟩ : Triplet R)).length) : i ≤ a.m := by
    obtain ⟨f, -, rfl⟩ := List.mem_map.1 hi
    rw [List.length_map]
    exact a.length_column_le f.row
  calc (a.products b).length
    _ ≤ b.entries.length * a.m := by
      rw [products, List.length_flatMap]
      exact Nat.le_trans (List.sum_le_card_nsmul _ _ hcolumns) (by rw [List.length_map]; exact Nat.le_refl _)
    _ ≤ b.m * b.n * a.m := Nat.mul_le_mul_right _ b.length_entries_le

/-! ## Making matrices of triplets -/

variable [Scalar R]

theorem ends_extract {d : Dense R} (hroom : Allows E (3 * (d.m * d.n))) (hcols : Allows E (d.n + 1)) :
    Ends E (fun a => a = ofDense d) (extract d) :=
  (hroom.mono (Nat.mul_le_mul_left _ (ofDense d).length_entries_le)).ends_room.bind fun _ _ =>
    hcols.ends_room.bind fun _ _ => ends_ok rfl

theorem ends_scatter {d : Array R} (hroom : Allows E (d.size + 1)) :
    Ends E (fun a => a = ofDiagonal d) (scatter d) :=
  hroom.ends_room.bind fun _ _ => ends_ok rfl

theorem ends_merge {a b : Sparse R} (ha : Allows E (3 * (a.m * a.n))) (hb : Allows E (3 * (b.m * b.n))) :
    Ends E (fun s => s = a.add b) (a.merge b) :=
  (ha.mono (Nat.mul_le_mul_left _ a.length_entries_le)).ends_room.bind fun _ _ =>
    (hb.mono (Nat.mul_le_mul_left _ b.length_entries_le)).ends_room.bind fun _ _ => ends_ok rfl

theorem ends_compose {a b : Sparse R} (htable : Allows E (3 * a.n)) (hroom : Allows E (3 * (b.m * b.n * a.m))) :
    Ends E (fun s => s = a.mul b) (a.compose b) :=
  htable.ends_room.bind fun _ _ =>
    (hroom.mono (Nat.mul_le_mul_left _ (a.length_products_le b))).ends_room.bind fun _ _ => ends_ok rfl

/-- The triplets of the right factor are made even if the left one has no entry. -/
theorem ends_tensor {a b : Sparse R} (hroom : Allows E (3 * ((a.m * a.n + 1) * (b.m * b.n))))
    (hcols : Allows E (a.n * b.n + 1)) : Ends E (fun s => s = a.kronecker b) (a.tensor b) := by
  have hright : b.entries.length ≤ (a.m * a.n + 1) * (b.m * b.n) :=
    Nat.le_trans b.length_entries_le (Nat.le_mul_of_pos_left _ (Nat.succ_pos _))
  have hboth : a.entries.length * b.entries.length ≤ (a.m * a.n + 1) * (b.m * b.n) :=
    Nat.mul_le_mul (Nat.le_succ_of_le a.length_entries_le) b.length_entries_le
  exact (hroom.mono (Nat.mul_le_mul_left _ hright)).ends_room.bind fun _ _ =>
    (hroom.mono (Nat.mul_le_mul_left _ hboth)).ends_room.bind fun _ _ =>
      hcols.ends_room.bind fun _ _ => ends_ok rfl

variable {a b s : Sparse R}

theorem eq_of_extract {d : Dense R} (h : extract d = .ok s) : s = ofDense d :=
  (ends_extract (E := fun _ => True) (allows_of_limits _) (allows_of_limits _)).of_eq_ok h

theorem eq_of_scatter {d : Array R} (h : scatter d = .ok s) : s = ofDiagonal d :=
  (ends_scatter (E := fun _ => True) (allows_of_limits _)).of_eq_ok h

theorem eq_of_merge (h : a.merge b = .ok s) : s = a.add b :=
  (ends_merge (E := fun _ => True) (allows_of_limits _) (allows_of_limits _)).of_eq_ok h

theorem eq_of_compose (h : a.compose b = .ok s) : s = a.mul b :=
  (ends_compose (E := fun _ => True) (allows_of_limits _) (allows_of_limits _)).of_eq_ok h

theorem eq_of_tensor (h : a.tensor b = .ok s) : s = a.kronecker b :=
  (ends_tensor (E := fun _ => True) (allows_of_limits _) (allows_of_limits _)).of_eq_ok h

end Sparse

end BlockAdmm
