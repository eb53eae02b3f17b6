/-
  The products of an argument.

  An argument is applied map by map: each map takes the interval of its variable, and the images add up
  (`Bears.ends_apply`).  Its transpose goes the other way, from the components to the intervals
  (`Bears.ends_transApply`).  Over the matrix that the maps stand for, the first gives the row sums and the
  second the column sums.  For the rows, the places of the flat vector are taken interval by interval
  (`sum_intervals`); for the columns, a place lies in the interval of one variable only (`sum_at_place`).
-/
import BlockAdmm.Proofs.Prox.Argument
import BlockAdmm.Proofs.LinearMap.Algebra
import BlockAdmm.Proofs.Safety.Matrix

namespace BlockAdmm

open Scalar ExactScalar

variable {R : Type} [ExactScalar R] {E : Fault → Prop}

namespace Vec

/-- Vectors that are added one after the other add up. -/
theorem ends_foldlM_sum {α : Type} {f : Array R → α → Outcome (Array R)} {n : Nat} {add : α → Nat → R}
    {xs : List α} {y : Array R} (hy : y.size = n)
    (step : ∀ a ∈ xs, ∀ y, y.size = n → Ends E (fun z => z.size = n ∧
      ∀ i, i < n → entry z i = entry y i + add a i) (f y a)) :
    Ends E (fun z => z.size = n ∧ ∀ i, i < n → entry z i = entry y i + (xs.map fun a => add a i).sum)
      (xs.foldlM f y) := by
  induction xs generalizing y with
  | nil => exact ends_ok ⟨hy, fun i _ => (add_zero _).symm⟩
  | cons a xs ih =>
    rw [List.foldlM_cons]
    refine (step a List.mem_cons_self y hy).bind fun y' hy' => ?_
    refine (ih hy'.1 fun b hb => step b (List.mem_cons_of_mem a hb)).imp fun z hz => ⟨hz.1, fun i hi => ?_⟩
    rw [hz.2 i hi, hy'.2 i hi, List.map_cons, List.sum_cons, add_assoc]

/-- The entries of an interval. -/
theorem ends_slice_entries {x : Array R} {o d : Nat} (h : o + d ≤ x.size) :
    Ends E (fun y => y.size = d ∧ ∀ c, c < d → entry y c = entry x (o + c)) (slice x o d) :=
  (ends_promise (decide_eq_true h)).bind fun _ _ => ends_ok ⟨size_build .., fun _ hc => entry_build _ hc⟩

end Vec

namespace Argument

variable {a : Argument R} {layout : Layout} {g : Lore R} {h : Nat → Nat → R} {x y : Array R}

/-! ## Sums over the places -/

/-- A sum that vanishes outside of the intervals of the argument, interval by interval. -/
theorem sum_intervals (ha : a.Matches layout) {f : Nat → R}
    (hzero : ∀ j, (∀ kl ∈ a.maps.entries, kl.1 ≠ (layout.cellAt j).1) → f j = 0) :
    ∑ j ∈ Finset.range layout.n, f j
      = (a.maps.entries.map fun kl => ∑ c ∈ Finset.range kl.2.n, f (layout.offset kl.1 + c)).sum := by
  have hkeys := Keyed.sumOver_eq_sum_keys
    (fun k (l : LinearMap R) => ∑ c ∈ Finset.range l.n, f (layout.offset k + c)) a.maps
  rw [Layout.sum_range_eq_sum_cells, sum_cells, show (a.maps.entries.map _).sum = _ from hkeys]
  refine (Finset.sum_subset_zero_on_sdiff (fun k hk => ?_) (fun k hk => ?_) fun k hk => ?_).symm
  · obtain ⟨l, hl⟩ := Keyed.mem_keys_iff.1 (List.mem_toFinset.1 hk)
    obtain ⟨d, hd, -⟩ := ha.maps (k, l) (Keyed.get?_eq_some_iff.1 hl)
    exact List.mem_toFinset.2 (Keyed.mem_keys_iff.2 ⟨d, hd⟩)
  · -- the argument has no map for the variable
    obtain ⟨hk, hnone⟩ := Finset.mem_sdiff.1 hk
    obtain ⟨d, hd⟩ := Keyed.mem_keys_iff.1 (List.mem_toFinset.1 hk)
    rw [hd]
    refine Finset.sum_eq_zero fun i hi => hzero _ fun kl hkl hkey => hnone ?_
    rw [Layout.cellAt_offset hd (Finset.mem_range.1 hi)] at hkey
    exact List.mem_toFinset.2 (List.mem_map.2 ⟨kl, hkl, hkey⟩)
  · obtain ⟨l, hl⟩ := Keyed.mem_keys_iff.1 (List.mem_toFinset.1 hk)
    obtain ⟨d, hd, hsize⟩ := ha.maps (k, l) (Keyed.get?_eq_some_iff.1 hl)
    obtain rfl : l.n = d := congrArg Prod.snd hsize
    rw [hl, hd]
    rfl

/-- Of the maps of an argument, only that of the variable at a place adds something there. -/
theorem sum_at_place {j : Nat} {t : R} (hzero : (∀ kl ∈ a.maps.entries, kl.1 ≠ (layout.cellAt j).1) → t = 0) :
    (a.maps.entries.map fun kl => if kl.1 = (layout.cellAt j).1 then t else 0).sum = t := by
  refine (Keyed.sumOver_ite a.maps (layout.cellAt j).1 fun _ => t).trans ?_
  cases hget : a.maps.get? (layout.cellAt j).1 with
  | some l => rfl
  | none =>
    refine (hzero fun kl hkl hkey => ?_).symm
    have hsome : a.maps.get? kl.1 = some kl.2 := Keyed.get?_eq_some_iff.2 hkl
    rw [hkey, hget] at hsome
    cases hsome

/-! ## The argument applied -/

/-- One map adds the row sums over the interval of its variable. -/
theorem Bears.ends_addImage {kl : String × LinearMap R} (hb : a.Bears g layout h) (ha : a.Matches layout)
    (hkl : kl ∈ a.maps.entries) (hroom : Allows g.faults kl.2.extent) (hx : x.size = layout.n)
    (hy : y.size = a.dim) : Ends g.faults (fun z => z.size = a.dim ∧ ∀ i, i < a.dim →
      Vec.entry z i = Vec.entry y i + ∑ c ∈ Finset.range kl.2.n,
        h i (layout.offset kl.1 + c) * Vec.entry x (layout.offset kl.1 + c)) (addImage layout x y kl) := by
  obtain ⟨d, hd, hsize⟩ := ha.maps kl hkl
  obtain rfl : kl.2.n = d := congrArg Prod.snd hsize
  have hstands : kl.2.Stands g a.dim kl.2.n fun r c => h r (layout.offset kl.1 + c) := ⟨hsize, hb.maps kl hkl⟩
  have hspan : layout.offset kl.1 + kl.2.n ≤ x.size := hx ▸ Layout.offset_add_le hd
  rw [addImage, Layout.get?_eq_some_of_size hd]
  refine (Vec.ends_slice_entries hspan).bind fun part hpart => ?_
  refine (hstands.apply hroom part hpart.1).bind fun v hv => ends_ok ⟨(Vec.size_increase ..).trans hy, ?_⟩
  intro i hi
  rw [Vec.entry_increase (hv.1.trans hy.symm), hv.2 i hi]
  exact congrArg _ (Finset.sum_congr rfl fun c hc => congrArg _ (hpart.2 c (Finset.mem_range.1 hc)))

/-- The value of an argument has the row sums of its matrix, with the constant part. -/
theorem Bears.ends_apply (hb : a.Bears g layout h) (ha : a.Matches layout)
    (hmaps : ∀ kl ∈ a.maps.entries, Allows g.faults kl.2.extent) (hx : x.size = layout.n) :
    Ends g.faults (fun y => y.size = a.dim ∧ ∀ i, i < a.dim →
      Vec.entry y i = rowSum layout.n h (Vec.entry x) i + Vec.entry a.offset i) (a.apply layout x) := by
  refine (Vec.ends_foldlM_sum ha.offset fun kl hkl y hy =>
    hb.ends_addImage ha hkl (hmaps kl hkl) hx hy).imp fun y hy => ⟨hy.1, fun i hi => ?_⟩
  rw [hy.2 i hi, add_comm, rowSum, sum_intervals ha fun j hj => by rw [hb.zero i j hj, zero_mul]]

/-! ## The transpose applied -/

/-- A place lies in the interval of a variable if the variable stands there. -/
theorem mem_interval_iff {k : String} {d j : Nat} (hd : layout.sizes.get? k = some d) (hj : j < layout.n) :
    layout.offset k ≤ j ∧ j < layout.offset k + d ↔ k = (layout.cellAt j).1 := by
  refine ⟨fun h => ?_, fun h => mem_interval_of_cellAt hd hj h.symm⟩
  have hcell := Layout.cellAt_offset hd (show j - layout.offset k < d by omega)
  rw [Nat.add_sub_cancel' h.1] at hcell
  rw [hcell]

/-- What is added in the interval of a variable. -/
theorem entry_increaseAt {k : String} {d j : Nat} {v : Array R} (hd : layout.sizes.get? k = some d)
    (hx : x.size = layout.n) (hv : v.size = d) (hj : j < layout.n) :
    Vec.entry (increaseAt x ⟨layout.offset k, d⟩ v) j
      = Vec.entry x j + if k = (layout.cellAt j).1 then Vec.entry v (j - layout.offset k) else 0 := by
  rw [increaseAt, Vec.entry_build _ (hx ▸ hj), hv, Nat.min_self, ← if_congr (mem_interval_iff hd hj) rfl rfl]
  simp only [Bool.and_eq_true, decide_eq_true_eq]
  split
  · rfl
  · rw [add_zero]

/-- One map adds the column sums in the interval of its variable. -/
theorem Bears.ends_addBackImage {kl : String × LinearMap R} (hb : a.Bears g layout h) (ha : a.Matches layout)
    (hg : g.transposes) (hkl : kl ∈ a.maps.entries) (hroom : Allows g.faults kl.2.extent)
    (hy : y.size = a.dim) (hx : x.size = layout.n) :
    Ends g.faults (fun z => z.size = layout.n ∧ ∀ j, j < layout.n → Vec.entry z j
        = Vec.entry x j + if kl.1 = (layout.cellAt j).1
          then ∑ i ∈ Finset.range a.dim, h i j * Vec.entry y i else 0)
      (addBackImage layout y x kl) := by
  obtain ⟨d, hd, hsize⟩ := ha.maps kl hkl
  have hstands : kl.2.Stands g a.dim d fun r c => h r (layout.offset kl.1 + c) := ⟨hsize, hb.maps kl hkl⟩
  rw [addBackImage, Layout.get?_eq_some_of_size hd]
  refine ((hstands.transpose hroom).and_eq fun t ht => LinearMap.extent_transpose_le ht).bind fun t ht => ?_
  refine ((ht.1 hg).apply (hroom.mono ht.2) y hy).bind fun v hv => ends_ok ⟨(Vec.size_build ..).trans hx, ?_⟩
  intro j hj
  rw [entry_increaseAt hd hx hv.1 hj]
  refine congrArg _ (if_ctx_congr Iff.rfl (fun hkey => ?_) fun _ => rfl)
  have hin := (mem_interval_iff hd hj).2 hkey
  rw [hv.2 _ (show j - layout.offset kl.1 < d by omega), rowSum]
  refine Finset.sum_congr rfl fun i _ => ?_
  rw [Nat.add_sub_cancel' hin.1]

/-- The transpose of an argument gives the column sums of its matrix. -/
theorem Bears.ends_transApply (hb : a.Bears g layout h) (ha : a.Matches layout) (hg : g.transposes)
    (hroom : Allows g.faults layout.n) (hmaps : ∀ kl ∈ a.maps.entries, Allows g.faults kl.2.extent)
    (hy : y.size = a.dim) : Ends g.faults (fun x => x.size = layout.n ∧ ∀ j, j < layout.n →
      Vec.entry x j = ∑ i ∈ Finset.range a.dim, h i j * Vec.entry y i) (a.transApply layout y) := by
  refine hroom.ends_room.bind fun _ _ => ?_
  refine (Vec.ends_foldlM_sum (Vec.size_zero layout.n) fun kl hkl x hx =>
    hb.ends_addBackImage ha hg hkl (hmaps kl hkl) hy hx).imp fun x hx => ⟨hx.1, fun j hj => ?_⟩
  rw [hx.2 j hj, Vec.entry_zero, zero_add]
  exact sum_at_place fun hnone => Finset.sum_eq_zero fun i _ => by rw [hb.zero i j hnone, zero_mul]

end Argument

end BlockAdmm
