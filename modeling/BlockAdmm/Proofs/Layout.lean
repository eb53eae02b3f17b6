/-
  Flat vectors and block vectors.

  The intervals of a layout tile the flat vector, so every index of it is the index of one variable
  (`sum_range_eq_sum_cells`).  Splitting a flat vector gives the variables of the layout and nothing
  else (`get?_split`), and flattening puts the entries of each variable into its interval, zeros for a
  variable that is missing (`flatten_eq_ok`).
-/
import BlockAdmm.Proofs.Block.Matrix
import BlockAdmm.Prox.Layout

namespace BlockAdmm

namespace Layout

/-! ## Intervals -/

theorem map_fst_spansFrom (o : Nat) (vars : List (String × Nat)) :
    (spansFrom o vars).map Prod.fst = vars.map Prod.fst := by
  induction vars generalizing o with
  | nil => rfl
  | cons kd vars ih => rw [spansFrom, List.map_cons, List.map_cons, ih]

theorem find_spansFrom (o : Nat) (vars : List (String × Nat)) (k : String) :
    (Keyed.find k (spansFrom o vars)).map Span.size = Keyed.find k vars := by
  induction vars generalizing o with
  | nil => rfl
  | cons kd vars ih =>
    rw [spansFrom, Keyed.find, Keyed.find]
    split
    · rfl
    · exact ih _

/-- `l.spanMap`: the intervals of a layout by name. -/
def spanMap (l : Layout) : Keyed Span where
  entries := l.spans
  sorted := by
    have h : (l.spans.map Prod.fst).Pairwise fun a b => a < b := by
      rw [spans, map_fst_spansFrom]
      exact List.pairwise_map.2 l.sizes.sorted
    exact List.pairwise_map.1 h

theorem get?_spanMap (l : Layout) (k : String) : l.spanMap.get? k = l.get? k := rfl

theorem keys_spanMap (l : Layout) : l.spanMap.keys = l.ids := map_fst_spansFrom 0 l.sizes.entries

theorem get?_map_size (l : Layout) (k : String) : (l.get? k).map Span.size = l.sizes.get? k :=
  find_spansFrom 0 l.sizes.entries k

theorem mem_ids_iff {l : Layout} {k : String} : k ∈ l.ids ↔ ∃ d, l.sizes.get? k = some d :=
  Keyed.mem_keys_iff

/-- `l.offset k`: where the interval of a variable begins. -/
def offset (l : Layout) (k : String) : Nat := ((l.get? k).map Span.offset).getD 0

theorem get?_eq_some_of_size {l : Layout} {k : String} {d : Nat} (h : l.sizes.get? k = some d) :
    l.get? k = some ⟨l.offset k, d⟩ := by
  rw [← get?_map_size] at h
  rw [offset]
  cases hs : l.get? k with
  | none => rw [hs] at h; cases h
  | some s =>
    rw [hs] at h
    cases h
    rfl

theorem sum_eq_sum_map (m : Keyed Nat) : m.sum = (m.entries.map Prod.snd).sum := rfl

/-- A variable stands where its interval is. -/
theorem mem_spans {l : Layout} {k : String} {s : Span} : l.get? k = some s ↔ (k, s) ∈ l.spans := by
  rw [← get?_spanMap, Keyed.get?_eq_some_iff]
  rfl

theorem offset_add_size_le {o : Nat} {vars : List (String × Nat)} {k : String} {s : Span}
    (h : (k, s) ∈ spansFrom o vars) : s.offset + s.size ≤ o + (vars.map Prod.snd).sum := by
  induction vars generalizing o with
  | nil => exact absurd h List.not_mem_nil
  | cons kd vars ih =>
    rw [List.map_cons, List.sum_cons]
    rcases List.mem_cons.1 h with heq | h
    · cases heq
      exact Nat.add_le_add_left (Nat.le_add_right _ _) o
    · have := ih h
      omega

/-- The interval of a variable lies in the flat vector. -/
theorem offset_add_le {l : Layout} {k : String} {d : Nat} (h : l.sizes.get? k = some d) :
    l.offset k + d ≤ l.n := by
  have hle := offset_add_size_le (mem_spans.1 (get?_eq_some_of_size h))
  rw [Nat.zero_add] at hle
  exact hle

variable {R : Type}

/-- The intervals one after another make up the whole range. -/
theorem sum_spansFrom [AddCommMonoid R] (f : Nat → R) (o : Nat) (vars : List (String × Nat)) :
    ∑ t ∈ Finset.range (vars.map Prod.snd).sum, f (o + t)
      = ((spansFrom o vars).map fun ks =>
          ∑ i ∈ Finset.range ks.2.size, f (ks.2.offset + i)).sum := by
  induction vars generalizing o with
  | nil => rfl
  | cons kd vars ih =>
    rw [List.map_cons, List.sum_cons, spansFrom, List.map_cons, List.sum_cons, Finset.sum_range_add,
      ← ih]
    refine congrArg _ (Finset.sum_congr rfl fun t _ => ?_)
    rw [Nat.add_assoc]

variable [ExactScalar R]

/-- A sum over the indices of the flat vector, variable by variable. -/
theorem sum_range_eq_sum_cells (l : Layout) (f : Nat → R) :
    ∑ t ∈ Finset.range l.n, f t = ∑ p ∈ cells l.sizes, f (l.offset p.1 + p.2) := by
  have h := sum_spansFrom f 0 l.sizes.entries
  simp only [Nat.zero_add] at h
  have hn : l.n = (l.sizes.entries.map Prod.snd).sum := sum_eq_sum_map l.sizes
  have hwalk := Keyed.sumOver_eq_sum_keys
    (fun _ s => ∑ i ∈ Finset.range (Span.size s), f (s.offset + i)) l.spanMap
  rw [keys_spanMap] at hwalk
  rw [hn, h, sum_cells]
  refine hwalk.trans (Finset.sum_congr rfl fun k hk => ?_)
  obtain ⟨d, hd⟩ := mem_ids_iff.1 (List.mem_toFinset.1 hk)
  rw [get?_spanMap, get?_eq_some_of_size hd, hd]
  rfl

/-! ## Places -/

/-- `cellFrom vars t`: the variable that stands at place `t` when variables follow one another, with the
    index in it. -/
def cellFrom : List (String × Nat) → Nat → Cell
  | [], t => ⟨"", t⟩
  | (k, d) :: rest, t => if t < d then ⟨k, t⟩ else cellFrom rest (t - d)

/-- `l.cellAt t`: the variable that stands at place `t` of the flat vector, with the index in it. -/
def cellAt (l : Layout) (t : Nat) : Cell := cellFrom l.sizes.entries t

/-- `l.read x`: the flat vector of a point. -/
def read {R : Type} (l : Layout) (x : String → Nat → R) (t : Fin l.n) : R :=
  x (l.cellAt t).1 (l.cellAt t).2

theorem mem_spansFrom_cellFrom {vars : List (String × Nat)} {t : Nat}
    (ht : t < (vars.map Prod.snd).sum) (o : Nat) : ∃ s, ((cellFrom vars t).1, s) ∈ spansFrom o vars ∧
      (cellFrom vars t).2 < s.size ∧ s.offset + (cellFrom vars t).2 = o + t := by
  induction vars generalizing o t with
  | nil => exact absurd ht (Nat.not_lt_zero t)
  | cons kd vars ih =>
    rw [List.map_cons, List.sum_cons] at ht
    rw [cellFrom, spansFrom]
    split
    · rename_i hlt
      exact ⟨⟨o, kd.2⟩, List.mem_cons_self, hlt, rfl⟩
    · rename_i hge
      obtain ⟨s, hs, hlt, heq⟩ := ih (t := t - kd.2) (by omega) (o + kd.2)
      exact ⟨s, List.mem_cons_of_mem _ hs, hlt, by omega⟩

/-- Every place of the flat vector belongs to a variable. -/
theorem cellAt_eq {l : Layout} {t : Nat} (ht : t < l.n) : ∃ d, l.sizes.get? (l.cellAt t).1 = some d ∧
    (l.cellAt t).2 < d ∧ l.offset (l.cellAt t).1 + (l.cellAt t).2 = t := by
  obtain ⟨s, hs, hlt, heq⟩ := mem_spansFrom_cellFrom ht 0
  have hget : l.get? (l.cellAt t).1 = some s := mem_spans.2 hs
  refine ⟨s.size, ?_, hlt, ?_⟩
  · rw [← get?_map_size, hget]
    rfl
  · rw [offset, hget]
    exact heq.trans (Nat.zero_add t)

theorem cellFrom_of_mem_spansFrom {o : Nat} {vars : List (String × Nat)} {k : String} {s : Span}
    (h : (k, s) ∈ spansFrom o vars) {i : Nat} (hi : i < s.size) :
    o ≤ s.offset ∧ cellFrom vars (s.offset - o + i) = ⟨k, i⟩ := by
  induction vars generalizing o with
  | nil => exact absurd h List.not_mem_nil
  | cons kd vars ih =>
    rw [cellFrom]
    rcases List.mem_cons.1 h with heq | h
    · cases heq
      refine ⟨le_rfl, ?_⟩
      rw [Nat.sub_self, Nat.zero_add, if_pos hi]
    · obtain ⟨hle, hcell⟩ := ih h
      refine ⟨by omega, ?_⟩
      rw [if_neg (by omega), ← hcell]
      congr 1
      omega

theorem cellAt_offset {l : Layout} {k : String} {d i : Nat} (hd : l.sizes.get? k = some d)
    (hi : i < d) : l.cellAt (l.offset k + i) = ⟨k, i⟩ :=
  (cellFrom_of_mem_spansFrom (mem_spans.1 (get?_eq_some_of_size hd)) hi).2

/-- A sum over the places of the flat vector, variable by variable. -/
theorem sum_read (l : Layout) (f : String → Nat → R) :
    ∑ t, l.read f t = ∑ p ∈ cells l.sizes, f p.1 p.2 := by
  have h := sum_range_eq_sum_cells l fun t => f (l.cellAt t).1 (l.cellAt t).2
  rw [Finset.sum_range] at h
  refine h.trans (Finset.sum_congr rfl fun p hp => ?_)
  obtain ⟨d, hd, hi⟩ := mem_cells.1 hp
  rw [cellAt_offset hd hi]

/-! ## Splitting -/

omit [ExactScalar R] in
/-- The blocks of a split flat vector. -/
theorem get?_split [Scalar R] {l : Layout} {x : Array R} {y : BlockVector R} (h : l.split x = .ok y)
    (k : String) : x.size = l.n ∧ y.get? k = (l.get? k).map (cut x) := by
  obtain ⟨_, hsize, h⟩ := bind_eq_ok.1 h
  cases pure_eq_ok.1 h
  refine ⟨beq_iff_eq.1 (promise_eq_ok.1 hsize), ?_⟩
  have hkeys : ((l.spans.map fun ks => (ks.1, cut x ks.2)).map Prod.fst) = l.ids := by
    rw [List.map_map, ← keys_spanMap]
    rfl
  have hnd : ((l.spans.map fun ks => (ks.1, cut x ks.2)).map Prod.fst).Nodup :=
    hkeys ▸ l.sizes.nodup_keys
  show (Keyed.ofList (l.spans.map fun ks => (ks.1, cut x ks.2))).get? k = _
  cases hs : l.get? k with
  | none =>
    have hk : k ∉ (l.spans.map fun ks => (ks.1, cut x ks.2)).map Prod.fst := by
      rw [hkeys, ← keys_spanMap]
      exact Keyed.get?_eq_none_iff.1 hs
    exact Keyed.get?_foldl_insert_of_not_mem _ _ _ hk
  | some s =>
    exact Keyed.get?_foldl_insert_of_mem hnd _ (List.mem_map.2 ⟨(k, s), mem_spans.1 hs, rfl⟩)

omit [ExactScalar R] in
theorem sizeAt?_split [Scalar R] {l : Layout} {x : Array R} {y : BlockVector R} (h : l.split x = .ok y)
    (k : String) : y.sizeAt? k = l.sizes.get? k := by
  rw [BlockVector.sizeAt?, (get?_split h k).2, ← get?_map_size, Option.map_map]
  refine congrArg (Option.map · _) (funext fun s => ?_)
  exact Vec.size_build ..

omit [ExactScalar R] in
theorem coord_split [Scalar R] {l : Layout} {x : Array R} {y : BlockVector R} (h : l.split x = .ok y)
    {k : String} {d i : Nat} (hd : l.sizes.get? k = some d) (hi : i < d) :
    y.coord k i = Vec.entry x (l.offset k + i) := by
  have hget := (get?_split h k).2
  rw [get?_eq_some_of_size hd] at hget
  rw [BlockVector.coord_of_get? hget]
  exact Vec.entry_build _ hi

/-! ## Flattening -/

omit [ExactScalar R] in
theorem segment_eq_ok [Scalar R] {v : BlockVector R} {k : String} {d : Nat} {s : Array R}
    (h : segment v k d = .ok s) : s.size = d ∧ ∀ i, Vec.entry s i = v.coord k i := by
  rw [segment] at h
  cases hv : v.get? k with
  | none =>
    rw [hv] at h
    cases h
    refine ⟨Vec.size_zero d, fun i => ?_⟩
    rw [Vec.entry_zero, BlockVector.coord_of_get?_none hv]
  | some w =>
    rw [hv] at h
    obtain ⟨_, hsize, h⟩ := bind_eq_ok.1 h
    cases pure_eq_ok.1 h
    exact ⟨beq_iff_eq.1 (promise_eq_ok.1 hsize), fun i => (BlockVector.coord_of_get? hv i).symm⟩

omit [ExactScalar R] in
/-- What the walk over the variables has put together when it is through. -/
theorem foldlM_segment [Scalar R] {v : BlockVector R} {vars : List (String × Nat)} {x y : Array R}
    (h : vars.foldlM (fun x kd => do return x ++ (← segment v kd.1 kd.2)) x = .ok y) :
    y.size = x.size + (vars.map Prod.snd).sum ∧ (∀ i, i < x.size → Vec.entry y i = Vec.entry x i) ∧
      ∀ k s, (k, s) ∈ spansFrom x.size vars →
        ∀ i, i < s.size → Vec.entry y (s.offset + i) = v.coord k i := by
  induction vars generalizing x with
  | nil =>
    cases foldlM_nil_eq_ok.1 h
    exact ⟨rfl, fun _ _ => rfl, fun _ _ hmem => absurd hmem List.not_mem_nil⟩
  | cons kd vars ih =>
    obtain ⟨k₀, d⟩ := kd
    obtain ⟨z, hz, h⟩ := foldlM_cons_eq_ok.1 h
    obtain ⟨s₀, hs₀, hz⟩ := bind_eq_ok.1 hz
    cases pure_eq_ok.1 hz
    obtain ⟨hsize, hentry⟩ := segment_eq_ok hs₀
    obtain ⟨hy, hkeep, hspans⟩ := ih h
    rw [Array.size_append, hsize] at hy hkeep hspans
    refine ⟨?_, fun i hi => ?_, fun k s hmem i hi => ?_⟩
    · rw [hy, List.map_cons, List.sum_cons, Nat.add_assoc]
    · rw [hkeep i (by omega), Vec.entry_append, if_pos hi]
    · rcases List.mem_cons.1 hmem with heq | hmem
      · cases heq
        rw [hkeep _ (by show x.size + i < x.size + d; exact Nat.add_lt_add_left hi _),
          Vec.entry_append, if_neg (by show ¬ x.size + i < x.size; omega)]
        show Vec.entry s₀ (x.size + i - x.size) = _
        rw [Nat.add_sub_cancel_left, hentry]
      · exact hspans k s hmem i hi

omit [ExactScalar R] in
/-- A flattened block vector has the blocks of the variables, one after another. -/
theorem flatten_eq_ok [Scalar R] {l : Layout} {v : BlockVector R} {x : Array R} (h : l.flatten v = .ok x) :
    x.size = l.n ∧ ∀ k d i, l.sizes.get? k = some d → i < d →
      Vec.entry x (l.offset k + i) = v.coord k i := by
  obtain ⟨_, -, h⟩ := bind_eq_ok.1 h
  obtain ⟨hsize, -, hspans⟩ := foldlM_segment h
  refine ⟨?_, fun k d i hd hi => ?_⟩
  · rw [hsize, ← sum_eq_sum_map]
    exact Nat.zero_add _
  · exact hspans k ⟨l.offset k, d⟩ (mem_spans.1 (get?_eq_some_of_size hd)) i hi

end Layout

end BlockAdmm
