/-
  Layouts tile the flat vector.

  The intervals of the variables, in the order of their names, follow one another from zero to the size of the flat
  vector; so each place of it belongs to one variable, and variables without entries take no place (`tiled`).  That
  is what makes splitting and flattening inverse to each other: a flat vector comes back from its blocks
  (`flatten_split`), and the blocks of the variables come back from the flat vector, zeros for those that are
  missing and nothing for names that are no variables (`split_flatten`).  Flattening appends block to block; as the
  intervals are consecutive, that is the same as copying each block into its interval of a vector of zeros
  (`flatten_eq_writes`).

  Sizes that add up to no count have no layout, and a layout can be larger than any vector that can be stored.
-/
import BlockAdmm.Proofs.Safety.Argument
import BlockAdmm.Scalar.Binary64

namespace BlockAdmm

namespace Keyed

/-- Of several values under one name the last counts. -/
theorem get?_ofList {α : Type} (xs : List (String × α)) (k : String) :
    (ofList xs).get? k = find k xs.reverse := by
  induction xs using List.reverseRecOn with
  | nil => rfl
  | append_singleton xs kv ih =>
    rw [List.reverse_append, ofList, List.foldl_append]
    exact (get?_insert ..).trans (by rw [← ofList, ih]; rfl)

end Keyed

/-! ## Intervals -/

/-- `s.Holds t`: the place `t` lies in the interval. -/
def Span.Holds (s : Span) (t : Nat) : Prop := s.offset ≤ t ∧ t < s.offset + s.size

/-- `Consecutive o e spans`: intervals that follow one another, from `o` to `e`. -/
inductive Consecutive : Nat → Nat → List Span → Prop where
  | nil (o : Nat) : Consecutive o o []
  | cons {e : Nat} {s : Span} {rest : List Span} (h : Consecutive (s.offset + s.size) e rest) :
    Consecutive s.offset e (s :: rest)

namespace Layout

/-- `l.Tiled`: the intervals of the variables, in the order of the names, follow one another; no two of them share
    a place, and together they hold the places of the flat vector and no others. -/
structure Tiled (l : Layout) : Prop where
  sorted : (l.spans.map Prod.fst).Pairwise (· < ·)
  listed : ∀ {k s}, (k, s) ∈ l.spans ↔ l.get? k = some s
  consecutive : Consecutive 0 l.n (l.spans.map Prod.snd)
  apart : ∀ {k k' s s' t}, l.get? k = some s → l.get? k' = some s' → s.Holds t → s'.Holds t → k = k'
  covers : ∀ {t}, t < l.n ↔ ∃ k s, l.get? k = some s ∧ s.Holds t

theorem consecutive_spansFrom (o : Nat) (vars : List (String × Nat)) :
    Consecutive o (o + (vars.map Prod.snd).sum) ((spansFrom o vars).map Prod.snd) := by
  induction vars generalizing o with
  | nil => exact Consecutive.nil o
  | cons kd vars ih =>
    rw [spansFrom, List.map_cons, List.map_cons, List.sum_cons, ← Nat.add_assoc]
    exact Consecutive.cons (s := ⟨o, kd.2⟩) (ih (o + kd.2))

/-- The interval of a variable is where the variable stands. -/
theorem get?_eq_some_iff {l : Layout} {k : String} {s : Span} :
    l.get? k = some s ↔ l.sizes.get? k = some s.size ∧ s.offset = l.offset k := by
  constructor
  · intro h
    exact ⟨by rw [← get?_map_size, h]; rfl, by rw [offset, h]; rfl⟩
  · rintro ⟨hd, ho⟩
    rw [get?_eq_some_of_size hd, ← ho]

/-- A place in the interval of a variable belongs to that variable. -/
theorem cellAt_of_holds {l : Layout} {k : String} {s : Span} {t : Nat} (hs : l.get? k = some s) (ht : s.Holds t) :
    l.cellAt t = ⟨k, t - s.offset⟩ := by
  obtain ⟨hd, ho⟩ := get?_eq_some_iff.1 hs
  obtain ⟨hle, hlt⟩ := ht
  have hcell := cellAt_offset hd (i := t - s.offset) (by omega)
  rwa [← ho, Nat.add_sub_cancel' hle] at hcell

theorem tiled (l : Layout) : l.Tiled where
  sorted := by
    rw [spans, map_fst_spansFrom]
    exact List.pairwise_map.2 l.sizes.sorted
  listed := mem_spans.symm
  consecutive := by
    have h := consecutive_spansFrom 0 l.sizes.entries
    rw [Nat.zero_add] at h
    exact h
  apart hs hs' ht ht' := congrArg Sigma.fst ((cellAt_of_holds hs ht).symm.trans (cellAt_of_holds hs' ht'))
  covers {t} := by
    constructor
    · intro ht
      obtain ⟨d, hd, hlt, ho⟩ := cellAt_eq ht
      have hend := Nat.add_lt_add_left hlt (l.offset (l.cellAt t).1)
      exact ⟨_, _, get?_eq_some_of_size hd, (Nat.le_add_right _ _).trans_eq ho, ho.ge.trans_lt hend⟩
    · rintro ⟨k, s, hs, -, hlt⟩
      obtain ⟨hd, ho⟩ := get?_eq_some_iff.1 hs
      have hle := offset_add_le hd
      omega

/-! ## Splitting and flattening -/

variable {R : Type} [Scalar R] {l : Layout} {v : BlockVector R}

/-- Blocks of the right sizes have a flat vector, if it can be stored. -/
theorem exists_flatten (hv : l.Agrees v) (hroom : l.n ≤ capacity) : ∃ x, l.flatten v = .ok x := by
  obtain ⟨x, hx, -⟩ := (ends_flatten_of_allows (allows_unless id) hv).exists_of_unless hroom
  exact ⟨x, hx⟩

/-- A vector of the right size has blocks. -/
theorem exists_split {x : Array R} (hx : x.size = l.n) : ∃ y, l.split x = .ok y := by
  rw [split, beq_iff_eq.2 hx, promise_true]
  exact ⟨_, rfl⟩

/-- A flat vector that is put together from its blocks. -/
theorem flatten_split {x : Array R} (hx : x.size = l.n) (hroom : x.size ≤ capacity) :
    ∃ y, l.split x = .ok y ∧ l.flatten y = .ok x := by
  obtain ⟨y, hsplit⟩ := exists_split hx
  have hagrees : l.Agrees y := fun k d n hd hn => by
    rw [sizeAt?_split hsplit, hd] at hn
    exact (Option.some.inj hn).symm
  obtain ⟨z, hz⟩ := exists_flatten hagrees (hx ▸ hroom)
  refine ⟨y, hsplit, hz.trans (congrArg Except.ok ?_)⟩
  obtain ⟨hsize, hentry⟩ := flatten_eq_ok hz
  refine Vec.ext_entry (hsize.trans hx.symm) fun t ht => ?_
  obtain ⟨d, hd, hi, ho⟩ := cellAt_eq (ht.trans_eq hsize)
  rw [← ho, hentry _ d _ hd hi, coord_split hsplit hd hi]

/-- The blocks that are cut from the flat vector of blocks. -/
theorem split_flatten (hv : l.Agrees v) (hroom : l.n ≤ capacity) : ∃ x y, l.flatten v = .ok x ∧ l.split x = .ok y ∧
    ∀ k, y.get? k = (l.sizes.get? k).map fun d => (v.get? k).getD (Vec.zero d) := by
  obtain ⟨x, hx⟩ := exists_flatten hv hroom
  obtain ⟨hsize, hentry⟩ := flatten_eq_ok hx
  obtain ⟨y, hsplit⟩ := exists_split hsize
  refine ⟨x, y, hx, hsplit, fun k => ?_⟩
  rw [(get?_split hsplit k).2, ← get?_map_size, Option.map_map]
  cases hs : l.get? k with
  | none => rfl
  | some s =>
    obtain ⟨hd, ho⟩ := get?_eq_some_iff.1 hs
    have hblock : ((v.get? k).getD (Vec.zero s.size)).size = s.size := by
      cases hw : v.get? k with
      | none => exact Vec.size_zero _
      | some w => exact hv k _ _ hd (BlockVector.sizeAt?_eq_some_iff.2 ⟨w, hw, rfl⟩)
    refine congrArg some (Vec.ext_entry ((Vec.size_build ..).trans hblock.symm) fun i hi => ?_)
    have hi : i < s.size := hi.trans_eq (Vec.size_build ..)
    rw [cut, Vec.entry_build _ hi, ho, hentry k s.size i hd hi]
    cases hw : v.get? k with
    | none => exact (BlockVector.coord_of_get?_none hw i).trans (Vec.entry_zero s.size i).symm
    | some w => exact BlockVector.coord_of_get? hw i

/-! ## Flattening in place -/

/-- `write v x ks`: the block of a variable copied into its interval; where there is none, all stays. -/
def write (v : BlockVector R) (x : Array R) (ks : String × Span) : Outcome (Array R) :=
  match v.get? ks.1 with
  | none => .ok x
  | some w => do
    promise (w.size == ks.2.size)
    Vec.overwrite x ks.2.offset w

theorem zero_append_zero (d e : Nat) : (Vec.zero d ++ Vec.zero e : Array R) = Vec.zero (d + e) := by
  refine Vec.ext_entry (by rw [Array.size_append, Vec.size_zero, Vec.size_zero, Vec.size_zero]) fun i _ => ?_
  rw [Vec.entry_append, Vec.entry_zero, Vec.entry_zero, Vec.entry_zero, ite_self]

/-- Zeros behind a vector that are overwritten from their begin on. -/
theorem overwrite_append (x w : Array R) (e : Nat) :
    Vec.overwrite (x ++ Vec.zero (w.size + e)) x.size w = .ok (x ++ w ++ Vec.zero e) := by
  have hfit : x.size + w.size ≤ (x ++ (Vec.zero (w.size + e) : Array R)).size := by
    rw [Array.size_append, Vec.size_zero]
    omega
  obtain ⟨z, hz⟩ : ∃ z, Vec.overwrite (x ++ Vec.zero (w.size + e)) x.size w = .ok z := by
    rw [Vec.overwrite, decide_eq_true hfit]
    exact ⟨_, rfl⟩
  obtain ⟨hsize, hin, hout⟩ := Vec.overwrite_eq_ok hz
  rw [hz]
  have hsizes : z.size = (x ++ w ++ Vec.zero e).size := by
    rw [hsize, Array.size_append, Array.size_append, Array.size_append, Vec.size_zero, Vec.size_zero, Nat.add_assoc]
  refine congrArg Except.ok (Vec.ext_entry hsizes fun i hi => ?_)
  rw [Vec.entry_append, Array.size_append, Vec.entry_append]
  by_cases hmid : x.size ≤ i ∧ i < x.size + w.size
  · obtain ⟨hle, hlt⟩ := hmid
    have hentry := hin (i - x.size) (by omega)
    rw [Nat.add_sub_cancel' hle] at hentry
    rw [if_pos hlt, if_neg hle.not_gt, hentry]
  · rw [hout i (hi.trans_eq hsize) (by omega), Vec.entry_append]
    by_cases hlt : i < x.size
    · rw [if_pos hlt, if_pos (by omega), if_pos hlt]
    · rw [if_neg hlt, if_neg (by omega), Vec.entry_zero, Vec.entry_zero]

/-- A block that is written behind what has been written is appended to it. -/
theorem write_append (v : BlockVector R) (x : Array R) (k : String) (d e : Nat) :
    write v (x ++ Vec.zero (d + e)) (k, ⟨x.size, d⟩) = do return x ++ (← segment v k d) ++ Vec.zero e := by
  rw [write, segment]
  cases v.get? k with
  | none =>
    show Except.ok (x ++ Vec.zero (d + e)) = Except.ok (x ++ Vec.zero d ++ Vec.zero e)
    rw [Array.append_assoc, zero_append_zero]
  | some w =>
    by_cases hw : w.size = d
    · subst hw
      simp only [beq_self_eq_true, promise_true]
      exact overwrite_append x w e
    · simp only [beq_eq_false_iff_ne.2 hw, promise_false]
      rfl

theorem foldlM_write (v : BlockVector R) (vars : List (String × Nat)) (x : Array R) :
    (spansFrom x.size vars).foldlM (write v) (x ++ Vec.zero (vars.map Prod.snd).sum)
      = vars.foldlM (fun x kd => do return x ++ (← segment v kd.1 kd.2)) x := by
  induction vars generalizing x with
  | nil =>
    show Except.ok (x ++ Vec.zero 0) = Except.ok x
    exact congrArg Except.ok Array.append_empty
  | cons kd vars ih =>
    rw [spansFrom, List.foldlM_cons, List.foldlM_cons, List.map_cons, List.sum_cons, write_append]
    cases hs : segment v kd.1 kd.2 with
    | error f => rfl
    | ok s =>
      have hsize : x.size + kd.2 = (x ++ s).size := by rw [Array.size_append, (segment_eq_ok hs).1]
      show (spansFrom (x.size + kd.2) vars).foldlM (write v) (x ++ s ++ Vec.zero (vars.map Prod.snd).sum) = _
      rw [hsize, ih]
      rfl

/-- Flattening is copying each block into its interval of a vector of zeros. -/
theorem flatten_eq_writes (l : Layout) (v : BlockVector R) : l.flatten v = (do
    room l.n
    l.spans.foldlM (write v) (Vec.zero l.n)) := by
  have h := foldlM_write v l.sizes.entries #[]
  rw [Array.empty_append] at h
  exact congrArg _ (funext fun _ => h.symm)

theorem flatten_of_lt (v : BlockVector R) (h : capacity < l.n) : l.flatten v = .error .breach := by
  rw [flatten, room_of_lt h]
  rfl

/-! ## Layouts from lists -/

/-- Sizes that add up to more than can be counted have no layout, and a layout may have no flat vector. -/
theorem ofList_beyond : ofList [("x", 18446744073709551615), ("y", 1)] = .error .breach ∧
    ∃ l, ofList [("x", 1152921504606846976)] = .ok l ∧
      l.flatten (BlockVector.empty : BlockVector Float) = .error .breach := ⟨rfl, _, rfl, rfl⟩

/-- A layout of variables with their sizes, of which the last counts if a name is repeated.  It exists just if the
    sizes add up to a count.  It tiles the flat vector; a flat vector comes back from its blocks; and blocks of the
    sizes of the layout come back from the flat vector, if that can be stored, zeros for those that are missing and
    nothing under other names. -/
theorem ofList_tiles {R : Type} [Scalar R] (vars : List (String × Nat)) :
    (countLimit ≤ (Keyed.ofList vars).sum → ofList vars = .error .breach) ∧
    ((Keyed.ofList vars).sum < countLimit → ∃ l, ofList vars = .ok l ∧ l.n = (Keyed.ofList vars).sum ∧
      (∀ k, (l.get? k).map Span.size = Keyed.find k vars.reverse) ∧ l.Tiled ∧
      (∀ x : Array R, x.size = l.n → x.size ≤ capacity → ∃ y, l.split x = .ok y ∧ l.flatten y = .ok x) ∧
      (∀ v : BlockVector R, l.Agrees v → l.n ≤ capacity → ∃ x y, l.flatten v = .ok x ∧ l.split x = .ok y ∧
        ∀ k, y.get? k = (l.sizes.get? k).map fun d => (v.get? k).getD (Vec.zero d)) ∧
      ∀ v : BlockVector R, capacity < l.n → l.flatten v = .error .breach) := by
  refine ⟨fun hlarge => ?_, fun hcount => ⟨⟨Keyed.ofList vars⟩, ?_, rfl, fun k => ?_, tiled _, fun x => flatten_split,
    fun v => split_flatten, fun v => flatten_of_lt v⟩⟩
  · rw [ofList, ofSizes, isCount, decide_eq_false (Nat.not_lt.2 hlarge), limit_false]
    rfl
  · rw [ofList, ofSizes, isCount, decide_eq_true hcount, limit_true]
    rfl
  · exact (get?_map_size _ k).trans (Keyed.get?_ofList vars k)

/-- A name that is repeated, a variable without entries, a block that is missing and one that is no variable. -/
theorem ofList_tiles_repeated :
    ofList [("x", 18446744073709551615), ("y", 1)] = .error .breach ∧
    ∃ l, ofList [("x", 2), ("y", 0), ("a", 5), ("a", 1)] = .ok l ∧ l.n = 3 ∧ l.Tiled ∧
      (∃ y, l.split (#[1, 2, 3] : Array Float) = .ok y ∧ l.flatten y = .ok #[1, 2, 3]) ∧
      (∃ x y, l.flatten (BlockVector.ofList [("x", (#[7, 8] : Array Float)), ("z", #[9])]) = .ok x ∧
        l.split x = .ok y ∧ y.get? "x" = some #[7, 8] ∧ y.get? "a" = some (Vec.zero 1) ∧ y.get? "z" = none) ∧
      ∃ b, ofList [("x", 1152921504606846976)] = .ok b ∧
        b.flatten (BlockVector.empty : BlockVector Float) = .error .breach := by
  obtain ⟨hbeyond, -⟩ := ofList_tiles (R := Float) [("x", 18446744073709551615), ("y", 1)]
  obtain ⟨-, hlayout⟩ := ofList_tiles (R := Float) [("x", 2), ("y", 0), ("a", 5), ("a", 1)]
  obtain ⟨-, hlarge⟩ := ofList_tiles (R := Float) [("x", 1152921504606846976)]
  obtain ⟨l, hl, hn, -, htiled, hvector, hblocks, -⟩ := hlayout (by decide)
  obtain ⟨b, hb, hbn, -, -, -, -, hflatten⟩ := hlarge (by decide)
  cases hl
  have hagrees : Layout.Agrees ⟨Keyed.ofList [("x", 2), ("y", 0), ("a", 5), ("a", 1)]⟩
      (BlockVector.ofList [("x", (#[7, 8] : Array Float)), ("z", #[9])]) := fun k d n hd hn => by
    have hmem : (k, d) ∈ [("a", 1), ("x", 2), ("y", 0)] := Keyed.get?_eq_some_iff.1 hd
    simp only [List.mem_cons, Prod.mk.injEq, List.not_mem_nil, or_false] at hmem
    obtain ⟨rfl, rfl⟩ | ⟨rfl, rfl⟩ | ⟨rfl, rfl⟩ := hmem
    · cases hn
    · exact (Option.some.inj hn).symm
    · cases hn
  obtain ⟨x, y, hx, hy, hget⟩ := hblocks _ hagrees (by decide)
  exact ⟨hbeyond (by decide), _, rfl, hn, htiled, hvector _ rfl (by decide),
    ⟨x, y, hx, hy, hget "x", hget "a", hget "z"⟩, b, hb, hflatten _ (by rw [hbn]; decide)⟩

end Layout

end BlockAdmm
