/-
  The views of a linear map.

  A map is applied, or written out as a dense or as a sparse matrix, and each form has its own way of doing
  so.  If the functions of its opaque parts are linear, there is one matrix that every view shows (`Shows`),
  and no view ends otherwise than in a breach (`views_agree`).  A Kronecker product is applied without being
  expanded; it shows the products of the entries of its factors, to any depth and also if a factor has no
  rows or no columns.

  If the functions have values and the extent of the map can be stored, it is `Usable`, and it can be applied
  and written out as a dense matrix.  A sparse matrix is made of triplets, each of which takes the place of
  three entries, so for that the `tripletExtent` must have room as well; a `Spacious` map has it.  Some such
  conditions are needed.  Between the two steps of a Kronecker product as many entries are stored as the
  second factor has rows and the first has columns, and that can be too many although the product has no
  entry at all (`apply_hollow`).  Just when a map can be applied is known too (`okIff_apply`).  The triplets of
  a Kronecker product are listed before they are put in order, and if no entry of its factors is zero, they
  are as many as it has entries (`okIff_toSparse_full`); so it can be too large for that and still usable
  (`toSparse_ones`).
-/
import BlockAdmm.Proofs.LinearMap.Plain

namespace BlockAdmm

open Scalar ExactScalar

variable {R : Type} [ExactScalar R] {E : Fault → Prop} {m n : Nat} {k : Nat → Nat → R}

/-! ## Linear functions -/

/-- `IsLinear run m n`: the function takes every vector of `n` entries to one of `m`, and respects sums and
    multiples. -/
structure IsLinear (run : Array R → Outcome (Array R)) (m n : Nat) : Prop where
  returns : ∀ x, x.size = n → ∃ y, run x = .ok y ∧ y.size = m
  axpy : ∀ alpha x x' y y', x.size = n → x'.size = n → run x = .ok y → run x' = .ok y' →
    run (Vec.axpy alpha x x') = .ok (Vec.axpy alpha y y')

/-- The columns of the matrix of a linear function are its values at the unit vectors. -/
theorem IsLinear.exists_multiplies {run : Array R → Outcome (Array R)} (h : IsLinear run m n) :
    ∃ k, Multiplies E run m n k := by
  have hunit (c : Nat) := h.returns (Vec.build n fun i => if i = c then 1 else 0) (Vec.size_build ..)
  choose column hrun hsize using hunit
  refine ⟨fun r c => Vec.entry (column c) r, fun x hx => ?_⟩
  -- the induction is on the number of entries of `x` that are taken up, the others being zero
  have hpart (c : Nat) (hc : c ≤ n) :
      ∃ y, run (Vec.build n fun i => if i < c then Vec.entry x i else 0) = .ok y ∧ y.size = m ∧
        ∀ r, Vec.entry y r = ∑ j ∈ Finset.range c, Vec.entry (column j) r * Vec.entry x j := by
    induction c with
    | zero =>
      obtain ⟨y, hy, hm⟩ := h.returns _ (Vec.size_build n fun i => if i < 0 then Vec.entry x i else 0)
      refine ⟨y, hy, hm, fun r => ?_⟩
      have hzero := h.axpy (-1) _ _ y y (Vec.size_build ..) (Vec.size_build ..) hy hy
      have hsame : Vec.axpy (-1) (Vec.build n fun i => if i < 0 then Vec.entry x i else 0)
          (Vec.build n fun i => if i < 0 then Vec.entry x i else 0)
          = Vec.build n fun i => if i < 0 then Vec.entry x i else 0 := by
        refine Vec.ext_entry (Vec.size_axpy ..) fun i hi => ?_
        rw [Vec.size_axpy, Vec.size_build] at hi
        rw [Vec.entry_axpy _ rfl, Vec.entry_build _ hi, if_neg (Nat.not_lt_zero i), mul_zero, add_zero]
      rw [hsame, hy] at hzero
      rw [Finset.sum_range_zero, Except.ok.inj hzero, Vec.entry_axpy _ rfl]
      ring
    | succ c ih =>
      obtain ⟨y, hy, hm, he⟩ := ih (by omega)
      refine ⟨Vec.axpy (Vec.entry x c) (column c) y, ?_, by rw [Vec.size_axpy, hm], fun r => ?_⟩
      · rw [← h.axpy (Vec.entry x c) _ _ _ _ (Vec.size_build ..) (Vec.size_build ..) (hrun c) hy]
        refine congrArg run (Vec.ext_entry ?_ fun i hi => ?_)
        · rw [Vec.size_axpy, Vec.size_build, Vec.size_build]
        · rw [Vec.size_build] at hi
          rw [Vec.entry_axpy _ (by rw [Vec.size_build, Vec.size_build]), Vec.entry_build _ hi,
            Vec.entry_build _ hi, Vec.entry_build _ hi]
          rcases Nat.lt_trichotomy i c with hlt | rfl | hgt
          · rw [if_pos (by omega), if_pos hlt, if_neg (by omega), mul_zero, add_zero]
          · rw [if_pos (by omega), if_neg (by omega), if_pos rfl, mul_one, zero_add]
          · rw [if_neg (by omega), if_neg (by omega), if_neg (by omega), mul_zero, add_zero]
      · rw [Vec.entry_axpy _ ((hsize c).trans hm.symm), he r, Finset.sum_range_succ, mul_comm (Vec.entry x c)]
  obtain ⟨y, hy, hm, he⟩ := hpart n (Nat.le_refl n)
  have hwhole : (Vec.build n fun i => if i < n then Vec.entry x i else 0) = x := by
    refine Vec.ext_entry (by rw [Vec.size_build, hx]) fun i hi => ?_
    rw [Vec.size_build] at hi
    rw [Vec.entry_build _ hi, if_pos hi]
  rw [hwhole] at hy
  rw [hy]
  exact ends_ok ⟨hm, fun r _ => he r⟩

/-- `f.Linear`: on vectors that fit, the function of the map computes the product with a matrix of the
    declared size, or some size is too large. -/
def OpaqueMap.Linear (f : OpaqueMap R) : Prop := ∃ k, Multiplies Fault.IsBreach f.forward.run f.m f.n k

theorem IsLinear.linear {f : OpaqueMap R} (h : IsLinear f.forward.run f.m f.n) : f.Linear :=
  h.exists_multiplies

theorem IsLinear.returns_apply {f : OpaqueMap R} (h : IsLinear f.forward.run f.m f.n) : f.Returns := by
  intro x hx
  obtain ⟨y, hy, hm⟩ := h.returns x hx
  refine ⟨y, bind_eq_ok.2 ⟨(), promise_eq_ok.2 (beq_iff_eq.2 hx), bind_eq_ok.2 ⟨y, hy, ?_⟩⟩⟩
  exact bind_eq_ok.2 ⟨(), promise_eq_ok.2 (beq_iff_eq.2 hm), rfl⟩

/-- Functions that have values end in no breach. -/
theorem Multiplies.unless {c : Prop} {run : Array R → Outcome (Array R)}
    (h : Multiplies Fault.IsBreach run m n k) (hc : c → ∀ x, x.size = n → ∃ y, run x = .ok y) :
    Multiplies (Fault.Unless c) run m n k := fun x hx => (h x hx).unless fun hholds => hc hholds x hx

omit [ExactScalar R] in
theorem OpaqueMap.Returns.run {f : OpaqueMap R} (h : f.Returns) {x : Array R} (hx : x.size = f.n) :
    ∃ y, f.forward.run x = .ok y := by
  obtain ⟨y, hy⟩ := h x hx
  obtain ⟨_, -, hy⟩ := bind_eq_ok.1 hy
  obtain ⟨z, hz, -⟩ := bind_eq_ok.1 hy
  exact ⟨z, hz⟩

/-- `Lore.alone c`: unless `c`, functions may end in a breach; marks say nothing, and transposes are not
    looked at. -/
def Lore.alone (c : Prop) : Lore R where
  faults := Fault.Unless c
  names _ _ _ _ := True
  names_congr h _ := h
  transposes := False

omit [ExactScalar R] in
theorem Lore.within_alone {c d : Prop} (h : d → c) : (Lore.alone c : Lore R).Within (Lore.alone d) where
  faults := Fault.unless_mono h
  names hk := hk
  transposes hg := hg

namespace LinearMap

variable {g : Lore R} {l : LinearMap R}

/-- `l.Linear`: the opaque parts of the map are linear. -/
def Linear (l : LinearMap R) : Prop := ∀ f ∈ l.opaqueParts, f.Linear

theorem linear_opaqueMap {f : OpaqueMap R} (h : IsLinear f.forward.run f.m f.n) :
    (LinearMap.opaqueMap f).Linear := by
  intro f' hf'
  rw [List.mem_singleton.1 hf']
  exact h.linear

theorem Linear.kronecker {a b : LinearMap R} (ha : a.Linear) (hb : b.Linear) :
    (LinearMap.kronecker a b).Linear := fun f hf => (List.mem_append.1 hf).elim (ha f) (hb f)

theorem Plain.linear (h : l.Plain) : l.Linear := by
  intro f hf
  rw [h.opaqueParts_eq_nil] at hf
  exact absurd hf List.not_mem_nil

/-- A map whose opaque parts have coefficients has coefficients. -/
theorem exists_bears (h : ∀ f ∈ l.opaqueParts, ∃ k, (LinearMap.opaqueMap f).Bears g k) :
    ∃ k, l.Bears g k := by
  induction l with
  | dense a _ => exact ⟨a.entry, fun _ _ _ _ => rfl⟩
  | sparse a _ => exact ⟨a.entry, fun _ _ _ _ => rfl⟩
  | diagonal d _ => exact ⟨fun r c => if r = c then Vec.entry d r else 0, fun _ _ _ _ => rfl⟩
  | scalar n alpha _ => exact ⟨fun r c => if r = c then alpha else 0, fun _ _ _ _ => rfl⟩
  | kronecker a b iha ihb =>
    obtain ⟨ka, ha⟩ := iha fun f hf => h f (List.mem_append_left _ hf)
    obtain ⟨kb, hb⟩ := ihb fun f hf => h f (List.mem_append_right _ hf)
    exact ⟨_, ka, kb, ha, hb, fun _ _ _ _ => rfl⟩
  | opaqueMap f => exact h f List.mem_cons_self

/-- A linear map has coefficients, and its functions end in a breach only where they are not known to have
    values. -/
theorem Linear.exists_bears {c : Prop} (h : l.Linear) (hc : c → ∀ f ∈ l.opaqueParts, f.Returns) :
    ∃ k, l.Bears (Lore.alone c) k := by
  refine LinearMap.exists_bears fun f hf => ?_
  obtain ⟨k, hk⟩ := h f hf
  have hreturns (hholds : c) (x : Array R) (hx : x.size = f.n) := (hc hholds f hf).run hx
  exact ⟨k, ⟨hk.unless hreturns, fun _ _ => trivial⟩, fun hg => hg.elim⟩

/-! ## Views -/

/-- `l.Usable`: the functions in the map have values, and its extent can be stored. -/
def Usable (l : LinearMap R) : Prop := l.extent ≤ capacity ∧ ∀ f ∈ l.opaqueParts, f.Returns

omit [ExactScalar R] in
theorem Usable.left {a b : LinearMap R} (h : (LinearMap.kronecker a b).Usable) : a.Usable :=
  ⟨Nat.le_trans (extent_left_le a b) h.1, fun f hf => h.2 f (List.mem_append_left _ hf)⟩

omit [ExactScalar R] in
theorem Usable.right {a b : LinearMap R} (h : (LinearMap.kronecker a b).Usable) : b.Usable :=
  ⟨Nat.le_trans (extent_right_le a b) h.1, fun f hf => h.2 f (List.mem_append_right _ hf)⟩

/-- `l.Spacious`: three times the extent of the map can be stored. -/
def Spacious (l : LinearMap R) : Prop := 3 * l.extent ≤ capacity

omit [ExactScalar R] in
theorem Spacious.triplets (h : l.Spacious) : l.tripletExtent ≤ capacity := Nat.le_trans l.tripletExtent_le h

/-- `l.Shows c k`: every view of the map shows the matrix `k` of its size, or unless `c` some size is too
    large.  For the sparse matrix the triplets must have room as well. -/
structure Shows (c : Prop) (l : LinearMap R) (k : Nat → Nat → R) : Prop where
  apply : Multiplies (Fault.Unless c) l.apply l.m l.n k
  toDense : Ends (Fault.Unless c)
    (fun d => d.m = l.m ∧ d.n = l.n ∧ ∀ r c, r < l.m → c < l.n → d.entry r c = k r c) l.toDense
  toSparse : Ends (Fault.Unless (c ∧ l.tripletExtent ≤ capacity))
    (fun s => s.m = l.m ∧ s.n = l.n ∧ ∀ r c, r < l.m → c < l.n → s.entry r c = k r c) l.toSparse

theorem Bears.shows {c : Prop} (h : l.Bears g k) (hg : g.faults = Fault.Unless c)
    (hc : c → l.extent ≤ capacity) : l.Shows c k := by
  have hroom : Allows g.faults l.extent := hg ▸ allows_unless hc
  have hfaults : ∀ f, g.faults f → Fault.Unless (c ∧ l.tripletExtent ≤ capacity) f :=
    hg ▸ Fault.unless_mono And.left
  exact ⟨hg ▸ h.apply hroom, hg ▸ h.toDense hroom,
    h.toSparse hfaults (allows_unless fun h => hc h.1) (allows_unless And.right)⟩

namespace Shows

variable {c : Prop} {d : Dense R} {x y : Array R}

theorem apply_eq (h : l.Shows c k) (hx : x.size = l.n) (hy : l.apply x = .ok y) :
    y = Vec.build l.m fun r => rowSum l.n k (Vec.entry x) r := by
  obtain ⟨hm, he⟩ := (h.apply x hx).of_eq_ok hy
  refine Vec.ext_entry (by rw [hm, Vec.size_build]) fun r hr => ?_
  rw [hm] at hr
  rw [he r hr, Vec.entry_build _ hr]

theorem toDense_eq (h : l.Shows c k) (hd : l.toDense = .ok d) : d = Dense.build l.m l.n k := by
  obtain ⟨hm, hn, he⟩ := h.toDense.of_eq_ok hd
  refine Dense.ext_entry hm hn fun r c hr hc => ?_
  rw [hm] at hr
  rw [hn] at hc
  rw [he r c hr hc, Dense.entry_build _ hr hc]

/-- The sparse matrix denotes the dense one. -/
theorem toDense_of_toSparse {s : Sparse R} (h : l.Shows c k) (hs : l.toSparse = .ok s) :
    s.toDense = Dense.build l.m l.n k := by
  obtain ⟨hm, hn, he⟩ := h.toSparse.of_eq_ok hs
  refine Dense.ext_entry hm hn fun r c hr hc => ?_
  have hr' : r < s.m := hr
  have hc' : c < s.n := hc
  rw [Sparse.toDense, Dense.entry_build _ hr' hc', Dense.entry_build _ (hm ▸ hr') (hn ▸ hc'),
    he r c (hm ▸ hr') (hn ▸ hc')]

/-- What the function gives, the dense matrix gives, if it can be stored. -/
theorem mulVec_eq (h : l.Shows c k) (hd : l.toDense = .ok d) (hx : x.size = l.n) (hy : l.apply x = .ok y)
    (hroom : l.m ≤ capacity) : d.mulVec x = .ok y := by
  rw [h.toDense_eq hd, h.apply_eq hx hy]
  refine (Dense.mulVec_eq_ok hx).2 ⟨hroom, ?_⟩
  rw [Dense.m_build, Dense.n_build]
  refine Vec.ext_entry (by rw [Vec.size_build, Vec.size_build]) fun r hr => ?_
  rw [Vec.size_build] at hr
  rw [Vec.entry_build _ hr, Vec.entry_build _ hr, rowSum]
  exact Finset.sum_congr rfl fun c hc => by rw [Dense.entry_build _ hr (Finset.mem_range.1 hc)]

end Shows

/-- The views of a map agree.  There is a matrix that all of them show, and if the map is usable, it can be
    applied and written out; as a sparse matrix if its triplets have room too, which they have if it is
    spacious.  Where the views have values, the sparse matrix denotes the dense one and the function is
    the product with it.  A Kronecker product shows the product of the matrices that its factors show.  If
    the opaque parts of a map have values, it can be applied just if there is room for what is stored on
    the way. -/
theorem views_agree (h : l.Linear) :
    ∃ k, l.Shows l.Usable k ∧ (l.Spacious → l.tripletExtent ≤ capacity) ∧
      (∀ d, l.toDense = .ok d → d.size = l.size ∧
        (∀ s, l.toSparse = .ok s → s.size = l.size ∧ s.toDense = d) ∧
        ∀ x y, x.size = l.n → l.apply x = .ok y →
          y.size = l.m ∧ (l.m ≤ capacity → d.mulVec x = .ok y)) ∧
      (∀ a b, l = .kronecker a b → ∃ ka kb, a.Shows l.Usable ka ∧ b.Shows l.Usable kb ∧
        ∀ r c, r < l.m → c < l.n → k r c = ka (r / b.m) (c / b.n) * kb (r % b.m) (c % b.n)) ∧
      ((∀ f ∈ l.opaqueParts, f.Returns) → ∀ x, x.size = l.n → OkIff (l.apply x) l.Fits) := by
  obtain ⟨k, hk⟩ := h.exists_bears (c := l.Usable) fun hl => hl.2
  have hshows : l.Shows l.Usable k := hk.shows rfl fun hl => hl.1
  refine ⟨k, hshows, Spacious.triplets, fun d hd => ⟨?_, fun s hs => ⟨?_, ?_⟩, fun x y hx hy => ?_⟩,
    fun a b hab => ?_, fun hreturns x hx => okIff_apply hreturns hx⟩
  · rw [hshows.toDense_eq hd]
    rfl
  · obtain ⟨hm, hn, -⟩ := hshows.toSparse.of_eq_ok hs
    exact Prod.ext hm hn
  · rw [hshows.toDense_of_toSparse hs, hshows.toDense_eq hd]
  · exact ⟨((hshows.apply x hx).of_eq_ok hy).1, hshows.mulVec_eq hd hx hy⟩
  · subst hab
    obtain ⟨ka, kb, ha, hb, hkab⟩ := hk
    exact ⟨ka, kb, ha.shows rfl fun hl => hl.left.1, hb.shows rfl fun hl => hl.right.1, hkab⟩

end LinearMap

/-! ## Some maps -/

/-- `mirror n`: the entries in reverse order, known through the function only. -/
def OpaqueMap.mirror (n : Nat) : OpaqueMap R where
  m := n
  n := n
  forward := ⟨fun x => .ok (Vec.build n fun i => Vec.entry x (n - 1 - i)), none⟩
  backward := none
  name := "mirror"

theorem OpaqueMap.mirror_isLinear (n : Nat) : IsLinear (mirror n : OpaqueMap R).forward.run n n where
  returns x _ := ⟨_, rfl, Vec.size_build ..⟩
  axpy alpha x x' y y' hx hx' hy hy' := by
    cases hy
    cases hy'
    refine congrArg Except.ok (Vec.ext_entry ?_ fun i hi => ?_)
    · rw [Vec.size_build, Vec.size_axpy, Vec.size_build]
    · rw [Vec.size_build] at hi
      rw [Vec.entry_build _ hi, Vec.entry_axpy _ (hx.trans hx'.symm),
        Vec.entry_axpy _ (by rw [Vec.size_build, Vec.size_build]), Vec.entry_build _ hi, Vec.entry_build _ hi]

/-- `null m n name`: zeros whatever it is given, known through the function only. -/
def OpaqueMap.null (m n : Nat) (name : String) : OpaqueMap R where
  m := m
  n := n
  forward := ⟨fun _ => .ok (Vec.zero m), none⟩
  backward := none
  name := name

theorem OpaqueMap.null_isLinear (m n : Nat) (name : String) :
    IsLinear (null m n name : OpaqueMap R).forward.run m n where
  returns x _ := ⟨_, rfl, Vec.size_zero m⟩
  axpy alpha x x' y y' _ _ hy hy' := by
    cases hy
    cases hy'
    refine congrArg Except.ok (Vec.ext_entry (by rw [Vec.size_axpy]) fun i _ => ?_)
    rw [Vec.entry_axpy _ rfl, Vec.entry_zero, mul_zero, add_zero]

namespace LinearMap

/-- A Kronecker product in a Kronecker product, with a mirror inside. -/
def nested : LinearMap ℚ :=
  .kronecker (.dense ⟨1, 2, #[1, 2], rfl⟩ none)
    (.kronecker (.diagonal #[3] none) (.opaqueMap (OpaqueMap.mirror 2)))

theorem nested_linear : nested.Linear :=
  Linear.kronecker (Plain.linear trivial)
    (Linear.kronecker (Plain.linear trivial) (linear_opaqueMap (OpaqueMap.mirror_isLinear 2)))

theorem nested_returns : ∀ f ∈ nested.opaqueParts, f.Returns := by
  intro f hf
  rw [List.mem_singleton.1 hf]
  exact (OpaqueMap.mirror_isLinear 2).returns_apply

theorem nested_usable : nested.Usable := ⟨by decide, nested_returns⟩

theorem nested_spacious : nested.Spacious := show 3 * nested.extent ≤ capacity by decide

/-- The nested map can be written out in both ways and applied, and its dense matrix gives what it gives. -/
theorem views_agree_nested :
    nested.Linear ∧ nested.Usable ∧ nested.Spacious ∧ (#[1, 2, 3, 4] : Array ℚ).size = nested.n ∧
      OkIff (nested.apply #[1, 2, 3, 4]) nested.Fits ∧
      ∃ d s, nested.toDense = .ok d ∧ nested.toSparse = .ok s ∧ s.toDense = d ∧
        d.mulVec #[1, 2, 3, 4] = .ok #[30, 21] := by
  obtain ⟨y, hy, hvalue⟩ := exists_eq_ok_and (x := nested.apply #[1, 2, 3, 4])
    (p := fun y => y == #[30, 21]) (by decide +kernel)
  rw [eq_of_beq hvalue] at hy
  obtain ⟨k, hshows, htriplets, hviews, -, hroom⟩ := views_agree nested_linear
  obtain ⟨d, hd, -⟩ := hshows.toDense.exists_of_unless nested_usable
  obtain ⟨s, hs, -⟩ := hshows.toSparse.exists_of_unless ⟨nested_usable, htriplets nested_spacious⟩
  obtain ⟨-, hsparse, hdense⟩ := hviews d hd
  exact ⟨nested_linear, nested_usable, nested_spacious, rfl, hroom nested_returns _ rfl, d, s, hd, hs,
    (hsparse s hs).2, (hdense _ _ rfl hy).2 (by decide)⟩

/-- A product without rows and without columns, of factors whose lengths are not small. -/
def hollow : LinearMap ℚ :=
  .kronecker (.dense (Dense.build 0 1 fun _ _ => 0) none)
    (.dense (Dense.build 1152921504606846976 0 fun _ _ => 0) none)

/-- The product has no entry, and there is no room to apply it. -/
theorem apply_hollow :
    hollow.Linear ∧ (#[] : Array ℚ).size = hollow.n ∧ hollow.apply #[] = .error .breach :=
  ⟨Plain.linear ⟨trivial, trivial⟩, rfl, eq_breach_of_breached (by decide +kernel)⟩

end LinearMap

/-! ## Matrices without a zero -/

/-- `d.Full`: no entry of the matrix is zero. -/
def Dense.Full (d : Dense R) : Prop := ∀ r c, r < d.m → c < d.n → d.entry r c ≠ 0

/-- Every place of a matrix without a zero takes a triplet. -/
theorem Dense.Full.length_entries {d : Dense R} (h : d.Full) :
    (Sparse.ofDense d).entries.length = d.m * d.n := by
  refine Nat.le_antisymm (Sparse.ofDense d).length_entries_le ?_
  have hplaces : List.range (d.m * d.n) ⊆ (Sparse.ofDense d).entries.map fun e => d.m * e.col + e.row := by
    intro i hi
    have hlt : i < d.n * d.m := Nat.mul_comm d.m d.n ▸ List.mem_range.1 hi
    obtain ⟨hcol, hrow⟩ := div_mod_lt hlt
    have hentry : (Sparse.ofDense d).entry (i % d.m) (i / d.m) ≠ 0 := by
      rw [Sparse.entry_ofDense d hrow hcol]
      exact h _ _ hrow hcol
    obtain ⟨e, he, hr, hc⟩ := Sparse.exists_mem_of_entry_ne_zero hentry
    exact List.mem_map.2 ⟨e, he, by rw [hr, hc, Nat.div_add_mod]⟩
  have hle := (List.subperm_of_subset List.nodup_range hplaces).length_le
  rwa [List.length_range, List.length_map] at hle

theorem Dense.Full.okIff_extract {d : Dense R} (h : d.Full) :
    OkIff (Sparse.extract d) (3 * (d.m * d.n) ≤ capacity ∧ d.n + 1 ≤ capacity ∧ True) := by
  rw [← h.length_entries]
  exact (okIff_room _).bind fun _ _ => (okIff_room _).bind fun _ _ => okIff_ok _

theorem Sparse.okIff_tensor (a b : Sparse R) : OkIff (a.tensor b)
    (3 * b.entries.length ≤ capacity ∧ 3 * (a.entries.length * b.entries.length) ≤ capacity ∧
      a.n * b.n + 1 ≤ capacity ∧ True) :=
  (okIff_room _).bind fun _ _ => (okIff_room _).bind fun _ _ => (okIff_room _).bind fun _ _ => okIff_ok _

namespace LinearMap

/-- A Kronecker product of matrices without a zero is written out as a sparse matrix just if there is room for
    its triplets. -/
theorem okIff_toSparse_full {d d' : Dense R} (h : d.Full) (h' : d'.Full) (hpos : 0 < d.m * d.n)
    (hpos' : 0 < d'.m * d'.n) (mark mark' : Mark) :
    OkIff (LinearMap.kronecker (.dense d mark) (.dense d' mark')).toSparse
      (3 * (d.m * d.n * (d'.m * d'.n)) ≤ capacity) := by
  have hproduct (s s' : Sparse R) (hs : Sparse.extract d = .ok s) (hs' : Sparse.extract d' = .ok s') :
      OkIff (s.tensor s') (3 * (d'.m * d'.n) ≤ capacity ∧ 3 * (d.m * d.n * (d'.m * d'.n)) ≤ capacity ∧
        d.n * d'.n + 1 ≤ capacity ∧ True) := by
    cases Sparse.eq_of_extract hs
    cases Sparse.eq_of_extract hs'
    rw [← h.length_entries, ← h'.length_entries]
    exact Sparse.okIff_tensor _ _
  refine OkIff.congr (h.okIff_extract.bind fun s hs => h'.okIff_extract.bind fun s' hs' =>
    hproduct s s' hs hs') ⟨fun hroom => ?_, fun hrooms => hrooms.2.2.2.1⟩
  -- the triplets of the product take more than all else
  have hleft : d.m * d.n ≤ d.m * d.n * (d'.m * d'.n) := Nat.le_mul_of_pos_right _ hpos'
  have hright : d'.m * d'.n ≤ d.m * d.n * (d'.m * d'.n) := Nat.le_mul_of_pos_left _ hpos
  have hn : d.n ≤ d.m * d.n := Nat.le_mul_of_pos_left _ (Nat.pos_of_mul_pos_right hpos)
  have hn' : d'.n ≤ d'.m * d'.n := Nat.le_mul_of_pos_left _ (Nat.pos_of_mul_pos_right hpos')
  have hcols : d.n * d'.n ≤ d.m * d.n * (d'.m * d'.n) := Nat.mul_le_mul hn hn'
  refine ⟨⟨?_, ?_, trivial⟩, ⟨?_, ?_, trivial⟩, ?_, hroom, ?_, trivial⟩ <;> omega

/-- `ones`: the Kronecker product of a square matrix of ones with itself. -/
def ones : LinearMap ℚ :=
  .kronecker (.dense (Dense.build 25000 25000 fun _ _ => 1) none)
    (.dense (Dense.build 25000 25000 fun _ _ => 1) none)

/-- The product is usable, and there is no room for the triplets of its sparse matrix. -/
theorem toSparse_ones : ones.Linear ∧ ones.Usable ∧ ones.toSparse = .error .breach := by
  have hplain : ones.Plain := ⟨trivial, trivial⟩
  have hfull : (Dense.build 25000 25000 fun _ _ => (1 : ℚ)).Full := fun r c hr hc =>
    ne_of_eq_of_ne (Dense.entry_build _ hr hc) one_ne_zero
  have hextent : ones.extent ≤ capacity := show 25001 * 25001 * (25001 * 25001) ≤ capacity by decide
  refine ⟨Plain.linear hplain, ⟨hextent, by rw [hplain.opaqueParts_eq_nil]; nofun⟩, ?_⟩
  have hsparse := okIff_toSparse_full hfull hfull (by decide) (by decide) none none
  exact hsparse.breach (show ¬ 3 * (25000 * 25000 * (25000 * 25000)) ≤ capacity by decide)

end LinearMap

end BlockAdmm
