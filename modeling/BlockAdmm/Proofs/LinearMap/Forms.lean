/-
  The forms of a linear map: applying it, writing it out, comparing it and marking it.

  `apply` computes the product with the coefficients (`Bears.apply`), and `toDense` and `toSparse`
  write them out; nothing goes wrong on the way but what goes wrong in a function of the map, or a lack
  of room, which there cannot be if the extent of the map can be stored, and for `toSparse` that of its
  triplets.  Maps that compare equal have
  the same coefficients: scalars compare by value, and two functions with one mark have the coefficients
  of the mark.  `share` marks what had no mark; the marks it takes are new, so they can be given the
  coefficients of what they mark.
-/
import BlockAdmm.Proofs.LinearMap.Extent
import BlockAdmm.Proofs.LinearMap.Stands
import BlockAdmm.Proofs.Safety.Matrix

namespace BlockAdmm

open Scalar ExactScalar

variable {R : Type} [ExactScalar R]

theorem Mark.shared_eq_true {a b : Mark} :
    Mark.shared a b = true ↔ ∃ i, a = some i ∧ b = some i := by
  cases a with
  | none => exact ⟨nofun, fun ⟨_, h, _⟩ => nomatch h⟩
  | some i =>
    cases b with
    | none => exact ⟨nofun, fun ⟨_, _, h⟩ => nomatch h⟩
    | some j =>
      rw [show Mark.shared (some i) (some j) = (i == j) from rfl, beq_iff_eq]
      constructor
      · rintro rfl; exact ⟨i, rfl, rfl⟩
      · rintro ⟨_, hi, hj⟩; exact (Option.some.inj hi).trans (Option.some.inj hj).symm

namespace LinearMap

variable {E : Fault → Prop} {g : Lore R} {w : Marks R} {l a b : LinearMap R} {first m n : Nat}
  {k ka kb : Nat → Nat → R}

/-! ## Applying -/

/-- With the columns of `x` as a matrix `X`, the product with `x` is `B X Aᵀ` by columns. -/
theorem multiplies_kronApply {p q r s : Nat} {fa fb : Array R → Outcome (Array R)}
    (hbefore : Allows E (r * q)) (hafter : Allows E (r * p)) (hrow : Allows E q)
    (ha : Multiplies E fa p q ka) (hb : Multiplies E fb r s kb) :
    Multiplies E (kronApply p q r s fa fb) (p * r) (q * s)
      fun i j => ka (i / r) (j / s) * kb (i % r) (j % s) := by
  intro x _
  refine hbefore.ends_room.bind fun _ _ => ?_
  refine (ends_mapM_range #[] fun j _ => hb _ (Vec.size_build ..)).bind fun columns hcols => ?_
  refine hafter.ends_room.bind fun _ _ => hrow.ends_room.bind fun _ _ => ?_
  refine (ends_mapM_range #[] fun i _ => ha _ (Vec.size_build ..)).bind fun rows hrows => ?_
  refine ends_ok ⟨by rw [Vec.size_build, Nat.mul_comm], fun t ht => ?_⟩
  rw [Nat.mul_comm] at ht
  have hr : 0 < r := Nat.pos_of_ne_zero fun h => by rw [h, Nat.zero_mul] at ht; omega
  have hi : t % r < r := Nat.mod_lt t hr
  have hp : t / r < p := (Nat.div_lt_iff_lt_mul hr).2 (by rw [Nat.mul_comm]; exact ht)
  -- entry `i` of column `j` after `b`
  have hcol (j i : Nat) (hj : j < q) (hi : i < r) :
      Vec.entry (columns.toArray.getD j #[]) i
        = ∑ c ∈ Finset.range s, kb i c * Vec.entry x (j * s + c) := by
    rw [(hcols j hj).2 i hi]
    exact rowSum_congr (fun _ _ => rfl) fun c hc => Vec.entry_build _ hc
  rw [Vec.entry_build _ ht, (hrows _ hi).2 _ hp, rowSum, rowSum, sum_range_mul]
  refine Finset.sum_congr rfl fun j hj => ?_
  have hj := Finset.mem_range.1 hj
  rw [Vec.entry_build _ hj, hcol j _ hj hi, Finset.mul_sum]
  refine Finset.sum_congr rfl fun c hc => ?_
  obtain ⟨hdiv, hmod⟩ := (mul_add_eq_iff (q := j) (Finset.mem_range.1 hc)).1 rfl
  show ka _ _ * (kb _ _ * _) = ka _ _ * kb _ _ * _
  rw [← hdiv, ← hmod, mul_assoc]

theorem multiplies_mulVec {a : Dense R} (hroom : Allows E a.m) : Multiplies E a.mulVec a.m a.n a.entry := by
  intro x hx
  refine ((Dense.ends_mulVec hroom hx).and_eq fun y hy => ((Dense.mulVec_eq_ok hx).1 hy).2).imp fun y hy => ?_
  rw [hy.2]
  exact ⟨Vec.size_build .., fun r hr => Vec.entry_build _ hr⟩

/-- An opaque map checks the lengths of what goes in and comes out, and finds them right. -/
theorem multiplies_opaqueMap {f : OpaqueMap R} (h : Multiplies E f.forward.run f.m f.n k) :
    Multiplies E f.apply f.m f.n k := by
  intro x hx
  refine (ends_promise (beq_iff_eq.2 hx)).bind fun _ _ => (h x hx).bind fun y hy => ?_
  exact (ends_promise (beq_iff_eq.2 hy.1)).bind fun _ _ => ends_ok hy

/-- A map computes the product with its coefficients. -/
theorem Bears.apply (h : l.Bears g k) (hroom : Allows g.faults l.extent) :
    Multiplies g.faults l.apply l.m l.n k := by
  induction l generalizing k with
  | dense a mark =>
    have hm : Allows g.faults a.m := hroom.mono (Nat.le_of_lt (LinearMap.dense a mark).rows_lt_extent)
    intro x hx
    exact (ends_promise (beq_iff_eq.2 hx)).bind fun _ _ => (multiplies_mulVec hm).congr h x hx
  | sparse a mark =>
    have hm : Allows g.faults a.m := hroom.mono (Nat.le_of_lt (LinearMap.sparse a mark).rows_lt_extent)
    intro x hx
    refine (ends_promise (beq_iff_eq.2 hx)).bind fun _ _ => hm.ends_room.bind fun _ _ => ends_ok ?_
    refine ⟨Vec.size_build .., fun r (hr : r < a.m) => ?_⟩
    rw [Sparse.entry_mulVec a x hr]
    exact rowSum_congr (fun c hc => (h r c hr hc).symm) fun _ _ => rfl
  | diagonal d _ =>
    intro x hx
    refine (ends_promise (beq_iff_eq.2 hx)).bind fun _ _ => ends_ok ?_
    refine ⟨Vec.size_build .., fun r (hr : r < d.size) => ?_⟩
    rw [Vec.entry_build _ hr]
    exact (rowSum_diagonal _ hr fun c hc => h r c hr hc).symm
  | scalar n alpha _ =>
    intro x hx
    refine (ends_promise (beq_iff_eq.2 hx)).bind fun _ _ => ends_ok ?_
    refine ⟨(Vec.size_scale alpha x).trans hx, fun r (hr : r < n) => ?_⟩
    rw [Vec.entry_scale]
    exact (rowSum_diagonal _ hr fun c hc => h r c hr hc).symm
  | kronecker a b iha ihb =>
    obtain ⟨ka, kb, ha, hb, hab⟩ := h
    have hbefore : Allows g.faults (b.m * a.n) := by
      rw [Nat.mul_comm]
      exact hroom.mono (Nat.mul_le_mul (Nat.le_of_lt a.cols_lt_extent) (Nat.le_of_lt b.rows_lt_extent))
    have hafter : Allows g.faults (b.m * a.m) := by
      rw [Nat.mul_comm]
      exact hroom.mono (Nat.mul_le_mul (Nat.le_of_lt a.rows_lt_extent) (Nat.le_of_lt b.rows_lt_extent))
    have hrow : Allows g.faults a.n :=
      hroom.mono (Nat.le_trans (Nat.le_of_lt a.cols_lt_extent) (extent_left_le a b))
    intro x hx
    refine (ends_promise (beq_iff_eq.2 hx)).bind fun _ _ => ?_
    exact (multiplies_kronApply hbefore hafter hrow (iha ha (hroom.mono (extent_left_le a b)))
      (ihb hb (hroom.mono (extent_right_le a b)))).congr hab x hx
  | opaqueMap f => exact multiplies_opaqueMap h.1.multiplies

/-- Its values are right whatever room there is. -/
theorem Bears.realizes (h : l.Bears g k) : Realizes l.apply l.m l.n k :=
  realizes_iff_multiplies.2 ((h.mono g.within_loose).apply (Or.inl trivial))

theorem Denotes.apply (h : l.Denotes w k) : Realizes l.apply l.m l.n k := (denotes_iff_bears.1 h).realizes

/-! ## Writing out -/

/-- The columns of an opaque map are the images of the unit vectors. -/
theorem ends_toDense_opaqueMap {f : OpaqueMap R} (h : Multiplies E f.forward.run f.m f.n k)
    (hroom : Allows E (LinearMap.opaqueMap f).extent) :
    Ends E (fun d => d.m = f.m ∧ d.n = f.n ∧ ∀ r c, r < f.m → c < f.n → d.entry r c = k r c)
      f.toDense := by
  have hmn : Allows E (f.m * f.n) := hroom.mono (LinearMap.opaqueMap f).entries_le_extent
  have hn : Allows E f.n := hroom.mono (Nat.le_of_lt (LinearMap.opaqueMap f).cols_lt_extent)
  refine hmn.ends_room.bind fun _ _ => hn.ends_room.bind fun _ _ => ?_
  refine (ends_mapM_range #[] fun c _ => multiplies_opaqueMap h _ (Vec.size_build ..)).bind
    fun columns hcols => ends_ok ⟨rfl, rfl, fun r c hr hc => ?_⟩
  rw [Dense.entry_build _ hr hc, (hcols c hc).2 r hr, rowSum_unit k hc]

theorem Bears.toDense (h : l.Bears g k) (hroom : Allows g.faults l.extent) :
    Ends g.faults (fun d => d.m = l.m ∧ d.n = l.n ∧ ∀ r c, r < l.m → c < l.n → d.entry r c = k r c)
      l.toDense := by
  induction l generalizing k with
  | dense a _ => exact ends_ok ⟨rfl, rfl, fun r c hr hc => (h r c hr hc).symm⟩
  | sparse a _ =>
    refine (hroom.mono (entries_le_extent _)).ends_room.bind fun _ _ => ends_ok ⟨rfl, rfl, fun r c hr hc => ?_⟩
    exact (Dense.entry_build _ hr hc).trans (h r c hr hc).symm
  | diagonal x _ =>
    refine (hroom.mono (entries_le_extent _)).ends_room.bind fun _ _ => ends_ok ⟨rfl, rfl, fun r c hr hc => ?_⟩
    exact (Dense.entry_diagonal x hr hc).trans (h r c hr hc).symm
  | scalar n alpha _ =>
    refine (hroom.mono (entries_le_extent _)).ends_room.bind fun _ _ =>
      ends_ok ⟨rfl, rfl, fun r c (hr : r < n) (hc : c < n) => ?_⟩
    rw [Dense.entry_scale, Dense.entry_identity hr hc, h r c hr hc, mul_ite, mul_one, mul_zero]
  | kronecker a b iha ihb =>
    obtain ⟨ka, kb, ha, hb, hab⟩ := h
    refine (iha ha (hroom.mono (extent_left_le a b))).bind fun da hda => ?_
    refine (ihb hb (hroom.mono (extent_right_le a b))).bind fun db hdb => ?_
    obtain ⟨ham, han, hea⟩ := hda
    obtain ⟨hbm, hbn, heb⟩ := hdb
    have hentries : Allows g.faults (da.m * db.m * (da.n * db.n)) := by
      rw [ham, han, hbm, hbn]
      exact hroom.mono (LinearMap.kronecker a b).entries_le_extent
    refine hentries.ends_room.bind fun _ _ => ?_
    refine ends_ok ⟨by rw [Dense.m_build, ham, hbm]; rfl, by rw [Dense.n_build, han, hbn]; rfl, ?_⟩
    intro r c (hr : r < a.m * b.m) (hc : c < a.n * b.n)
    rw [Dense.entry_build _ (by rw [ham, hbm]; exact hr) (by rw [han, hbn]; exact hc), hab r c hr hc,
      hbm, hbn]
    obtain ⟨hrd, hrm⟩ := div_mod_lt hr
    obtain ⟨hcd, hcm⟩ := div_mod_lt hc
    rw [hea _ _ hrd hcd, heb _ _ hrm hcm]
    show (if (ka _ _ == 0) = true then 0 else ka _ _ * kb _ _) = _
    split
    · rename_i hz
      rw [beq_iff_eq.1 hz, zero_mul]
    · rfl
  | opaqueMap f => exact ends_toDense_opaqueMap h.1.multiplies hroom

theorem Bears.toSparse (hE : ∀ f, g.faults f → E f) (h : l.Bears g k) (hroom : Allows E l.extent)
    (htriplets : Allows E l.tripletExtent) :
    Ends E (fun s => s.m = l.m ∧ s.n = l.n ∧ ∀ r c, r < l.m → c < l.n → s.entry r c = k r c)
      l.toSparse := by
  induction l generalizing k with
  | dense a mark =>
    refine (Sparse.ends_extract htriplets (hroom.mono (LinearMap.dense a mark).cols_lt_extent)).imp fun s hs => ?_
    rw [hs]
    exact ⟨rfl, rfl, fun r c hr hc => (Sparse.entry_ofDense a hr hc).trans (h r c hr hc).symm⟩
  | sparse a _ => exact ends_ok ⟨rfl, rfl, fun r c hr hc => (h r c hr hc).symm⟩
  | diagonal x mark =>
    refine (Sparse.ends_scatter (hroom.mono (LinearMap.diagonal x mark).cols_lt_extent)).imp fun s hs => ?_
    rw [hs]
    exact ⟨rfl, rfl, fun r c hr hc => (Sparse.entry_ofDiagonal x hr hc).trans (h r c hr hc).symm⟩
  | scalar n alpha mark =>
    have hn : (Vec.build n fun _ => alpha).size = n := Vec.size_build ..
    have hcols : Allows E ((Vec.build n fun _ => alpha).size + 1) :=
      hn.symm ▸ hroom.mono (LinearMap.scalar n alpha mark).cols_lt_extent
    refine (Sparse.ends_scatter hcols).imp fun s hs => ?_
    rw [hs]
    refine ⟨hn, hn, fun r c (hr : r < n) (hc : c < n) => ?_⟩
    rw [Sparse.entry_ofDiagonal _ (by rw [hn]; exact hr) (by rw [hn]; exact hc),
      Vec.entry_build _ hr, h r c hr hc]
  | kronecker a b iha ihb =>
    obtain ⟨ka, kb, ha, hb, hab⟩ := h
    refine (iha ha (hroom.mono (extent_left_le a b)) (htriplets.mono (tripletExtent_left_le a b))).bind
      fun sa hsa => ?_
    refine (ihb hb (hroom.mono (extent_right_le a b)) (htriplets.mono (tripletExtent_right_le a b))).bind
      fun sb hsb => ?_
    obtain ⟨ham, han, hea⟩ := hsa
    obtain ⟨hbm, hbn, heb⟩ := hsb
    have hlists : Allows E (3 * ((sa.m * sa.n + 1) * (sb.m * sb.n))) := by
      rw [ham, han, hbm, hbn]
      exact htriplets.mono (triplets_le_tripletExtent a b)
    have hcols : Allows E (sa.n * sb.n + 1) := by
      rw [han, hbn]
      exact hroom.mono (LinearMap.kronecker a b).cols_lt_extent
    refine (Sparse.ends_tensor hlists hcols).imp fun s hs => ?_
    rw [hs]
    refine ⟨by show sa.m * sb.m = _; rw [ham, hbm]; rfl, by show sa.n * sb.n = _; rw [han, hbn]; rfl, ?_⟩
    intro r c (hr : r < a.m * b.m) (hc : c < a.n * b.n)
    rw [Sparse.entry_kronecker _ _ (by rw [ham, hbm]; exact hr) (by rw [han, hbn]; exact hc),
      hab r c hr hc, hbm, hbn]
    obtain ⟨hrd, hrm⟩ := div_mod_lt hr
    obtain ⟨hcd, hcm⟩ := div_mod_lt hc
    rw [hea _ _ hrd hcd, heb _ _ hrm hcm]
  | opaqueMap f =>
    refine (ends_toDense_opaqueMap (h.1.multiplies.mono hE) hroom).bind fun d hd => ?_
    obtain ⟨hm, hn, he⟩ := hd
    have hlist : Allows E (3 * (d.m * d.n)) := by
      rw [hm, hn]
      exact htriplets
    have hcols : Allows E (d.n + 1) := by
      rw [hn]
      exact hroom.mono (LinearMap.opaqueMap f).cols_lt_extent
    refine (Sparse.ends_extract hlist hcols).imp fun s hs => ?_
    rw [hs]
    refine ⟨hm, hn, fun r c (hr : r < f.m) (hc : c < f.n) => ?_⟩
    rw [Sparse.entry_ofDense d (by rw [hm]; exact hr) (by rw [hn]; exact hc), he r c hr hc]

/-! ## Comparing -/

omit [ExactScalar R] in
/-- Kronecker products of one size that have left factors of one size: if there is an entry, the right
    factors are of one size. -/
theorem size_right_of_kronecker {a₁ a₂ b₁ b₂ : LinearMap R}
    (h : (a₁.m * a₂.m, a₁.n * a₂.n) = (b₁.m * b₂.m, b₁.n * b₂.n)) (h₁ : a₁.size = b₁.size)
    (hne : ¬ a₁.m * a₂.m = 0 ∧ ¬ a₁.n * a₂.n = 0) : a₂.size = b₂.size := by
  obtain ⟨hm, hn⟩ := Prod.mk.inj h
  rw [← show a₁.m = b₁.m from congrArg Prod.fst h₁] at hm
  rw [← show a₁.n = b₁.n from congrArg Prod.snd h₁] at hn
  exact Prod.ext (Nat.eq_of_mul_eq_mul_left (Nat.pos_of_ne_zero (left_ne_zero_of_mul hne.1)) hm)
    (Nat.eq_of_mul_eq_mul_left (Nat.pos_of_ne_zero (left_ne_zero_of_mul hne.2)) hn)

omit [ExactScalar R] in
theorem size_left_of_kronecker {a₁ a₂ b₁ b₂ : LinearMap R}
    (h : (a₁.m * a₂.m, a₁.n * a₂.n) = (b₁.m * b₂.m, b₁.n * b₂.n)) (h₂ : a₂.size = b₂.size)
    (hne : ¬ a₁.m * a₂.m = 0 ∧ ¬ a₁.n * a₂.n = 0) : a₁.size = b₁.size := by
  rw [Nat.mul_comm, Nat.mul_comm a₁.n, Nat.mul_comm b₁.m, Nat.mul_comm b₁.n] at h
  rw [Nat.mul_comm, Nat.mul_comm a₁.n] at hne
  exact size_right_of_kronecker h h₂ hne

/-- Maps of one size whose parts are equal have the same coefficients. -/
theorem coef_eq_of_equalParts (hg : g.Unique) (h : equalParts a b = true) (hs : a.size = b.size)
    (ha : a.Bears g ka) (hb : b.Bears g kb) {r c : Nat} (hr : r < a.m) (hc : c < a.n) :
    ka r c = kb r c := by
  induction a generalizing b ka kb r c with
  | dense a _ =>
    cases b with
    | dense b _ =>
      rw [equalParts, Bool.or_eq_true, Bool.and_eq_true] at h
      cases Dense.eq_of_equal (a := a) (b := b) (h.symm.imp_right And.right)
      rw [ha r c hr hc, hb r c hr hc]
    | _ => cases h
  | sparse a _ =>
    cases b with
    | sparse b _ =>
      rw [equalParts, Bool.or_eq_true, Bool.and_eq_true] at h
      cases Sparse.eq_of_equal (a := a) (b := b) (h.symm.imp_right And.right)
      rw [ha r c hr hc, hb r c hr hc]
    | _ => cases h
  | diagonal x _ =>
    cases b with
    | diagonal y _ =>
      rw [equalParts, Bool.or_eq_true, Bool.and_eq_true] at h
      have hxy : x = y := h.elim (fun h => Vec.eq_of_same h.2) Vec.eq_of_equal
      subst hxy
      rw [ha r c hr hc, hb r c hr hc]
    | _ => cases h
  | scalar n alpha _ =>
    cases b with
    | scalar n' beta _ =>
      rw [equalParts, Bool.or_eq_true, Bool.and_eq_true] at h
      have hxy : alpha = beta := h.elim (fun h => (same_iff _ _).1 h.2) beq_iff_eq.1
      have hn : n = n' := congrArg Prod.fst hs
      subst hxy hn
      rw [ha r c hr hc, hb r c hr hc]
    | _ => cases h
  | kronecker a₁ a₂ ih₁ ih₂ =>
    cases b with
    | kronecker b₁ b₂ =>
      rw [equalParts, Bool.and_eq_true, Bool.and_eq_true, Bool.and_eq_true, beq_iff_eq,
        beq_iff_eq] at h
      obtain ⟨⟨⟨hs₁, h₁⟩, hs₂⟩, h₂⟩ := h
      obtain ⟨ka₁, ka₂, ha₁, ha₂, hka⟩ := ha
      obtain ⟨kb₁, kb₂, hb₁, hb₂, hkb⟩ := hb
      have hm : a₂.m = b₂.m := congrArg Prod.fst hs₂
      have hn : a₂.n = b₂.n := congrArg Prod.snd hs₂
      have hr' : r < a₁.m * a₂.m := hr
      have hc' : c < a₁.n * a₂.n := hc
      obtain ⟨hrd, hrm⟩ := div_mod_lt hr'
      obtain ⟨hcd, hcm⟩ := div_mod_lt hc'
      rw [hka r c hr' hc', hkb r c (lt_of_lt_of_eq hr (congrArg Prod.fst hs))
        (lt_of_lt_of_eq hc (congrArg Prod.snd hs)), ← hm, ← hn, ih₁ h₁ hs₁ ha₁ hb₁ hrd hcd,
        ih₂ h₂ hs₂ ha₂ hb₂ hrm hcm]
    | _ => cases h
  | opaqueMap f =>
    cases b with
    | opaqueMap f' =>
      obtain ⟨m, n, forward, backward, name⟩ := f
      obtain ⟨m', n', forward', backward', name'⟩ := f'
      obtain ⟨rfl, rfl⟩ : m = m' ∧ n = n' := Prod.mk.inj hs
      obtain ⟨i, hi, hj⟩ := Mark.shared_eq_true.1 h
      exact hg i m n ka kb (ha.1.names i hi) (hb.1.names i hj) r c hr hc
    | _ => cases h

/-- Maps that compare equal are of one size and have the same coefficients. -/
theorem coef_eq_of_equal (hg : g.Unique) (h : equal a b = true) (ha : a.Stands g m n ka)
    (hb : b.Bears g kb) : b.size = (m, n) ∧ ∀ r c, r < m → c < n → ka r c = kb r c := by
  have hsize := size_eq_of_equal h
  rw [equal, Bool.and_eq_true] at h
  exact ⟨hsize ▸ ha.size, fun r c hr hc => coef_eq_of_equalParts hg h.2 hsize ha.bears hb
    (ha.rows.symm ▸ hr) (ha.cols.symm ▸ hc)⟩

/-! ## Marking -/

theorem exists_shareMark (w : Marks R) (mark : Mark) :
    ∃ v : Marks R, v.Extends w ∧ v.next = (shareMark mark w.next).2 := by
  cases mark with
  | some i => exact ⟨w, Marks.Extends.refl w, rfl⟩
  | none => exact ⟨w.give 0, w.extends_give 0, rfl⟩

/-- A function that gets a new mark gives the mark its coefficients. -/
theorem exists_shareFn {f : ApplyFn R} (hfirst : first ≤ w.next) (h : f.Yields (w.above g first) m n k) :
    ∃ v : Marks R, v.Extends w ∧ v.next = (shareFn f w.next).2 ∧
      (shareFn f w.next).1.Yields (v.above g first) m n k := by
  obtain ⟨run, mark⟩ := f
  cases mark with
  | some i => exact ⟨w, Marks.Extends.refl w, rfl, h⟩
  | none =>
    refine ⟨w.give k, w.extends_give k, rfl, h.multiplies, fun i hi => ?_⟩
    cases hi
    refine ⟨fun hlt => absurd hlt (Nat.not_lt.2 hfirst), fun _ => ⟨Nat.lt_succ_self _, fun r c _ _ => ?_⟩⟩
    exact congrFun (congrFun (if_pos rfl) r) c

/-- A map with marks on everything it stores stands for what it stood for before. -/
theorem Stands.share (hfirst : first ≤ w.next) (hg : g.transposes) (h : l.Stands (w.above g first) m n k) :
    ∃ v : Marks R, v.Extends w ∧ v.next = (l.share w.next).2 ∧
      (l.share w.next).1.Stands (v.above g first) m n k := by
  induction l generalizing w m n k with
  | dense a mark | sparse a mark | diagonal d mark | scalar n' alpha mark =>
    obtain ⟨v, hv, hnext⟩ := exists_shareMark w mark
    exact ⟨v, hv, hnext, h.size, h.bears⟩
  | kronecker a b iha ihb =>
    obtain ⟨ka, kb, ha, hb, hab⟩ := h.bears
    obtain ⟨v, hv, hnext, hma⟩ := iha hfirst ha.stands
    obtain ⟨u, hu, hnext', hmb⟩ := ihb (Nat.le_trans hfirst hv.le) (hb.mono hv.within).stands
    rw [hnext] at hnext' hmb
    refine ⟨u, hu.trans hv, hnext', ?_, ka, kb, hma.bears.mono hu.within, hmb.bears, ?_⟩
    · rw [← h.size]
      show ((a.share w.next).1.m * _, (a.share w.next).1.n * _) = (a.m * b.m, a.n * b.n)
      rw [hma.rows, hma.cols]
      exact congrArg₂ Prod.mk (congrArg _ hmb.rows) (congrArg _ hmb.cols)
    · intro r c hr hc
      have hr' : r < a.m * b.m := by rw [← hma.rows, ← hmb.rows]; exact hr
      have hc' : c < a.n * b.n := by rw [← hma.cols, ← hmb.cols]; exact hc
      rw [hab r c hr' hc', ← hmb.rows, ← hmb.cols]
  | opaqueMap f =>
    obtain ⟨m', n', forward, backward, name⟩ := f
    obtain ⟨hf, ht⟩ := h.bears
    obtain ⟨v, hv, hnext, hfv⟩ := exists_shareFn hfirst hf
    cases backward with
    | none => exact ⟨v, hv, hnext, h.size, hfv, nofun⟩
    | some t =>
      obtain ⟨u, hu, hnext', htu⟩ :=
        exists_shareFn (Nat.le_trans hfirst hv.le) ((ht hg t rfl).mono hv.within)
      rw [hnext] at hnext' htu
      refine ⟨u, hu.trans hv, hnext', h.size, hfv.mono hu.within, fun _ t' ht' => ?_⟩
      cases ht'
      exact htu

theorem Means.share (h : l.Means w m n k) :
    ∃ v : Marks R, v.Extends w ∧ v.next = (l.share w.next).2 ∧ (l.share w.next).1.Means v m n k := by
  obtain ⟨v, hv, hnext, hl⟩ := Stands.share (Nat.zero_le _) trivial (means_iff_stands.1 h)
  exact ⟨v, hv, hnext, means_iff_stands.2 hl⟩

end LinearMap

end BlockAdmm
