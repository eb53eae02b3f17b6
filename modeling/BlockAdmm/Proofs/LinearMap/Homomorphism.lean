/-
  Sums, products and multiples of linear maps are those of their matrices.

  What the views of two linear maps show is added, multiplied or scaled by the operation on the maps,
  whichever form it chooses for its result (`add_isSum`, `mul_isProduct`); nothing but a breach can keep
  a sum of maps of one size, or a product of maps that fit, from having a value.  If the maps are usable and
  spacious, and for a product if the two together are usable and there is the `productRoom`, there is no
  breach, not in the operation and not in the views of its result.

  A sum of Kronecker products goes by the comparison of their factors, and two opaque maps compare equal if
  they have one function.  So marks have to tell the truth: where two opaque maps have one mark, they have
  one function (`SharesFunctions`), and one matrix can be chosen for it (`Lore.among`).  A product compares
  nothing, and asks nothing of marks.

  A sum with an opaque map needs the transpose of the other operand, for the function of its own transpose.
  If that is not known, the operand is expanded, so a sum of maps that can be applied may be a breach
  (`add_longRows`), and so may a product (`mul_longRows`).
-/
import BlockAdmm.Proofs.LinearMap.Views

namespace BlockAdmm

open Scalar ExactScalar

variable {R : Type} [ExactScalar R] {m n : Nat} {k ka kb : Nat → Nat → R}

/-! ## Maps that share functions -/

/-- Opaque maps with one mark have one function. -/
def SharesFunctions (fs : List (OpaqueMap R)) : Prop :=
  ∀ f ∈ fs, ∀ h ∈ fs, Mark.shared f.forward.mark h.forward.mark = true → f.forward.run = h.forward.run

/-- `matrixUnder fs i m n`: a matrix of the size with which the function under a mark multiplies, if there is one. -/
noncomputable def matrixUnder (fs : List (OpaqueMap R)) (i m n : Nat) : Nat → Nat → R :=
  Classical.epsilon fun k =>
    ∃ f ∈ fs, f.forward.mark = some i ∧ Multiplies Fault.IsBreach f.forward.run m n k

/-- `Lore.among c fs`: a mark names the matrix that is known for it among some opaque maps.  Unless `c`,
    functions may end in a breach; transposes are not looked at. -/
def Lore.among (c : Prop) (fs : List (OpaqueMap R)) : Lore R where
  faults := Fault.Unless c
  names i m n k := ∀ r c, r < m → c < n → matrixUnder fs i m n r c = k r c
  names_congr h hk r c hr hc := (h r c hr hc).trans (hk r c hr hc).symm
  transposes := False

theorem Lore.unique_among (c : Prop) (fs : List (OpaqueMap R)) : (Lore.among c fs).Unique :=
  fun _ _ _ _ _ h h' r c hr hc => (h r c hr hc).symm.trans (h' r c hr hc)

theorem Lore.within_among {c d : Prop} (h : d → c) (fs : List (OpaqueMap R)) :
    (Lore.among c fs).Within (Lore.among d fs) where
  faults := Fault.unless_mono h
  names hk := hk
  transposes hg := hg

theorem OpaqueMap.Linear.exists_yields {c : Prop} {fs : List (OpaqueMap R)} {f : OpaqueMap R} (h : f.Linear)
    (hc : c → f.Returns) (hf : f ∈ fs) (hshare : SharesFunctions fs) :
    ∃ k, f.forward.Yields (Lore.among c fs) f.m f.n k := by
  have hreturns (hholds : c) (x : Array R) (hx : x.size = f.n) := (hc hholds).run hx
  obtain ⟨k, hk⟩ := h
  cases hmark : f.forward.mark with
  | none => exact ⟨k, ApplyFn.yields_of_unmarked (hk.unless hreturns) hmark⟩
  | some i =>
    obtain ⟨h, hh, hhmark, hmul⟩ : ∃ h ∈ fs, h.forward.mark = some i ∧
        Multiplies Fault.IsBreach h.forward.run f.m f.n (matrixUnder fs i f.m f.n) :=
      Classical.epsilon_spec (p := fun k => ∃ h ∈ fs, h.forward.mark = some i ∧
        Multiplies Fault.IsBreach h.forward.run f.m f.n k) ⟨k, f, hf, hmark, hk⟩
    have hrun := hshare f hf h hh (Mark.shared_eq_true.2 ⟨i, hmark, hhmark⟩)
    rw [← hrun] at hmul
    refine ⟨matrixUnder fs i f.m f.n, hmul.unless hreturns, fun j hj => ?_⟩
    rw [Option.some.inj (hj.symm.trans hmark)]
    exact fun _ _ _ _ => rfl

namespace LinearMap

variable {a b l s : LinearMap R}

theorem Linear.exists_bears_among {c : Prop} {fs : List (OpaqueMap R)} (h : l.Linear)
    (hc : c → ∀ f ∈ l.opaqueParts, f.Returns) (hl : l.opaqueParts ⊆ fs) (hshare : SharesFunctions fs) :
    ∃ k, l.Bears (Lore.among c fs) k := by
  refine LinearMap.exists_bears fun f hf => ?_
  obtain ⟨k, hk⟩ := (h f hf).exists_yields (fun hholds => hc hholds f hf) (hl hf) hshare
  exact ⟨k, hk, fun hg => hg.elim⟩

/-! ## What the views show -/

section Shown

variable {c ca cb : Prop} {da db ds : Dense R} {x y z u : Array R}

/-- A map that shows a sum is applied like the sum of the two. -/
theorem Shows.apply_sum (ha : a.Shows ca ka) (hb : b.Shows cb kb)
    (hs : s.Shows c fun r c => ka r c + kb r c) (hab : a.size = b.size) (hsize : s.size = a.size)
    (hx : x.size = a.n) (hy : a.apply x = .ok y) (hz : b.apply x = .ok z) (hu : s.apply x = .ok u) :
    u = Vec.increase y z := by
  have hsm : s.m = a.m := congrArg Prod.fst hsize
  have hsn : s.n = a.n := congrArg Prod.snd hsize
  have hbm : b.m = a.m := (congrArg Prod.fst hab).symm
  have hbn : b.n = a.n := (congrArg Prod.snd hab).symm
  rw [ha.apply_eq hx hy, hb.apply_eq (hx.trans hbn.symm) hz, hs.apply_eq (hx.trans hsn.symm) hu, hsm, hsn,
    hbm, hbn]
  refine Vec.ext_entry (by rw [Vec.size_increase, Vec.size_build, Vec.size_build]) fun r hr => ?_
  rw [Vec.size_build] at hr
  rw [Vec.entry_increase (by rw [Vec.size_build, Vec.size_build]), Vec.entry_build _ hr,
    Vec.entry_build _ hr, Vec.entry_build _ hr, rowSum_coef_add]

/-- The dense matrix of a map that shows a sum is the sum of the two. -/
theorem Shows.toDense_sum (ha : a.Shows ca ka) (hb : b.Shows cb kb)
    (hs : s.Shows c fun r c => ka r c + kb r c) (hab : a.size = b.size) (hsize : s.size = a.size)
    (hda : a.toDense = .ok da) (hdb : b.toDense = .ok db) (hds : s.toDense = .ok ds) :
    Dense.addScaled 1 db da = .ok ds := by
  have hsm : s.m = a.m := congrArg Prod.fst hsize
  have hsn : s.n = a.n := congrArg Prod.snd hsize
  have hbm : b.m = a.m := (congrArg Prod.fst hab).symm
  have hbn : b.n = a.n := (congrArg Prod.snd hab).symm
  rw [ha.toDense_eq hda, hb.toDense_eq hdb, hs.toDense_eq hds, hsm, hsn, hbm, hbn]
  refine Dense.addScaled_eq_ok.2 ⟨rfl, rfl, Dense.ext_entry rfl rfl fun r c hr hc => ?_⟩
  rw [Dense.m_build] at hr
  rw [Dense.n_build] at hc
  rw [Dense.m_build, Dense.n_build, Dense.entry_build _ hr hc, Dense.entry_build _ hr hc,
    Dense.entry_build _ hr hc, Dense.entry_build _ hr hc, one_mul]

/-- A map that shows a product is applied like the one map after the other. -/
theorem Shows.apply_product (ha : a.Shows ca ka) (hb : b.Shows cb kb)
    (hs : s.Shows c fun r c => rowSum a.n ka (fun t => kb t c) r) (hfit : a.n = b.m)
    (hsize : s.size = (a.m, b.n)) (hx : x.size = b.n) (hy : b.apply x = .ok y)
    (hz : a.apply y = .ok z) (hu : s.apply x = .ok u) : u = z := by
  have hsm : s.m = a.m := (congrArg Prod.fst hsize :)
  have hsn : s.n = b.n := (congrArg Prod.snd hsize :)
  rw [hb.apply_eq hx hy, ← hfit] at hz
  rw [ha.apply_eq (Vec.size_build ..) hz, hs.apply_eq (hx.trans hsn.symm) hu, hsm, hsn]
  refine congrArg _ (funext fun r => ?_)
  rw [rowSum_comp]
  exact rowSum_congr (fun _ _ => rfl) fun t ht => (Vec.entry_build _ ht).symm

/-- The dense matrix of a map that shows a product is the product of the two. -/
theorem Shows.toDense_product (ha : a.Shows ca ka) (hb : b.Shows cb kb)
    (hs : s.Shows c fun r c => rowSum a.n ka (fun t => kb t c) r) (hfit : a.n = b.m)
    (hsize : s.size = (a.m, b.n)) (hda : a.toDense = .ok da)
    (hdb : b.toDense = .ok db) (hds : s.toDense = .ok ds) : ds = da.product db := by
  have hsm : s.m = a.m := (congrArg Prod.fst hsize :)
  have hsn : s.n = b.n := (congrArg Prod.snd hsize :)
  rw [ha.toDense_eq hda, hb.toDense_eq hdb, hs.toDense_eq hds, hsm, hsn, ← hfit]
  refine Dense.ext_entry rfl rfl fun r c hr hc => ?_
  rw [Dense.m_build] at hr
  rw [Dense.n_build] at hc
  rw [Dense.entry_build _ hr hc, Dense.entry_product hr hc]
  refine Finset.sum_congr rfl fun t ht => ?_
  have ht : t < a.n := Finset.mem_range.1 ht
  rw [Dense.entry_build _ hr ht, Dense.entry_build _ ht hc]

end Shown

/-! ## Sums -/

/-- A sum of Kronecker products with equal left factors keeps the factor. -/
theorem add_of_equal_left {a₁ a₂ b₁ b₂ : LinearMap R}
    (hsize : (kronecker a₁ a₂).size = (kronecker b₁ b₂).size)
    (hne : ¬ a₁.m * a₂.m = 0 ∧ ¬ a₁.n * a₂.n = 0) (h : equal a₁ b₁ = true) :
    (kronecker a₁ a₂).add (kronecker b₁ b₂) = a₂.add b₂ >>= fun s => .ok (a₁.kron s) := by
  have hpromise : promise ((kronecker a₁ a₂).size == (kronecker b₁ b₂).size) = .ok () :=
    promise_eq_ok.2 (beq_iff_eq.2 hsize)
  rw [LinearMap.add.eq_def, hpromise]
  show (if ((a₁.m * a₂.m == 0) || (a₁.n * a₂.n == 0)) = true then _ else _) = _
  rw [if_neg (by rw [Bool.or_eq_true, beq_iff_eq, beq_iff_eq, not_or]; exact hne), if_pos h]
  rfl

/-- A sum of Kronecker products with equal right factors only keeps that one. -/
theorem add_of_equal_right {a₁ a₂ b₁ b₂ : LinearMap R}
    (hsize : (kronecker a₁ a₂).size = (kronecker b₁ b₂).size)
    (hne : ¬ a₁.m * a₂.m = 0 ∧ ¬ a₁.n * a₂.n = 0) (h₁ : ¬ equal a₁ b₁ = true)
    (h : equal a₂ b₂ = true) :
    (kronecker a₁ a₂).add (kronecker b₁ b₂) = a₁.add b₁ >>= fun s => .ok (s.kron a₂) := by
  have hpromise : promise ((kronecker a₁ a₂).size == (kronecker b₁ b₂).size) = .ok () :=
    promise_eq_ok.2 (beq_iff_eq.2 hsize)
  rw [LinearMap.add.eq_def, hpromise]
  show (if ((a₁.m * a₂.m == 0) || (a₁.n * a₂.n == 0)) = true then _ else _) = _
  rw [if_neg (by rw [Bool.or_eq_true, beq_iff_eq, beq_iff_eq, not_or]; exact hne), if_neg h₁, if_pos h]
  rfl

/-- A sum of linear maps of one size has that size and is the sum of what they are, applied or written
    out.  Nothing but a breach can keep it or its views from having a value, and if both maps are usable and
    spacious nothing can: the sum may have to write both out as sparse matrices, and its triplets take no
    more than three times the larger extent.  Maps that compare equal show one matrix; so the factor that
    a sum of Kronecker products keeps stands for both, and if the products have an entry, the other factors
    are of one size. -/
theorem add_isSum (ha : a.Linear) (hb : b.Linear)
    (hshare : SharesFunctions (a.opaqueParts ++ b.opaqueParts)) (hsize : a.size = b.size) :
    ∃ ka kb, a.Shows a.Usable ka ∧ b.Shows b.Usable kb ∧
      Ends (Fault.Unless ((a.Usable ∧ b.Usable) ∧ a.Spacious ∧ b.Spacious)) (fun s => s.size = a.size ∧
          (s.Shows (a.Usable ∧ b.Usable) fun r c => ka r c + kb r c) ∧
          s.tripletExtent ≤ 3 * max a.extent b.extent ∧
          (∀ x y z u, x.size = a.n → a.apply x = .ok y → b.apply x = .ok z → s.apply x = .ok u →
            u = Vec.increase y z) ∧
          ∀ da db ds, a.toDense = .ok da → b.toDense = .ok db → s.toDense = .ok ds →
            Dense.addScaled 1 db da = .ok ds) (a.add b) ∧
      (equal a b = true → ∀ r c, r < a.m → c < a.n → ka r c = kb r c) ∧
      ∀ a₁ a₂ b₁ b₂, a = .kronecker a₁ a₂ → b = .kronecker b₁ b₂ → a.m ≠ 0 → a.n ≠ 0 →
        (equal a₁ b₁ = true → a₂.size = b₂.size ∧
          a.add b = a₂.add b₂ >>= fun s => .ok (a₁.kron s)) ∧
        (equal a₂ b₂ = true → a₁.size = b₁.size ∧
          (¬ equal a₁ b₁ = true → a.add b = a₁.add b₁ >>= fun s => .ok (s.kron a₂))) := by
  obtain ⟨ka, hka⟩ := ha.exists_bears_among (c := a.Usable) (fun h => h.2)
    (List.subset_append_left ..) hshare
  obtain ⟨kb, hkb⟩ := hb.exists_bears_among (c := b.Usable) (fun h => h.2)
    (List.subset_append_right ..) hshare
  have hsa : a.Shows a.Usable ka := hka.shows rfl fun h => h.1
  have hsb : b.Shows b.Usable kb := hkb.shows rfl fun h => h.1
  have hunique := Lore.unique_among (a.Usable ∧ b.Usable) (a.opaqueParts ++ b.opaqueParts)
  -- each map can be relied on if it is usable, their sum if both are
  replace hka := hka.mono (Lore.within_among (And.left : a.Usable ∧ b.Usable → _) _)
  replace hkb := hkb.mono (Lore.within_among (And.right : a.Usable ∧ b.Usable → _) _)
  refine ⟨ka, kb, hsa, hsb, ?_, fun heq r c hr hc => ?_, ?_⟩
  · have hsum := hka.stands.add (E := Fault.Unless ((a.Usable ∧ b.Usable) ∧ a.Spacious ∧ b.Spacious))
      (Fault.unless_mono And.left) hunique ⟨hsize.symm, hkb⟩ (allows_unless fun h => h.1.1)
      (allows_unless fun h => h.2.1) (allows_unless fun h => h.2.1) (allows_unless fun h => h.2.2)
    refine (hsum.and_eq fun s hs => extent_add_le hs).imp fun s hs => ?_
    have hss : s.Shows (a.Usable ∧ b.Usable) fun r c => ka r c + kb r c :=
      hs.1.bears.shows rfl fun h => Nat.le_trans hs.2 (Nat.max_le.2 ⟨h.1.1, h.2.1⟩)
    have htriplets := Nat.le_trans s.tripletExtent_le (Nat.mul_le_mul_left 3 hs.2)
    exact ⟨hs.1.size, hss, htriplets, fun x y z u => hsa.apply_sum hsb hss hsize hs.1.size,
      fun da db ds => hsa.toDense_sum hsb hss hsize hs.1.size⟩
  · exact (coef_eq_of_equal hunique heq hka.stands hkb).2 r c hr hc
  · rintro a₁ a₂ b₁ b₂ rfl rfl hm hn
    refine ⟨fun heq => ⟨?_, add_of_equal_left hsize ⟨hm, hn⟩ heq⟩,
      fun heq => ⟨?_, fun hne => add_of_equal_right hsize ⟨hm, hn⟩ hne heq⟩⟩
    · exact size_right_of_kronecker hsize (size_eq_of_equal heq) ⟨hm, hn⟩
    · exact size_left_of_kronecker hsize (size_eq_of_equal heq) ⟨hm, hn⟩

/-- A mirror that can be told again. -/
def twin : LinearMap ℚ := ((LinearMap.opaqueMap (OpaqueMap.mirror 2)).share 0).1

/-- The mirror is the left factor of both. -/
def twins : LinearMap ℚ × LinearMap ℚ :=
  (.kronecker twin (.diagonal #[2, 3] none), .kronecker twin (.dense ⟨2, 2, #[1, 0, 1, 0], rfl⟩ none))

theorem twins_linear : twins.1.Linear ∧ twins.2.Linear :=
  have htwin : twin.Linear := linear_opaqueMap (OpaqueMap.mirror_isLinear 2)
  ⟨htwin.kronecker (Plain.linear trivial), htwin.kronecker (Plain.linear trivial)⟩

theorem twins_opaqueParts {f : OpaqueMap ℚ} (hf : f ∈ twins.1.opaqueParts ++ twins.2.opaqueParts) :
    LinearMap.opaqueMap f = twin := by
  rcases List.mem_append.1 hf with hf | hf <;> rw [List.mem_singleton.1 hf] <;> rfl

theorem twins_usable : twins.1.Usable ∧ twins.2.Usable := by
  have hreturns (f : OpaqueMap ℚ) (hf : f ∈ twins.1.opaqueParts ++ twins.2.opaqueParts) : f.Returns := by
    cases LinearMap.opaqueMap.inj (twins_opaqueParts hf)
    exact (OpaqueMap.mirror_isLinear 2).returns_apply
  exact ⟨⟨by decide, fun f hf => hreturns f (List.mem_append_left _ hf)⟩,
    by decide, fun f hf => hreturns f (List.mem_append_right _ hf)⟩

/-- Three times the extent of either is small. -/
theorem twins_spacious : twins.1.Spacious ∧ twins.2.Spacious :=
  show 3 * twins.1.extent ≤ capacity ∧ 3 * twins.2.extent ≤ capacity by decide

/-- The sum of the two applied, by the two applied. -/
theorem add_isSum_twins :
    twins.1.Linear ∧ twins.2.Linear ∧
      SharesFunctions (twins.1.opaqueParts ++ twins.2.opaqueParts) ∧ twins.1.size = twins.2.size ∧
      ∃ s, twins.1.add twins.2 = .ok s ∧ s.size = (4, 4) ∧
        s.apply #[1, 2, 3, 4] = .ok #[6 + 7, 12 + 0, 2 + 3, 6 + 0] := by
  have hshare : SharesFunctions (twins.1.opaqueParts ++ twins.2.opaqueParts) := by
    intro f hf h hh _
    rw [LinearMap.opaqueMap.inj ((twins_opaqueParts hf).trans (twins_opaqueParts hh).symm)]
  obtain ⟨y, hy, hyv⟩ := exists_eq_ok_and (x := twins.1.apply #[1, 2, 3, 4])
    (p := fun y => y == #[6, 12, 2, 6]) (by decide +kernel)
  obtain ⟨z, hz, hzv⟩ := exists_eq_ok_and (x := twins.2.apply #[1, 2, 3, 4])
    (p := fun z => z == #[7, 0, 3, 0]) (by decide +kernel)
  obtain ⟨ka, kb, -, -, hsum, -⟩ := add_isSum twins_linear.1 twins_linear.2 hshare rfl
  obtain ⟨s, hs, hsize, hshows, -, happly, -⟩ := hsum.exists_of_unless ⟨twins_usable, twins_spacious⟩
  have hcols : s.n = 4 := congrArg Prod.snd hsize
  obtain ⟨u, hu, -⟩ := (hshows.apply #[1, 2, 3, 4] hcols.symm).exists_of_unless twins_usable
  refine ⟨twins_linear.1, twins_linear.2, hshare, rfl, s, hs, hsize, ?_⟩
  rw [hu, happly _ _ _ _ rfl hy hz hu, eq_of_beq hyv, eq_of_beq hzv]
  rfl

/-- A row of zeros, known through the function only, and the same as a Kronecker product.  They are too
    long to be written out. -/
def longRows : LinearMap ℚ × LinearMap ℚ :=
  (.opaqueMap (OpaqueMap.null 1 1152921504606846976 "f"),
    .kronecker (.diagonal #[1] none) (.opaqueMap (OpaqueMap.null 1 1152921504606846976 "g")))

theorem longRows_linear : longRows.1.Linear ∧ longRows.2.Linear :=
  ⟨linear_opaqueMap (OpaqueMap.null_isLinear ..),
    Linear.kronecker (Plain.linear trivial) (linear_opaqueMap (OpaqueMap.null_isLinear ..))⟩

theorem longRows_returns : ∀ f ∈ longRows.1.opaqueParts ++ longRows.2.opaqueParts, f.Returns := by
  intro f hf
  rcases List.mem_append.1 hf with hf | hf <;> rw [List.mem_singleton.1 hf] <;>
    exact (OpaqueMap.null_isLinear ..).returns_apply

/-- The functions of both rows have values, and the sum of the rows is a breach. -/
theorem add_longRows :
    longRows.1.Linear ∧ longRows.2.Linear ∧
      (∀ f ∈ longRows.1.opaqueParts ++ longRows.2.opaqueParts, f.Returns) ∧
      SharesFunctions (longRows.1.opaqueParts ++ longRows.2.opaqueParts) ∧
      longRows.1.size = longRows.2.size ∧ longRows.1.add longRows.2 = .error .breach := by
  refine ⟨longRows_linear.1, longRows_linear.2, longRows_returns, fun f hf h _ hmark => ?_, rfl,
    eq_breach_of_breached (by decide +kernel)⟩
  -- none of the functions has a mark
  rcases List.mem_append.1 hf with hf | hf <;> rw [List.mem_singleton.1 hf] at hmark <;> cases hmark

/-! ## Products and multiples -/

/-- A multiple of the identity behind a map is never looked at but for its value. -/
theorem exists_mul_scalar {g : Lore R} (h : a.Bears g ka) (alpha : R) (mark : Mark) :
    ∃ s, a.mul (.scalar a.n alpha mark) = .ok s ∧ s.extent ≤ a.extent ∧
      s.Stands g a.m a.n fun r c => alpha * ka r c := by
  have hfit : promise (a.n == (LinearMap.scalar a.n alpha mark).m) = .ok () :=
    promise_eq_ok.2 (beq_iff_eq.2 rfl)
  rw [LinearMap.mul.eq_def, hfit]
  cases a with
  | scalar n x _ =>
    have hscalar : (LinearMap.scalar n alpha mark).Stands g n n fun r c => if r = c then alpha else 0 :=
      ⟨rfl, fun _ _ _ _ => rfl⟩
    refine ⟨_, rfl, extent_scaleBy_le .., (hscalar.scaleBy x).congr fun r c hr hc => ?_⟩
    rw [h r c hr hc, mul_ite, mul_ite, mul_zero, mul_zero, mul_comm]
  | dense | sparse | diagonal | kronecker | opaqueMap =>
    exact ⟨_, rfl, extent_scaleBy_le .., h.stands.scaleBy alpha⟩

theorem scalar_mul (a : LinearMap R) (alpha : R) (mark : Mark) :
    (LinearMap.scalar a.m alpha mark).mul a = .ok (a.scaleBy alpha) := by
  have hfit : promise ((LinearMap.scalar a.m alpha mark).n == a.m) = .ok () :=
    promise_eq_ok.2 (beq_iff_eq.2 rfl)
  rw [LinearMap.mul.eq_def, hfit]
  cases a <;> rfl

/-- A product of linear maps that fit has the size that it should have and is the one map after the other,
    applied or written out.  Nothing but a breach can keep it or its views from having a value, and if the
    functions of both maps have values and the product of the extents can be stored, nothing can; for maps
    that meet in no index three times as much must have room.  A multiple of a map keeps its size and shows
    the multiple of its matrix, and a scalar map on either side of a product is that multiple. -/
theorem mul_isProduct (ha : a.Linear) (hb : b.Linear) (hfit : a.n = b.m) :
    ∃ ka kb, a.Shows a.Usable ka ∧ b.Shows b.Usable kb ∧
      Ends (Fault.Unless ((kronecker a b).Usable ∧ productRoom a.n a b ≤ capacity)) (fun s =>
          s.size = (a.m, b.n) ∧
          (s.Shows (kronecker a b).Usable fun r c => rowSum a.n ka (fun t => kb t c) r) ∧
          s.tripletExtent ≤ productRoom a.n a b ∧
          (∀ x y z u, x.size = b.n → b.apply x = .ok y → a.apply y = .ok z → s.apply x = .ok u → u = z) ∧
          ∀ da db ds, a.toDense = .ok da → b.toDense = .ok db → s.toDense = .ok ds →
            ds = da.product db) (a.mul b) ∧
      ∀ alpha, (a.scaleBy alpha).size = a.size ∧
        ((a.scaleBy alpha).Shows a.Usable fun r c => alpha * ka r c) ∧
        (a.scaleBy alpha).tripletExtent ≤ 3 * a.extent ∧
        ∀ mark, (LinearMap.scalar a.m alpha mark).mul a = .ok (a.scaleBy alpha) ∧
          ∃ s, a.mul (.scalar a.n alpha mark) = .ok s ∧ s.size = a.size ∧
            (s.Shows a.Usable fun r c => alpha * ka r c) ∧ s.tripletExtent ≤ 3 * a.extent := by
  obtain ⟨ka, hka⟩ := ha.exists_bears (c := a.Usable) fun h => h.2
  obtain ⟨kb, hkb⟩ := hb.exists_bears (c := b.Usable) fun h => h.2
  have hsa : a.Shows a.Usable ka := hka.shows rfl fun h => h.1
  have hsb : b.Shows b.Usable kb := hkb.shows rfl fun h => h.1
  refine ⟨ka, kb, hsa, hsb, ?_, fun alpha => ?_⟩
  · replace hka := hka.mono (Lore.within_alone (Usable.left : (kronecker a b).Usable → _))
    replace hkb := hkb.mono (Lore.within_alone (Usable.right : (kronecker a b).Usable → _))
    have hproduct := hka.stands.mul
      (E := Fault.Unless ((kronecker a b).Usable ∧ productRoom a.n a b ≤ capacity))
      (Fault.unless_mono And.left) ⟨Prod.ext hfit.symm rfl, hkb⟩
      (allows_unless fun h => h.left.1) (allows_unless fun h => h.right.1) (allows_unless And.right)
    refine (hproduct.and_eq fun s hs => And.intro (extent_mul_le hs) (three_mul_extent_mul_le hs)).imp fun s hs => ?_
    obtain ⟨hs, hextent, hthree⟩ := hs
    have hsize : s.extent ≤ (kronecker a b).extent :=
      Nat.le_trans (Nat.le_mul_of_pos_left _ (Nat.mul_pos (Nat.succ_pos _) (Nat.succ_pos _))) hextent
    have hss : s.Shows (kronecker a b).Usable fun r c => rowSum a.n ka (fun t => kb t c) r :=
      hs.bears.shows rfl fun h => Nat.le_trans hsize h.1
    have htriplets := Nat.le_trans s.tripletExtent_le hthree
    exact ⟨hs.size, hss, htriplets, fun x y z u => hsa.apply_product hsb hss hfit hs.size,
      fun da db ds => hsa.toDense_product hsb hss hfit hs.size⟩
  · have hscaled := hka.stands.scaleBy alpha
    have htriplets {l : LinearMap R} (h : l.extent ≤ a.extent) : l.tripletExtent ≤ 3 * a.extent :=
      Nat.le_trans l.tripletExtent_le (Nat.mul_le_mul_left 3 h)
    refine ⟨hscaled.size, hscaled.bears.shows rfl fun h => Nat.le_trans (extent_scaleBy_le ..) h.1,
      htriplets (extent_scaleBy_le ..), fun mark => ⟨scalar_mul a alpha mark, ?_⟩⟩
    obtain ⟨s, hs, hextent, hstands⟩ := exists_mul_scalar hka alpha mark
    exact ⟨s, hs, hstands.size, hstands.bears.shows rfl fun h => Nat.le_trans hextent h.1, htriplets hextent⟩

/-- A mirror and then a Kronecker product, applied as one. -/
theorem mul_isProduct_twins :
    twins.1.Linear ∧ (LinearMap.opaqueMap (OpaqueMap.mirror 4 : OpaqueMap ℚ)).Linear ∧
      twins.1.n = (LinearMap.opaqueMap (OpaqueMap.mirror 4 : OpaqueMap ℚ)).m ∧
      ∃ s, twins.1.mul (.opaqueMap (OpaqueMap.mirror 4)) = .ok s ∧ s.size = (4, 4) ∧
        s.apply #[1, 2, 3, 4] = .ok #[4, 3, 8, 9] := by
  have hmirror : (LinearMap.opaqueMap (OpaqueMap.mirror 4 : OpaqueMap ℚ)).Linear :=
    linear_opaqueMap (OpaqueMap.mirror_isLinear 4)
  have husable : (kronecker twins.1 (.opaqueMap (OpaqueMap.mirror 4))).Usable := by
    refine ⟨by decide, fun f hf => ?_⟩
    rcases List.mem_append.1 hf with hf | hf
    · exact twins_usable.1.2 f hf
    · rw [List.mem_singleton.1 hf]
      exact (OpaqueMap.mirror_isLinear 4).returns_apply
  obtain ⟨z, hz, hzv⟩ := exists_eq_ok_and (x := twins.1.apply #[4, 3, 2, 1])
    (p := fun z => z == #[4, 3, 8, 9]) (by decide +kernel)
  obtain ⟨ka, kb, -, -, hproduct, -⟩ := mul_isProduct twins_linear.1 hmirror rfl
  obtain ⟨s, hs, hsize, hshows, -, happly, -⟩ := hproduct.exists_of_unless ⟨husable, by decide⟩
  have hcols : s.n = 4 := congrArg Prod.snd hsize
  obtain ⟨u, hu, -⟩ := (hshows.apply #[1, 2, 3, 4] hcols.symm).exists_of_unless husable
  refine ⟨twins_linear.1, hmirror, rfl, s, hs, hsize, ?_⟩
  rw [hu, happly _ _ _ _ rfl rfl hz hu, eq_of_beq hzv]

/-- The functions of a mirror of one entry and of a row have values, and the product of the two is a breach. -/
theorem mul_longRows :
    (LinearMap.opaqueMap (OpaqueMap.mirror 1 : OpaqueMap ℚ)).Linear ∧ longRows.2.Linear ∧
      (OpaqueMap.mirror 1 : OpaqueMap ℚ).Returns ∧ (∀ f ∈ longRows.2.opaqueParts, f.Returns) ∧
      (LinearMap.opaqueMap (OpaqueMap.mirror 1 : OpaqueMap ℚ)).n = longRows.2.m ∧
      (LinearMap.opaqueMap (OpaqueMap.mirror 1)).mul longRows.2 = .error .breach :=
  ⟨linear_opaqueMap (OpaqueMap.mirror_isLinear 1), longRows_linear.2,
    (OpaqueMap.mirror_isLinear 1).returns_apply,
    fun f hf => longRows_returns f (List.mem_append_right _ hf), rfl,
    eq_breach_of_breached (by decide +kernel)⟩

end LinearMap

end BlockAdmm
