/-
  The algebra of linear maps computes with coefficients.

  Whatever form an operation chooses, its result stands for the transposed, scaled, added or multiplied
  coefficients of its operands, and no promise is broken on the way (`Stands.transpose`, `Stands.scaleBy`,
  `Stands.add`, `Stands.mul`).  What an opaque result composes is right where the functions of the operands
  are.  What is expanded on the way needs the room that the extents of the operands say.  A sum or product
  of Kronecker products goes on with their factors, so the last two theorems are inductions on the first
  operand; what one level does, given the factors, is stated apart.

  With the marks in use as lore the same theorems say what the results denote (`Means.add` and the others
  at the end).
-/
import BlockAdmm.Proofs.LinearMap.Forms

namespace BlockAdmm

open Scalar ExactScalar

variable {R : Type} [ExactScalar R]

variable {E : Fault → Prop} {g : Lore R} {w : Marks R} {m n p q : Nat} {k k' ka kb : Nat → Nat → R}

/-! ## Functions -/

theorem Multiplies.add {f h : ApplyFn R} (hf : Multiplies E f.run m n ka) (hh : Multiplies E h.run m n kb) :
    Multiplies E (LinearMap.sumFn f h).run m n fun r c => ka r c + kb r c := by
  intro x hx
  refine (hf x hx).bind fun y hy => (hh x hx).bind fun z hz => ends_ok ?_
  refine ⟨by rw [Vec.size_increase, hy.1], fun r hr => ?_⟩
  rw [Vec.entry_increase (hz.1.trans hy.1.symm), hy.2 r hr, hz.2 r hr, rowSum_coef_add]

theorem Multiplies.scale {f : ApplyFn R} (alpha : R) (hf : Multiplies E f.run m n k) :
    Multiplies E (LinearMap.scaledFn alpha f).run m n fun r c => alpha * k r c := by
  intro x hx
  refine (hf x hx).bind fun y hy => ends_ok ⟨by rw [Array.size_map, hy.1], fun r hr => ?_⟩
  rw [Vec.entry_map (zero_mul alpha), hy.2 r hr, rowSum, rowSum, Finset.sum_mul]
  exact Finset.sum_congr rfl fun c _ => by ring

theorem Multiplies.comp {f h : ApplyFn R} (hf : Multiplies E f.run m p ka) (hh : Multiplies E h.run p n kb) :
    Multiplies E (LinearMap.composeFn f h).run m n fun r c => rowSum p ka (fun t => kb t c) r := by
  intro x hx
  refine (hh x hx).bind fun z hz => (hf z hz.1).imp fun y hy => ⟨hy.1, fun r hr => ?_⟩
  rw [hy.2 r hr, rowSum_congr (fun _ _ => rfl) hz.2, rowSum_comp]

/-- A function without a mark promises nothing about marks. -/
theorem ApplyFn.yields_of_unmarked {f : ApplyFn R} (h : Multiplies g.faults f.run m n k)
    (hmark : f.mark = none) : f.Yields g m n k :=
  ⟨h, fun i hi => by rw [hmark] at hi; cases hi⟩

namespace LinearMap

variable {l a b s t : LinearMap R}

/-- An opaque map of functions that are right and have no marks. -/
theorem stands_opaqueMap {f : ApplyFn R} {t : Option (ApplyFn R)} (name : String)
    (hf : Multiplies g.faults f.run m n k) (hmark : f.mark = none)
    (ht : g.transposes → ∀ h, t = some h → h.mark = none ∧ Multiplies g.faults h.run n m fun r c => k c r) :
    Stands g (.opaqueMap ⟨m, n, f, t, name⟩) m n k :=
  ⟨rfl, ApplyFn.yields_of_unmarked hf hmark, fun hg h hh =>
    ApplyFn.yields_of_unmarked (ht hg h hh).2 (ht hg h hh).1⟩

/-! ## Matrices as maps -/

theorem stands_ofDense {d : Dense R} (hm : d.m = m) (hn : d.n = n)
    (h : ∀ r c, r < m → c < n → d.entry r c = k r c) : (ofDense d).Stands g m n k := by
  subst hm hn
  exact ⟨rfl, fun r c hr hc => (h r c hr hc).symm⟩

theorem stands_ofSparse {d : Sparse R} (hm : d.m = m) (hn : d.n = n)
    (h : ∀ r c, r < m → c < n → d.entry r c = k r c) : (ofSparse d).Stands g m n k := by
  subst hm hn
  exact ⟨rfl, fun r c hr hc => (h r c hr hc).symm⟩

theorem stands_ofDiagonal {d : Array R} (hs : d.size = n)
    (h : ∀ r c, r < n → c < n → k r c = if r = c then Vec.entry d r else 0) :
    (ofDiagonal d).Stands g n n k := by
  subst hs
  exact ⟨rfl, h⟩

theorem stands_ofScalar {alpha : R} (h : ∀ r c, r < n → c < n → k r c = if r = c then alpha else 0) :
    (ofScalar n alpha).Stands g n n k := ⟨rfl, h⟩

theorem Stands.apply (h : l.Stands g m n k) (hroom : Allows g.faults l.extent) :
    Multiplies g.faults l.apply m n k := by
  have ha := h.bears.apply hroom
  rw [h.rows, h.cols] at ha
  exact ha

/-- The dense matrix of a map stands for it. -/
theorem Stands.toDense (h : l.Stands g m n k) (hroom : Allows g.faults l.extent) :
    Ends g.faults (fun d => d.m = m ∧ d.n = n ∧ ∀ r c, r < m → c < n → d.entry r c = k r c) l.toDense := by
  have hd := h.bears.toDense hroom
  rw [h.rows, h.cols] at hd
  exact hd

/-- So does the sparse matrix, where other faults may be allowed than for what is in the map. -/
theorem Stands.toSparse (hE : ∀ f, g.faults f → E f) (h : l.Stands g m n k) (hroom : Allows E l.extent)
    (htriplets : Allows E l.tripletExtent) :
    Ends E (fun d => d.m = m ∧ d.n = n ∧ ∀ r c, r < m → c < n → d.entry r c = k r c) l.toSparse := by
  have hd := h.bears.toSparse hE hroom htriplets
  rw [h.rows, h.cols] at hd
  exact hd

/-! ## Kronecker products -/

/-- A Kronecker product as a pair. -/
theorem Stands.kronecker (ha : a.Stands g m n ka) (hb : b.Stands g p q kb) :
    (LinearMap.kronecker a b).Stands g (m * p) (n * q)
      fun r c => ka (r / p) (c / q) * kb (r % p) (c % q) := by
  refine ⟨?_, ka, kb, ha.bears, hb.bears, fun r c _ _ => ?_⟩
  · show (a.m * b.m, a.n * b.n) = _
    rw [ha.rows, ha.cols, hb.rows, hb.cols]
  · rw [hb.rows, hb.cols]

theorem Stands.kron (ha : a.Stands g m n ka) (hb : b.Stands g p q kb) :
    (kron a b).Stands g (m * p) (n * q) fun r c => ka (r / p) (c / q) * kb (r % p) (c % q) := by
  unfold LinearMap.kron
  split
  · rename_i m' x _ p' y _
    obtain ⟨rfl, rfl⟩ : m' = m ∧ m' = n := Prod.mk.inj ha.size
    obtain ⟨rfl, rfl⟩ : p' = p ∧ p' = q := Prod.mk.inj hb.size
    refine ⟨rfl, fun r c hr hc => ?_⟩
    obtain ⟨hrd, hrm⟩ := div_mod_lt hr
    obtain ⟨hcd, hcm⟩ := div_mod_lt hc
    have hrc : r = c ↔ r / p' = c / p' ∧ r % p' = c % p' := by
      rw [← mul_add_eq_iff hrm, Nat.div_add_mod']
    rw [ha.bears _ _ hrd hcd, hb.bears _ _ hrm hcm, if_congr hrc rfl rfl, ite_and, ite_mul,
      zero_mul, mul_ite, mul_zero]
  · exact ha.kronecker hb

omit [ExactScalar R] in
/-- A product that is made at once or kept is the Kronecker product. -/
theorem eq_kron_of_tensor [Mul R] (h : a.tensor b = .ok l) : l = a.kron b := by
  rw [tensor] at h
  split at h
  · rename_i heq
    obtain ⟨k, hk, h⟩ := bind_eq_ok.1 h
    cases pure_eq_ok.1 h
    rw [heq, (count_eq_ok.1 hk).2]
  · exact (Except.ok.inj h).symm

/-! ## Transposing -/

/-- Transposing keeps every promise, and where the functions known for transposes are right, so is its
    result. -/
theorem Stands.transpose (h : l.Stands g m n k) (hroom : Allows g.faults l.extent) :
    Ends g.faults (fun t => g.transposes → t.Stands g n m fun r c => k c r) l.transpose := by
  induction l generalizing m n k with
  | dense a _ =>
    obtain ⟨rfl, rfl⟩ : a.m = m ∧ a.n = n := Prod.mk.inj h.size
    exact ends_ok fun _ => stands_ofDense rfl rfl fun r c hr hc =>
      (Dense.entry_transpose a hr hc).trans (h.bears c r hc hr).symm
  | sparse a mark =>
    obtain ⟨rfl, rfl⟩ : a.m = m ∧ a.n = n := Prod.mk.inj h.size
    have hrows : Allows g.faults (a.m + 1) := hroom.mono (LinearMap.sparse a mark).rows_lt_extent
    refine Ends.bind (P := fun d => d = a.transpose) (hrows.ends_room.bind fun _ _ => ends_ok rfl) ?_
    rintro d rfl
    exact ends_ok fun _ => stands_ofSparse rfl rfl fun r c hr hc =>
      (Sparse.entry_transpose a hr hc).trans (h.bears c r hc hr).symm
  | diagonal d _ =>
    obtain ⟨rfl, rfl⟩ : d.size = m ∧ d.size = n := Prod.mk.inj h.size
    refine ends_ok fun _ => ⟨rfl, fun r c hr hc => ?_⟩
    rw [h.bears c r hc hr, if_congr eq_comm rfl rfl]
    split
    · rename_i hrc; rw [hrc]
    · rfl
  | scalar n' alpha _ =>
    obtain ⟨rfl, rfl⟩ : n' = m ∧ n' = n := Prod.mk.inj h.size
    exact ends_ok fun _ => ⟨rfl, fun r c hr hc => (h.bears c r hc hr).trans (if_congr eq_comm rfl rfl)⟩
  | kronecker a b iha ihb =>
    obtain ⟨ka, kb, ha, hb, hab⟩ := h.bears
    obtain ⟨rfl, rfl⟩ : a.m * b.m = m ∧ a.n * b.n = n := Prod.mk.inj h.size
    refine (iha ha.stands (hroom.mono (extent_left_le a b))).bind fun ta hta => ?_
    refine (ihb hb.stands (hroom.mono (extent_right_le a b))).bind fun tb htb => ends_ok fun hg => ?_
    exact ((hta hg).kron (htb hg)).congr fun r c hr hc => hab c r hc hr
  | opaqueMap f =>
    obtain ⟨m', n', forward, backward, name⟩ := f
    obtain ⟨rfl, rfl⟩ : m' = m ∧ n' = n := Prod.mk.inj h.size
    obtain ⟨hf, hb⟩ := h.bears
    cases backward with
    | some t' =>
      refine ends_ok fun hg => ⟨rfl, hb hg t' rfl, fun _ h hh => ?_⟩
      cases hh
      exact hf
    | none =>
      refine (ends_toDense_opaqueMap hf.multiplies hroom).bind fun d hd => ends_ok fun _ => ?_
      obtain ⟨hm, hn, he⟩ := hd
      refine stands_ofDense hn hm fun r c hr hc => ?_
      rw [Dense.entry_transpose d (by rw [hn]; exact hr) (by rw [hm]; exact hc), he c r hc hr]

/-! ## Scaling -/

theorem Stands.scaleBy (alpha : R) (h : l.Stands g m n k) :
    (l.scaleBy alpha).Stands g m n fun r c => alpha * k r c := by
  induction l generalizing m n k with
  | dense | sparse | diagonal | scalar | kronecker | opaqueMap => ?_
  all_goals
    rw [LinearMap.scaleBy]
    split
    · rename_i h1
      rw [beq_iff_eq.1 h1]
      exact h.congr fun r c _ _ => one_mul _
  · rename_i a _ _
    obtain ⟨rfl, rfl⟩ : a.m = m ∧ a.n = n := Prod.mk.inj h.size
    exact stands_ofDense rfl rfl fun r c hr hc => by
      rw [Dense.entry_scale, h.bears r c hr hc]
  · rename_i a _ _
    obtain ⟨rfl, rfl⟩ : a.m = m ∧ a.n = n := Prod.mk.inj h.size
    exact stands_ofSparse rfl rfl fun r c hr hc => by
      rw [Sparse.entry_scale alpha a hr hc, h.bears r c hr hc]
  · rename_i d _ _
    obtain ⟨rfl, rfl⟩ : d.size = m ∧ d.size = n := Prod.mk.inj h.size
    refine stands_ofDiagonal (Vec.size_scale ..) fun r c hr hc => ?_
    rw [h.bears r c hr hc, Vec.entry_scale, mul_ite, mul_zero]
  · rename_i n' x _ _
    obtain ⟨rfl, rfl⟩ : n' = m ∧ n' = n := Prod.mk.inj h.size
    refine stands_ofScalar fun r c hr hc => ?_
    rw [h.bears r c hr hc, mul_ite, mul_zero]
  · rename_i a b iha _ _
    obtain ⟨ka, kb, ha, hb, hab⟩ := h.bears
    obtain ⟨rfl, rfl⟩ : a.m * b.m = m ∧ a.n * b.n = n := Prod.mk.inj h.size
    refine ((iha ha.stands).kron hb.stands).congr fun r c hr hc => ?_
    rw [hab r c hr hc, mul_assoc]
  · rename_i f _
    obtain ⟨m', n', forward, backward, name⟩ := f
    obtain ⟨rfl, rfl⟩ : m' = m ∧ n' = n := Prod.mk.inj h.size
    obtain ⟨hf, hb⟩ := h.bears
    refine stands_opaqueMap _ (hf.multiplies.scale alpha) rfl fun hg h hh => ?_
    obtain ⟨t, ht, rfl⟩ := Option.map_eq_some_iff.1 hh
    exact ⟨rfl, (hb hg t ht).multiplies.scale alpha⟩

/-! ## The functions of a map -/

theorem Stands.applyFn (h : l.Stands g m n k) (hroom : Allows g.faults l.extent) :
    Multiplies g.faults l.applyFn.run m n k := by
  cases l with
  | opaqueMap f =>
    obtain ⟨rfl, rfl⟩ : f.m = m ∧ f.n = n := Prod.mk.inj h.size
    exact h.bears.1.multiplies
  | dense | sparse | diagonal | scalar | kronecker => exact h.apply hroom

theorem Stands.transposeFn? (h : l.Stands g m n k) (hroom : Allows g.faults l.extent) :
    Ends g.faults (fun o => g.transposes → ∀ f, o = some f → Multiplies g.faults f.run n m fun r c => k c r)
      l.transposeFn? := by
  cases l with
  | opaqueMap f =>
    obtain ⟨rfl, rfl⟩ : f.m = m ∧ f.n = n := Prod.mk.inj h.size
    exact ends_ok fun hg t ht => (h.bears.2 hg t ht).multiplies
  | dense | sparse | diagonal | scalar | kronecker =>
    -- the function is that of the transpose, which needs no more room than the map
    refine ((h.transpose hroom).and_eq fun t ht => extent_transpose_le ht).bind fun t ht => ?_
    refine ends_ok fun hg f hf => ?_
    cases hf
    exact (ht.1 hg).applyFn (hroom.mono ht.2)

omit [ExactScalar R] in
theorem both_eq_some {α : Type} {f : α → α → α} {x y : Option α} {z : α} (h : both f x y = some z) :
    ∃ x' y', x = some x' ∧ y = some y' ∧ f x' y' = z := by
  cases x with
  | none => cases h
  | some x' =>
    cases y with
    | none => cases h
    | some y' => exact ⟨x', y', rfl, rfl, Option.some.inj h⟩

/-! ## Adding -/

theorem Stands.opaqueSum (ha : a.Stands g m n ka) (hb : b.Stands g m n kb)
    (hra : Allows g.faults a.extent) (hrb : Allows g.faults b.extent) :
    Ends g.faults (fun s => s.Stands g m n fun r c => ka r c + kb r c) (opaqueSum a b) := by
  refine (ha.transposeFn? hra).bind fun ta hta => (hb.transposeFn? hrb).bind fun tb htb => ends_ok ?_
  rw [ha.rows, ha.cols]
  refine stands_opaqueMap _ ((ha.applyFn hra).add (hb.applyFn hrb)) rfl fun hg f hf => ?_
  obtain ⟨fa, fb, hfa, hfb, rfl⟩ := both_eq_some hf
  exact ⟨rfl, (hta hg fa hfa).add (htb hg fb hfb)⟩

theorem Stands.denseSum (ha : a.Stands g m n ka) (hb : b.Stands g m n kb)
    (hra : Allows g.faults a.extent) (hrb : Allows g.faults b.extent) :
    Ends g.faults (fun s => s.Stands g m n fun r c => ka r c + kb r c) (denseSum a b) := by
  refine (ha.toDense hra).bind fun da hda => (hb.toDense hrb).bind fun db hdb => ?_
  obtain ⟨rfl, rfl, hea⟩ := hda
  obtain ⟨hm, hn, heb⟩ := hdb
  refine ((Dense.ends_addScaled 1 (Prod.ext hm hn)).and_eq fun d hd =>
    (Dense.addScaled_eq_ok.1 hd).2.2).bind fun d hd => ends_ok ?_
  rw [hd.2]
  refine stands_ofDense rfl rfl fun r c hr hc => ?_
  rw [Dense.entry_build _ hr hc, hea r c hr hc, heb r c hr hc, one_mul]

theorem Stands.sparseSum (hE : ∀ f, g.faults f → E f) (ha : a.Stands g m n ka) (hb : b.Stands g m n kb)
    (hta : Allows E (3 * a.extent)) (htb : Allows E (3 * b.extent)) :
    Ends E (fun s => s.Stands g m n fun r c => ka r c + kb r c) (sparseSum a b) := by
  refine (ha.toSparse hE (hta.mono a.extent_le_three) (hta.mono a.tripletExtent_le)).bind fun da hda => ?_
  refine (hb.toSparse hE (htb.mono b.extent_le_three) (htb.mono b.tripletExtent_le)).bind fun db hdb => ?_
  obtain ⟨ham, han, hea⟩ := hda
  obtain ⟨hbm, hbn, heb⟩ := hdb
  have hla : Allows E (3 * (da.m * da.n)) := by
    rw [ham, han, ← ha.rows, ← ha.cols]
    exact hta.mono (Nat.mul_le_mul_left 3 a.entries_le_extent)
  have hlb : Allows E (3 * (db.m * db.n)) := by
    rw [hbm, hbn, ← hb.rows, ← hb.cols]
    exact htb.mono (Nat.mul_le_mul_left 3 b.entries_le_extent)
  refine (Sparse.ends_merge hla hlb).bind fun d hd => ends_ok ?_
  rw [hd]
  refine stands_ofSparse ham han fun r c hr hc => ?_
  rw [Sparse.entry_add da db (ham.symm ▸ hr) (han.symm ▸ hc), hea r c hr hc, heb r c hr hc]

/-- A diagonal or scalar map has its diagonal. -/
theorem Stands.diagonalEntries (h : l.Stands g m n k)
    (hform : l.form = .diagonal ∨ l.form = .scalar) :
    m = n ∧ ∀ r c, r < n → c < n → k r c = if r = c then Vec.entry l.diagonalEntries r else 0 := by
  cases l with
  | diagonal d _ =>
    obtain ⟨rfl, rfl⟩ : d.size = m ∧ d.size = n := Prod.mk.inj h.size
    exact ⟨rfl, h.bears⟩
  | scalar n' alpha _ =>
    obtain ⟨rfl, rfl⟩ : n' = m ∧ n' = n := Prod.mk.inj h.size
    refine ⟨rfl, fun r c hr hc => ?_⟩
    rw [h.bears r c hr hc]
    show _ = if r = c then Vec.entry (Vec.build n' fun _ => alpha) r else 0
    rw [Vec.entry_build _ hr]
  | dense | sparse | kronecker | opaqueMap => rcases hform with h | h <;> cases h

theorem Stands.diagonalSum (ha : a.Stands g m n ka) (hb : b.Stands g m n kb)
    (hfa : a.form = .diagonal ∨ a.form = .scalar) (hfb : b.form = .diagonal ∨ b.form = .scalar) :
    (ofDiagonal (Vec.build a.n fun i => Vec.entry a.diagonalEntries i
      + Vec.entry b.diagonalEntries i)).Stands g m n fun r c => ka r c + kb r c := by
  obtain ⟨rfl, hea⟩ := ha.diagonalEntries hfa
  obtain ⟨-, heb⟩ := hb.diagonalEntries hfb
  refine stands_ofDiagonal (by rw [Vec.size_build, ha.cols]) fun r c hr hc => ?_
  rw [hea r c hr hc, heb r c hr hc, Vec.entry_build _ (by rw [ha.cols]; exact hr)]
  split
  · rfl
  · exact add_zero 0

/-- `SumSound g E a b`: whatever the two maps stand for, their sum stands for the sum, if there is room.  A
    sum may have to write both maps out, so for itself other faults may be allowed than for what is in them. -/
def SumSound (g : Lore R) (E : Fault → Prop) (a b : LinearMap R) : Prop :=
  Allows g.faults a.extent → Allows g.faults b.extent → Allows E (3 * a.extent) → Allows E (3 * b.extent) →
    ∀ m n ka kb, a.Stands g m n ka → b.Stands g m n kb →
      Ends E (fun s => s.Stands g m n fun r c => ka r c + kb r c) (a.add b)

/-- The coefficients of a Kronecker product by the sizes of its factors. -/
theorem coef_of_kronecker
    (hk : ∀ r c, r < a.m * b.m → c < a.n * b.n → k r c = ka (r / b.m) (c / b.n) * kb (r % b.m) (c % b.n))
    {m₁ n₁ m₂ n₂ : Nat} (ha : a.size = (m₁, n₁)) (hb : b.size = (m₂, n₂)) {r c : Nat}
    (hr : r < m₁ * m₂) (hc : c < n₁ * n₂) :
    k r c = ka (r / m₂) (c / n₂) * kb (r % m₂) (c % n₂) := by
  obtain ⟨rfl, rfl⟩ : a.m = m₁ ∧ a.n = n₁ := Prod.mk.inj ha
  obtain ⟨rfl, rfl⟩ : b.m = m₂ ∧ b.n = n₂ := Prod.mk.inj hb
  exact hk r c hr hc

/-- One level of a sum, given the sums of the factors of Kronecker products. -/
theorem sumSound_of_factors (hE : ∀ f, g.faults f → E f) (hu : g.Unique)
    (hf : ∀ a₁ a₂ b₁ b₂, a = .kronecker a₁ a₂ → b = .kronecker b₁ b₂ →
      SumSound g E a₁ b₁ ∧ SumSound g E a₂ b₂) : SumSound g E a b := by
  intro hra hrb hta htb m n ka kb ha hb
  rw [LinearMap.add.eq_def]
  refine (ends_promise (beq_iff_eq.2 (ha.size.trans hb.size.symm))).bind fun _ _ => ?_
  rw [ha.rows, ha.cols]
  split
  · -- a map without entries stands for anything
    rename_i hempty
    rw [Bool.or_eq_true, beq_iff_eq, beq_iff_eq] at hempty
    exact ends_ok (ha.congr fun r c hr hc => by omega)
  · rename_i hne
    rw [Bool.or_eq_true, beq_iff_eq, beq_iff_eq, not_or] at hne
    split
    · rename_i n' x _ _ y _
      obtain ⟨rfl, rfl⟩ : n' = m ∧ n' = n := Prod.mk.inj ha.size
      have hbn := Prod.mk.inj hb.size
      refine ends_ok (stands_ofScalar fun r c hr hc => ?_)
      rw [ha.bears r c hr hc, hb.bears r c (hbn.1 ▸ hr) (hbn.2 ▸ hc)]
      split
      · rfl
      · exact add_zero 0
    · exact (ha.opaqueSum hb hra hrb).mono hE fun _ h => h
    · exact (ha.opaqueSum hb hra hrb).mono hE fun _ h => h
    · exact ends_ok (ha.cols ▸ ha.diagonalSum hb (Or.inr rfl) (Or.inl rfl))
    · exact ends_ok (ha.cols ▸ ha.diagonalSum hb (Or.inl rfl) (Or.inr rfl))
    · exact ends_ok (ha.cols ▸ ha.diagonalSum hb (Or.inl rfl) (Or.inl rfl))
    · rename_i a₁ a₂ b₁ b₂
      obtain ⟨h₁, h₂⟩ := hf a₁ a₂ b₁ b₂ rfl rfl
      obtain ⟨ka₁, ka₂, ha₁, ha₂, hka⟩ := ha.bears
      obtain ⟨kb₁, kb₂, hb₁, hb₂, hkb⟩ := hb.bears
      obtain ⟨rfl, rfl⟩ : a₁.m * a₂.m = m ∧ a₁.n * a₂.n = n := Prod.mk.inj ha.size
      have hsize : (a₁.m * a₂.m, a₁.n * a₂.n) = (b₁.m * b₂.m, b₁.n * b₂.n) := hb.size.symm
      have hra₁ := hra.mono (extent_left_le a₁ a₂)
      have hta₁ := hta.mono (Nat.mul_le_mul_left 3 (extent_left_le a₁ a₂))
      have hra₂ := hra.mono (extent_right_le a₁ a₂)
      have hta₂ := hta.mono (Nat.mul_le_mul_left 3 (extent_right_le a₁ a₂))
      have hrb₁ := hrb.mono (extent_left_le b₁ b₂)
      have htb₁ := htb.mono (Nat.mul_le_mul_left 3 (extent_left_le b₁ b₂))
      have hrb₂ := hrb.mono (extent_right_le b₁ b₂)
      have htb₂ := htb.mono (Nat.mul_le_mul_left 3 (extent_right_le b₁ b₂))
      split
      · rename_i heq
        obtain ⟨hsize₁, hk₁⟩ := coef_eq_of_equal hu heq ha₁.stands hb₁
        have hsize₂ : b₂.size = (a₂.m, a₂.n) :=
          (size_right_of_kronecker hsize (size_eq_of_equal heq) hne).symm
        refine (h₂ hra₂ hrb₂ hta₂ htb₂ _ _ _ _ ha₂.stands ⟨hsize₂, hb₂⟩).bind fun s₂ hs₂ => ends_ok ?_
        refine (ha₁.stands.kron hs₂).congr fun r c hr hc => ?_
        rw [hka r c hr hc, coef_of_kronecker hkb hsize₁ hsize₂ hr hc,
          ← hk₁ _ _ (div_mod_lt hr).1 (div_mod_lt hc).1, mul_add]
      · split
        · rename_i heq
          obtain ⟨hsize₂, hk₂⟩ := coef_eq_of_equal hu heq ha₂.stands hb₂
          have hsize₁ : b₁.size = (a₁.m, a₁.n) :=
            (size_left_of_kronecker hsize (size_eq_of_equal heq) hne).symm
          refine (h₁ hra₁ hrb₁ hta₁ htb₁ _ _ _ _ ha₁.stands ⟨hsize₁, hb₁⟩).bind fun s₁ hs₁ => ends_ok ?_
          refine (hs₁.kron ha₂.stands).congr fun r c hr hc => ?_
          rw [hka r c hr hc, coef_of_kronecker hkb hsize₁ hsize₂ hr hc,
            ← hk₂ _ _ (div_mod_lt hr).2 (div_mod_lt hc).2, add_mul]
        · exact ha.sparseSum hE hb hta htb
    · exact (ha.denseSum hb hra hrb).mono hE fun _ h => h
    · exact (ha.denseSum hb hra hrb).mono hE fun _ h => h
    · exact ha.sparseSum hE hb hta htb

theorem sumSound (hE : ∀ f, g.faults f → E f) (hu : g.Unique) (a b : LinearMap R) : SumSound g E a b := by
  induction a generalizing b with
  | kronecker a₁ a₂ ih₁ ih₂ =>
    refine sumSound_of_factors hE hu fun a₁' a₂' b₁ b₂ ha hb => ?_
    cases ha
    exact ⟨ih₁ b₁, ih₂ b₂⟩
  | dense | sparse | diagonal | scalar | opaqueMap =>
    exact sumSound_of_factors hE hu fun _ _ _ _ ha => nomatch ha

/-- A sum stands for the sum, if a mark names one matrix of each size. -/
theorem Stands.add (hE : ∀ f, g.faults f → E f) (hu : g.Unique) (ha : a.Stands g m n ka)
    (hb : b.Stands g m n kb) (hra : Allows g.faults a.extent) (hrb : Allows g.faults b.extent)
    (hta : Allows E (3 * a.extent)) (htb : Allows E (3 * b.extent)) :
    Ends E (fun s => s.Stands g m n fun r c => ka r c + kb r c) (a.add b) :=
  sumSound hE hu a b hra hrb hta htb m n ka kb ha hb

/-! ## Multiplying -/

theorem Stands.opaqueProduct (ha : a.Stands g m p ka) (hb : b.Stands g p n kb)
    (hra : Allows g.faults a.extent) (hrb : Allows g.faults b.extent) :
    Ends g.faults (fun s => s.Stands g m n fun r c => rowSum p ka (fun t => kb t c) r)
      (opaqueProduct a b) := by
  refine (ha.transposeFn? hra).bind fun ta hta => (hb.transposeFn? hrb).bind fun tb htb => ends_ok ?_
  rw [ha.rows, hb.cols]
  refine stands_opaqueMap _ ((ha.applyFn hra).comp (hb.applyFn hrb)) rfl fun hg f hf => ?_
  obtain ⟨fa, fb, hfa, hfb, rfl⟩ := both_eq_some hf
  refine ⟨rfl, ((htb hg fb hfb).comp (hta hg fa hfa)).congr fun r c _ _ => ?_⟩
  exact Finset.sum_congr rfl fun t _ => mul_comm _ _

theorem Stands.denseProduct (hE : ∀ f, g.faults f → E f) (ha : a.Stands g m p ka)
    (hb : b.Stands g p n kb) (hra : Allows g.faults a.extent) (hrb : Allows g.faults b.extent)
    (hrab : Allows E (m * n)) :
    Ends E (fun s => s.Stands g m n fun r c => rowSum p ka (fun t => kb t c) r) (denseProduct a b) := by
  refine ((ha.toDense hra).mono hE fun _ h => h).bind fun da hda => ?_
  refine ((hb.toDense hrb).mono hE fun _ h => h).bind fun db hdb => ?_
  obtain ⟨rfl, rfl, hea⟩ := hda
  obtain ⟨hbm, rfl, heb⟩ := hdb
  refine ((Dense.ends_mulMat hrab hbm.symm).and_eq fun d hd =>
    (Dense.mulMat_eq_ok.1 hd).2.2).bind fun d hd => ends_ok ?_
  rw [hd.2]
  refine stands_ofDense rfl rfl fun r c hr hc => ?_
  rw [Dense.entry_product hr hc]
  exact rowSum_congr (fun t ht => hea r t hr ht) fun t ht => heb t c ht hc

theorem Stands.sparseProduct (hE : ∀ f, g.faults f → E f) (ha : a.Stands g m p ka)
    (hb : b.Stands g p n kb) (hroom : Allows E (productRoom a.n a b)) :
    Ends E (fun s => s.Stands g m n fun r c => rowSum p ka (fun t => kb t c) r) (sparseProduct a b) := by
  have hfit : a.n = b.m := ha.cols.trans hb.rows.symm
  obtain ⟨hta, htb⟩ := tripletExtent_le_productRoom hfit
  obtain ⟨htable, hproducts⟩ := products_le_productRoom hfit
  have hboth := hroom.mono (extents_le_productRoom a.n a b)
  refine (ha.toSparse hE (hboth.mono (extent_left_le a b)) (hroom.mono hta)).bind fun da hda => ?_
  refine (hb.toSparse hE (hboth.mono (extent_right_le a b)) (hroom.mono htb)).bind fun db hdb => ?_
  obtain ⟨ham, han, hea⟩ := hda
  obtain ⟨hbm, hbn, heb⟩ := hdb
  have hcolumns : Allows E (3 * da.n) := by
    rw [han, ← ha.cols]
    exact hroom.mono htable
  have hlist : Allows E (3 * (db.m * db.n * da.m)) := by
    rw [ham, hbm, hbn, ← ha.rows, ← hb.rows, ← hb.cols]
    exact hroom.mono hproducts
  refine (Sparse.ends_compose hcolumns hlist).bind fun d hd => ends_ok ?_
  rw [hd]
  subst ham han hbn
  refine stands_ofSparse rfl rfl fun r c hr hc => ?_
  rw [Sparse.entry_mul da db hbm.symm hr hc]
  exact rowSum_congr (fun t ht => hea r t hr ht) fun t ht => heb t c ht hc

/-- The product of the coefficients of two Kronecker products whose factors fit. -/
theorem rowSum_kronecker (p₁ p₂ : Nat) (ka₁ ka₂ kb₁ kb₂ : Nat → Nat → R) (r₁ r₂ c₁ c₂ : Nat) :
    ∑ t ∈ Finset.range (p₁ * p₂),
        ka₁ r₁ (t / p₂) * ka₂ r₂ (t % p₂) * (kb₁ (t / p₂) c₁ * kb₂ (t % p₂) c₂)
      = rowSum p₁ ka₁ (fun t => kb₁ t c₁) r₁ * rowSum p₂ ka₂ (fun t => kb₂ t c₂) r₂ := by
  rw [sum_range_mul, rowSum, rowSum, Finset.sum_mul_sum]
  refine Finset.sum_congr rfl fun j _ => Finset.sum_congr rfl fun i hi => ?_
  obtain ⟨hdiv, hmod⟩ := (mul_add_eq_iff (q := j) (Finset.mem_range.1 hi)).1 rfl
  rw [← hdiv, ← hmod]
  ring

/-- `ProductSound g E a b`: whatever the two maps stand for, their product stands for the product, if there is
    room.  A product can have more entries than its factors, so for itself other faults may be allowed than
    for what is in them. -/
def ProductSound (g : Lore R) (E : Fault → Prop) (a b : LinearMap R) : Prop :=
  Allows g.faults a.extent → Allows g.faults b.extent → Allows E (productRoom a.n a b) →
    ∀ m p n ka kb, a.Stands g m p ka → b.Stands g p n kb →
      Ends E (fun s => s.Stands g m n fun r c => rowSum p ka (fun t => kb t c) r) (a.mul b)

/-- One level of a product, given the products of the factors of Kronecker products. -/
theorem productSound_of_factors (hE : ∀ f, g.faults f → E f)
    (hf : ∀ a₁ a₂ b₁ b₂, a = .kronecker a₁ a₂ → b = .kronecker b₁ b₂ →
      ProductSound g E a₁ b₁ ∧ ProductSound g E a₂ b₂) : ProductSound g E a b := by
  intro hra hrb hroom m p n ka kb ha hb
  have hmn : Allows E (m * n) := by
    rw [← ha.rows, ← hb.cols]
    refine (hroom.mono (extents_le_productRoom a.n a b)).mono ?_
    exact Nat.mul_le_mul (Nat.le_of_lt a.rows_lt_extent) (Nat.le_of_lt b.cols_lt_extent)
  rw [LinearMap.mul.eq_def]
  refine (ends_promise (beq_iff_eq.2 (ha.cols.trans hb.rows.symm))).bind fun _ _ => ?_
  split
  · -- a multiple of the identity in front
    rename_i n' x _
    obtain ⟨rfl, rfl⟩ : n' = m ∧ n' = p := Prod.mk.inj ha.size
    refine ends_ok ((hb.scaleBy x).congr fun r c hr hc => ?_)
    exact rowSum_diagonal _ hr fun t ht => ha.bears r t hr ht
  · rename_i n' y _ _
    obtain ⟨rfl, rfl⟩ : n' = p ∧ n' = n := Prod.mk.inj hb.size
    refine ends_ok ((ha.scaleBy y).congr fun r c hr hc => ?_)
    rw [rowSum, Finset.sum_eq_single c]
    · rw [hb.bears c c hc hc, if_pos rfl, mul_comm]
    · intro t ht hne
      rw [hb.bears t c (Finset.mem_range.1 ht) hc, if_neg hne, mul_zero]
    · intro hc'
      exact absurd (Finset.mem_range.2 hc) hc'
  · exact (ha.opaqueProduct hb hra hrb).mono hE fun _ h => h
  · exact (ha.opaqueProduct hb hra hrb).mono hE fun _ h => h
  · rename_i x _ y _
    obtain ⟨rfl, rfl⟩ : x.size = m ∧ x.size = p := Prod.mk.inj ha.size
    have hxy : y.size = x.size ∧ y.size = n := Prod.mk.inj hb.size
    rw [← hxy.2, hxy.1]
    refine ends_ok (stands_ofDiagonal (Vec.size_build ..) fun r c hr hc => ?_)
    rw [Vec.entry_build _ hr, rowSum_diagonal _ hr fun t ht => ha.bears r t hr ht,
      hb.bears r c (hxy.1 ▸ hr) (hxy.1 ▸ hc)]
    split
    · rfl
    · exact mul_zero _
  · rename_i a₁ a₂ b₁ b₂
    split
    · rename_i hfit
      rw [Bool.and_eq_true, beq_iff_eq, beq_iff_eq] at hfit
      obtain ⟨h₁, h₂⟩ := hf a₁ a₂ b₁ b₂ rfl rfl
      obtain ⟨ka₁, ka₂, ha₁, ha₂, hka⟩ := ha.bears
      obtain ⟨kb₁, kb₂, hb₁, hb₂, hkb⟩ := hb.bears
      obtain ⟨rfl, rfl⟩ : a₁.m * a₂.m = m ∧ a₁.n * a₂.n = p := Prod.mk.inj ha.size
      obtain ⟨-, rfl⟩ : _ ∧ b₁.n * b₂.n = n := Prod.mk.inj hb.size
      have hroom₁ := hroom.mono (productRoom_left_le a₁ a₂ b₁ b₂)
      have hroom₂ := hroom.mono (productRoom_right_le a₁ a₂ b₁ b₂)
      refine (h₁ (hra.mono (extent_left_le a₁ a₂)) (hrb.mono (extent_left_le b₁ b₂)) hroom₁
        _ _ _ _ _ ha₁.stands (hfit.1 ▸ hb₁.stands)).bind fun s₁ hs₁ => ?_
      refine (h₂ (hra.mono (extent_right_le a₁ a₂)) (hrb.mono (extent_right_le b₁ b₂)) hroom₂
        _ _ _ _ _ ha₂.stands (hfit.2 ▸ hb₂.stands)).bind fun s₂ hs₂ => ends_ok ?_
      refine (hs₁.kron hs₂).congr fun r c hr hc => ?_
      rw [← rowSum_kronecker]
      refine Finset.sum_congr rfl fun t ht => ?_
      have ht := Finset.mem_range.1 ht
      show ka r t * kb t c = _
      rw [hka r t hr ht, hkb t c (by rw [← hfit.1, ← hfit.2]; exact ht) hc, hfit.2]
    · exact ha.sparseProduct hE hb hroom
  · exact ha.denseProduct hE hb hra hrb hmn
  · exact ha.denseProduct hE hb hra hrb hmn
  · exact ha.sparseProduct hE hb hroom

theorem productSound (hE : ∀ f, g.faults f → E f) (a b : LinearMap R) : ProductSound g E a b := by
  induction a generalizing b with
  | kronecker a₁ a₂ ih₁ ih₂ =>
    refine productSound_of_factors hE fun a₁' a₂' b₁ b₂ ha hb => ?_
    cases ha
    exact ⟨ih₁ b₁, ih₂ b₂⟩
  | dense | sparse | diagonal | scalar | opaqueMap =>
    exact productSound_of_factors hE fun _ _ _ _ ha => nomatch ha

theorem Stands.mul (hE : ∀ f, g.faults f → E f) (ha : a.Stands g m p ka) (hb : b.Stands g p n kb)
    (hra : Allows g.faults a.extent) (hrb : Allows g.faults b.extent)
    (hroom : Allows E (productRoom a.n a b)) :
    Ends E (fun s => s.Stands g m n fun r c => rowSum p ka (fun t => kb t c) r) (a.mul b) :=
  productSound hE a b hra hrb hroom m p n ka kb ha hb

omit [ExactScalar R] in
theorem size_eq_of_add [Scalar R] (h : a.add b = .ok s) : b.size = a.size := by
  rw [LinearMap.add.eq_def, bind_eq_ok] at h
  obtain ⟨_, hsize, -⟩ := h
  exact (beq_iff_eq.1 (promise_eq_ok.1 hsize)).symm

omit [ExactScalar R] in
theorem cols_eq_of_mul [Scalar R] (h : a.mul b = .ok s) : a.n = b.m := by
  rw [LinearMap.mul.eq_def, bind_eq_ok] at h
  obtain ⟨_, hsize, -⟩ := h
  exact beq_iff_eq.1 (promise_eq_ok.1 hsize)

/-! ## What the results denote -/

theorem means_ofDense {d : Dense R} (hm : d.m = m) (hn : d.n = n)
    (h : ∀ r c, r < m → c < n → d.entry r c = k r c) : (ofDense d).Means w m n k :=
  means_iff_stands.2 (stands_ofDense hm hn h)

theorem means_ofSparse {d : Sparse R} (hm : d.m = m) (hn : d.n = n)
    (h : ∀ r c, r < m → c < n → d.entry r c = k r c) : (ofSparse d).Means w m n k :=
  means_iff_stands.2 (stands_ofSparse hm hn h)

theorem means_ofDiagonal {d : Array R} (hs : d.size = n)
    (h : ∀ r c, r < n → c < n → k r c = if r = c then Vec.entry d r else 0) :
    (ofDiagonal d).Means w n n k := means_iff_stands.2 (stands_ofDiagonal hs h)

theorem means_ofScalar {alpha : R} (h : ∀ r c, r < n → c < n → k r c = if r = c then alpha else 0) :
    (ofScalar n alpha).Means w n n k := means_iff_stands.2 (stands_ofScalar h)

theorem means_identity (n : Nat) :
    (identity n : LinearMap R).Means w n n fun r c => if r = c then 1 else 0 :=
  ⟨rfl, fun _ _ _ _ => rfl⟩

theorem Means.toDense {d : Dense R} (h : l.Means w m n k) (hd : l.toDense = .ok d) :
    d.m = m ∧ d.n = n ∧ ∀ r c, r < m → c < n → d.entry r c = k r c :=
  ((means_iff_stands.1 h).toDense (w.allows_lore _)).of_eq_ok hd

theorem Means.toSparse {d : Sparse R} (h : l.Means w m n k) (hd : l.toSparse = .ok d) :
    d.m = m ∧ d.n = n ∧ ∀ r c, r < m → c < n → d.entry r c = k r c :=
  ((means_iff_stands.1 h).toSparse (fun _ hf => hf) (w.allows_lore _) (w.allows_lore _)).of_eq_ok hd

theorem Means.apply (h : l.Means w m n k) : Realizes l.apply m n k :=
  realizes_iff_multiplies.2 ((means_iff_stands.1 h).apply (w.allows_lore _))

theorem Means.kronecker (ha : a.Means w m n ka) (hb : b.Means w p q kb) :
    (LinearMap.kronecker a b).Means w (m * p) (n * q)
      fun r c => ka (r / p) (c / q) * kb (r % p) (c % q) :=
  means_iff_stands.2 ((means_iff_stands.1 ha).kronecker (means_iff_stands.1 hb))

theorem Means.kron (ha : a.Means w m n ka) (hb : b.Means w p q kb) :
    (kron a b).Means w (m * p) (n * q) fun r c => ka (r / p) (c / q) * kb (r % p) (c % q) :=
  means_iff_stands.2 ((means_iff_stands.1 ha).kron (means_iff_stands.1 hb))

theorem Means.transpose (h : l.Means w m n k) (ht : l.transpose = .ok t) :
    t.Means w n m fun r c => k c r :=
  means_iff_stands.2 (((means_iff_stands.1 h).transpose (w.allows_lore _)).of_eq_ok ht trivial)

theorem Means.scaleBy (alpha : R) (h : l.Means w m n k) :
    (l.scaleBy alpha).Means w m n fun r c => alpha * k r c :=
  means_iff_stands.2 ((means_iff_stands.1 h).scaleBy alpha)

theorem Means.neg (h : l.Means w m n k) : l.neg.Means w m n fun r c => -1 * k r c := h.scaleBy (-1)

theorem Means.add (ha : a.Means w m n ka) (hb : b.Means w m n kb) (hs : a.add b = .ok s) :
    s.Means w m n fun r c => ka r c + kb r c :=
  means_iff_stands.2 (((means_iff_stands.1 ha).add (fun _ hf => hf) w.unique_lore (means_iff_stands.1 hb)
    (w.allows_lore _) (w.allows_lore _) (w.allows_lore _) (w.allows_lore _)).of_eq_ok hs)

theorem Means.mul (ha : a.Means w m p ka) (hb : b.Means w p n kb) (hs : a.mul b = .ok s) :
    s.Means w m n fun r c => rowSum p ka (fun t => kb t c) r :=
  means_iff_stands.2 (((means_iff_stands.1 ha).mul (fun _ hf => hf) (means_iff_stands.1 hb) (w.allows_lore _)
    (w.allows_lore _) (w.allows_lore _)).of_eq_ok hs)

end LinearMap

end BlockAdmm
