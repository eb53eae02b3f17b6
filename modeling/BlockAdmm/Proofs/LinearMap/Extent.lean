/-
  How much room a linear map takes.

  The views of a map store vectors and matrices of its size, and those of a Kronecker product store more,
  for the factors can have entries where the product has none.  `l.extent` is a bound for all of them that
  is read off the sizes of the factors.  A transpose or a multiple has no larger extent than the map, nor
  has a sum than the larger of its operands, and a product has at most the product of the extents.

  A sparse matrix is made of triplets, which take the place of three entries each: `l.tripletExtent` is a
  bound for those on the way to the sparse matrix of a map.  Three times the extent is enough
  (`tripletExtent_le`).  Where two maps are multiplied the extents of both together are enough for the
  triplets of either, for the inner indices count twice in them; only if there is none, three times
  as much can be needed (`productRoom`).
-/
import BlockAdmm.Proofs.Safety.Matrix
import BlockAdmm.LinearMap.Algebra

namespace BlockAdmm

open Scalar

namespace LinearMap

variable {R : Type} {a b l s t : LinearMap R}

/-- `l.extent`: rows and columns, each with one more, multiplied over the factors of the map. -/
def extent : LinearMap R → Nat
  -- not from the size of the product, which can be empty while a factor is large
  | .kronecker a b => a.extent * b.extent
  | l => (l.m + 1) * (l.n + 1)

theorem extent_pos (l : LinearMap R) : 0 < l.extent := by
  induction l with
  | kronecker a b iha ihb => exact Nat.mul_pos iha ihb
  | dense | sparse | diagonal | scalar | opaqueMap => exact Nat.mul_pos (Nat.succ_pos _) (Nat.succ_pos _)

theorem extent_left_le (a b : LinearMap R) : a.extent ≤ (kronecker a b).extent :=
  Nat.le_mul_of_pos_right _ b.extent_pos

theorem extent_right_le (a b : LinearMap R) : b.extent ≤ (kronecker a b).extent :=
  Nat.le_mul_of_pos_left _ a.extent_pos

/-- `l.tripletExtent`: the most that the triplets take that are listed for the map, or for a factor in it. -/
def tripletExtent : LinearMap R → Nat
  | .dense a _ => 3 * (a.m * a.n)
  -- the triplets of the right factor are listed even if the left one has no entry
  | .kronecker a b => max (max a.tripletExtent b.tripletExtent) (3 * ((a.m * a.n + 1) * (b.m * b.n)))
  | .opaqueMap f => 3 * (f.m * f.n)
  | _ => 0

theorem tripletExtent_left_le (a b : LinearMap R) : a.tripletExtent ≤ (kronecker a b).tripletExtent :=
  Nat.le_trans (Nat.le_max_left ..) (Nat.le_max_left ..)

theorem tripletExtent_right_le (a b : LinearMap R) : b.tripletExtent ≤ (kronecker a b).tripletExtent :=
  Nat.le_trans (Nat.le_max_right ..) (Nat.le_max_left ..)

theorem triplets_le_tripletExtent (a b : LinearMap R) :
    3 * ((a.m * a.n + 1) * (b.m * b.n)) ≤ (kronecker a b).tripletExtent :=
  Nat.le_max_right ..

/-! ## Bounds by the extent -/

theorem succ_mul_succ_le (m n p q : Nat) :
    (m * p + 1) * (n * q + 1) ≤ (m + 1) * (n + 1) * ((p + 1) * (q + 1)) := by
  have hm : m * p + 1 ≤ (m + 1) * (p + 1) := by rw [Nat.add_mul, Nat.mul_add]; omega
  have hn : n * q + 1 ≤ (n + 1) * (q + 1) := by rw [Nat.add_mul, Nat.mul_add]; omega
  calc (m * p + 1) * (n * q + 1) ≤ (m + 1) * (p + 1) * ((n + 1) * (q + 1)) := Nat.mul_le_mul hm hn
    _ = (m + 1) * (n + 1) * ((p + 1) * (q + 1)) := Nat.mul_mul_mul_comm ..

theorem size_le_extent (l : LinearMap R) : (l.m + 1) * (l.n + 1) ≤ l.extent := by
  induction l with
  | kronecker a b iha ihb =>
    exact Nat.le_trans (succ_mul_succ_le a.m a.n b.m b.n) (Nat.mul_le_mul iha ihb)
  | dense | sparse | diagonal | scalar | opaqueMap => exact Nat.le_refl _

theorem rows_lt_extent (l : LinearMap R) : l.m + 1 ≤ l.extent :=
  Nat.le_trans (Nat.le_mul_of_pos_right _ (Nat.succ_pos _)) l.size_le_extent

theorem cols_lt_extent (l : LinearMap R) : l.n + 1 ≤ l.extent :=
  Nat.le_trans (Nat.le_mul_of_pos_left _ (Nat.succ_pos _)) l.size_le_extent

theorem entries_lt_extent (l : LinearMap R) : l.m * l.n + 1 ≤ l.extent := by
  refine Nat.le_trans ?_ l.size_le_extent
  rw [Nat.add_mul, Nat.mul_add]
  omega

theorem entries_le_extent (l : LinearMap R) : l.m * l.n ≤ l.extent := Nat.le_of_lt l.entries_lt_extent

theorem extent_le_three (l : LinearMap R) : l.extent ≤ 3 * l.extent := Nat.le_mul_of_pos_left _ (by decide)

theorem tripletExtent_le (l : LinearMap R) : l.tripletExtent ≤ 3 * l.extent := by
  induction l with
  | kronecker a b iha ihb =>
    have hboth : (a.m * a.n + 1) * (b.m * b.n) ≤ (kronecker a b).extent :=
      Nat.mul_le_mul a.entries_lt_extent b.entries_le_extent
    refine Nat.max_le.2 ⟨Nat.max_le.2 ⟨?_, ?_⟩, Nat.mul_le_mul_left 3 hboth⟩
    · exact Nat.le_trans iha (Nat.mul_le_mul_left 3 (extent_left_le a b))
    · exact Nat.le_trans ihb (Nat.mul_le_mul_left 3 (extent_right_le a b))
  | dense a mark => exact Nat.mul_le_mul_left 3 (LinearMap.dense a mark).entries_le_extent
  | opaqueMap f => exact Nat.mul_le_mul_left 3 (LinearMap.opaqueMap f).entries_le_extent
  | sparse | diagonal | scalar => exact Nat.zero_le _

theorem three_mul_le (n : Nat) : 3 * n ≤ (n + 1) * (n + 1) := by
  have hsquare := Nat.le_mul_self n
  rw [Nat.add_mul, Nat.mul_add]
  omega

/-- Entries over few rows or columns: what is left of the factor three is one more of those. -/
theorem three_mul_entries_le {p : Nat} (h : l.n ≤ p ∨ l.m ≤ p) :
    3 * (l.m * l.n) ≤ (p + 1) * ((l.m + 1) * (l.n + 1)) := by
  rcases h with h | h
  · calc 3 * (l.m * l.n) = l.m * (3 * l.n) := Nat.mul_left_comm ..
      _ ≤ (l.m + 1) * ((l.n + 1) * (l.n + 1)) := Nat.mul_le_mul (Nat.le_succ _) (three_mul_le l.n)
      _ = (l.n + 1) * ((l.m + 1) * (l.n + 1)) := Nat.mul_left_comm ..
      _ ≤ (p + 1) * ((l.m + 1) * (l.n + 1)) := Nat.mul_le_mul_right _ (Nat.succ_le_succ h)
  · calc 3 * (l.m * l.n) = 3 * l.m * l.n := (Nat.mul_assoc ..).symm
      _ ≤ (l.m + 1) * (l.m + 1) * (l.n + 1) := Nat.mul_le_mul (three_mul_le l.m) (Nat.le_succ _)
      _ = (l.m + 1) * ((l.m + 1) * (l.n + 1)) := Nat.mul_assoc ..
      _ ≤ (p + 1) * ((l.m + 1) * (l.n + 1)) := Nat.mul_le_mul_right _ (Nat.succ_le_succ h)

theorem factors_le {m n p : Nat} (h : 0 < m * n) (hp : m * n ≤ p) : (0 < m ∧ m ≤ p) ∧ (0 < n ∧ n ≤ p) := by
  have hm : 0 < m := Nat.pos_of_mul_pos_right h
  have hn : 0 < n := Nat.pos_of_mul_pos_left h
  exact ⟨⟨hm, Nat.le_trans (Nat.le_mul_of_pos_right _ hn) hp⟩, hn, Nat.le_trans (Nat.le_mul_of_pos_left _ hm) hp⟩

/-- A map that has rows, or columns, and at most `p` of them: so has every factor. -/
theorem tripletExtent_le_of_inner {p : Nat} (h : (0 < l.n ∧ l.n ≤ p) ∨ (0 < l.m ∧ l.m ≤ p)) :
    l.tripletExtent ≤ (p + 1) * l.extent := by
  induction l with
  | kronecker a b iha ihb =>
    have hfactors : ((0 < a.n ∧ a.n ≤ p) ∨ (0 < a.m ∧ a.m ≤ p)) ∧ ((0 < b.n ∧ b.n ≤ p) ∨ (0 < b.m ∧ b.m ≤ p)) :=
      h.elim (fun h => (factors_le h.1 h.2).imp Or.inl Or.inl) fun h =>
        (factors_le h.1 h.2).imp Or.inr Or.inr
    obtain ⟨ha, hb⟩ := hfactors
    have hright : 3 * (b.m * b.n) ≤ (p + 1) * b.extent :=
      Nat.le_trans (three_mul_entries_le (hb.imp And.right And.right))
        (Nat.mul_le_mul_left _ b.size_le_extent)
    refine Nat.max_le.2 ⟨Nat.max_le.2 ⟨?_, ?_⟩, ?_⟩
    · exact Nat.le_trans (iha ha) (Nat.mul_le_mul_left _ (extent_left_le a b))
    · exact Nat.le_trans (ihb hb) (Nat.mul_le_mul_left _ (extent_right_le a b))
    · calc 3 * ((a.m * a.n + 1) * (b.m * b.n)) = (a.m * a.n + 1) * (3 * (b.m * b.n)) := Nat.mul_left_comm ..
        _ ≤ a.extent * ((p + 1) * b.extent) := Nat.mul_le_mul a.entries_lt_extent hright
        _ = (p + 1) * (a.extent * b.extent) := Nat.mul_left_comm ..
  | dense a mark => exact three_mul_entries_le (l := .dense a mark) (h.imp And.right And.right)
  | opaqueMap f => exact three_mul_entries_le (l := .opaqueMap f) (h.imp And.right And.right)
  | sparse | diagonal | scalar => exact Nat.zero_le _

/-! ## Extents of results -/

theorem extent_kron_le [Mul R] (a b : LinearMap R) : (a.kron b).extent ≤ a.extent * b.extent := by
  unfold kron
  split
  · rename_i p _ _ r _ _
    exact succ_mul_succ_le p p r r
  · exact Nat.le_refl _

variable [Scalar R]

theorem size_of_toDense {d : Dense R} (h : l.toDense = .ok d) : d.size = l.size := by
  induction l generalizing d with
  | dense a _ => cases h; rfl
  | kronecker a b iha ihb =>
    obtain ⟨da, hda, h⟩ := bind_eq_ok.1 h
    obtain ⟨db, hdb, h⟩ := bind_eq_ok.1 h
    obtain ⟨_, -, h⟩ := bind_eq_ok.1 h
    cases pure_eq_ok.1 h
    exact congrArg₂ (fun s t : Size => (s.1 * t.1, s.2 * t.2)) (iha hda) (ihb hdb)
  | opaqueMap f =>
    obtain ⟨_, -, h⟩ := bind_eq_ok.1 h
    obtain ⟨_, -, h⟩ := bind_eq_ok.1 h
    obtain ⟨_, -, h⟩ := bind_eq_ok.1 h
    cases pure_eq_ok.1 h
    rfl
  | sparse | diagonal | scalar =>
    obtain ⟨_, -, h⟩ := bind_eq_ok.1 h
    cases pure_eq_ok.1 h
    rfl

theorem size_of_toSparse {d : Sparse R} (h : l.toSparse = .ok d) : d.size = l.size := by
  induction l generalizing d with
  | sparse => cases h; rfl
  | dense => cases Sparse.eq_of_extract h; rfl
  | diagonal => cases Sparse.eq_of_scatter h; rfl
  | scalar =>
    cases Sparse.eq_of_scatter h
    exact congrArg₂ Prod.mk (Vec.size_build ..) (Vec.size_build ..)
  | kronecker a b iha ihb =>
    obtain ⟨sa, hsa, h⟩ := bind_eq_ok.1 h
    obtain ⟨sb, hsb, h⟩ := bind_eq_ok.1 h
    cases Sparse.eq_of_tensor h
    exact congrArg₂ (fun s t : Size => (s.1 * t.1, s.2 * t.2)) (iha hsa) (ihb hsb)
  | opaqueMap f =>
    obtain ⟨e, he, h⟩ := bind_eq_ok.1 h
    cases Sparse.eq_of_extract h
    exact size_of_toDense (l := .opaqueMap f) he

theorem extent_transpose_le (h : l.transpose = .ok t) : t.extent ≤ l.extent := by
  induction l generalizing t with
  | dense a _ =>
    cases h
    exact Nat.le_of_eq (Nat.mul_comm ..)
  | sparse a _ =>
    obtain ⟨e, he, h⟩ := bind_eq_ok.1 h
    obtain ⟨_, -, he⟩ := bind_eq_ok.1 he
    cases pure_eq_ok.1 h
    cases pure_eq_ok.1 he
    exact Nat.le_of_eq (Nat.mul_comm ..)
  | diagonal | scalar =>
    cases h
    exact Nat.le_refl _
  | kronecker a b iha ihb =>
    obtain ⟨ta, hta, h⟩ := bind_eq_ok.1 h
    obtain ⟨tb, htb, h⟩ := bind_eq_ok.1 h
    cases pure_eq_ok.1 h
    exact Nat.le_trans (extent_kron_le ta tb) (Nat.mul_le_mul (iha hta) (ihb htb))
  | opaqueMap f =>
    obtain ⟨m, n, forward, backward, name⟩ := f
    cases backward with
    | some t' =>
      cases h
      exact Nat.le_of_eq (Nat.mul_comm ..)
    | none =>
      obtain ⟨d, hd, h⟩ := bind_eq_ok.1 h
      cases pure_eq_ok.1 h
      obtain ⟨rfl, rfl⟩ : d.m = m ∧ d.n = n := Prod.mk.inj (size_of_toDense (l := .opaqueMap _) hd)
      exact Nat.le_of_eq (Nat.mul_comm ..)

theorem extent_scaleBy_le (alpha : R) (l : LinearMap R) : (l.scaleBy alpha).extent ≤ l.extent := by
  induction l with
  | dense | sparse | scalar | opaqueMap =>
    rw [scaleBy]
    split <;> exact Nat.le_refl _
  | diagonal d _ =>
    rw [scaleBy]
    split
    · exact Nat.le_refl _
    · refine Nat.le_of_eq (congrArg (fun n => (n + 1) * (n + 1)) ?_)
      exact Vec.size_scale alpha d
  | kronecker a b iha _ =>
    rw [scaleBy]
    split
    · exact Nat.le_refl _
    · exact Nat.le_trans (extent_kron_le ..) (Nat.mul_le_mul_right _ iha)

/-! ## Sums -/

theorem size_eq_of_equal (h : equal a b = true) : a.size = b.size := by
  rw [equal, Bool.and_eq_true] at h
  exact eq_of_beq h.1

/-- Equal maps have the same factors up to their entries. -/
theorem extent_eq_of_equalParts (h : equalParts a b = true) (hs : a.size = b.size) :
    a.extent = b.extent := by
  induction a generalizing b with
  | kronecker a₁ a₂ ih₁ ih₂ =>
    cases b with
    | kronecker b₁ b₂ =>
      rw [equalParts, Bool.and_eq_true, Bool.and_eq_true, Bool.and_eq_true, beq_iff_eq,
        beq_iff_eq] at h
      obtain ⟨⟨⟨hs₁, h₁⟩, hs₂⟩, h₂⟩ := h
      exact congrArg₂ (· * ·) (ih₁ h₁ hs₁) (ih₂ h₂ hs₂)
    | _ => cases h
  | dense | sparse | diagonal | scalar | opaqueMap =>
    cases b with
    | kronecker => cases h
    | _ => exact congrArg (fun s : Size => (s.1 + 1) * (s.2 + 1)) hs

theorem extent_eq_of_equal (h : equal a b = true) : a.extent = b.extent := by
  have hs := size_eq_of_equal h
  rw [equal, Bool.and_eq_true] at h
  exact extent_eq_of_equalParts h.2 hs

omit [Scalar R] in
theorem extent_ofDense_le {d : Dense R} (h : d.size = l.size) : (ofDense d).extent ≤ l.extent :=
  Nat.le_trans (Nat.le_of_eq (congrArg (fun s : Size => (s.1 + 1) * (s.2 + 1)) h)) l.size_le_extent

omit [Scalar R] in
theorem extent_ofSparse_le {d : Sparse R} (h : d.size = l.size) : (ofSparse d).extent ≤ l.extent :=
  Nat.le_trans (Nat.le_of_eq (congrArg (fun s : Size => (s.1 + 1) * (s.2 + 1)) h)) l.size_le_extent

omit [Scalar R] in
theorem extent_ofDiagonal_le (f : Nat → R) (h : l.m = l.n) :
    (ofDiagonal (Vec.build l.n f)).extent ≤ l.extent := by
  refine Nat.le_trans (Nat.le_of_eq ?_) l.size_le_extent
  show ((Vec.build l.n f).size + 1) * ((Vec.build l.n f).size + 1) = _
  rw [Vec.size_build, h]

theorem extent_opaqueSum_le (h : opaqueSum a b = .ok s) : s.extent ≤ a.extent := by
  obtain ⟨_, -, h⟩ := bind_eq_ok.1 h
  obtain ⟨_, -, h⟩ := bind_eq_ok.1 h
  cases pure_eq_ok.1 h
  exact a.size_le_extent

theorem extent_denseSum_le (h : denseSum a b = .ok s) : s.extent ≤ a.extent := by
  obtain ⟨da, hda, h⟩ := bind_eq_ok.1 h
  obtain ⟨_, -, h⟩ := bind_eq_ok.1 h
  obtain ⟨d, hd, h⟩ := bind_eq_ok.1 h
  obtain ⟨_, -, hd⟩ := bind_eq_ok.1 hd
  cases pure_eq_ok.1 h
  cases pure_eq_ok.1 hd
  exact extent_ofDense_le (size_of_toDense hda :)

theorem extent_sparseSum_le (h : sparseSum a b = .ok s) : s.extent ≤ a.extent := by
  obtain ⟨sa, hsa, h⟩ := bind_eq_ok.1 h
  obtain ⟨sb, -, h⟩ := bind_eq_ok.1 h
  obtain ⟨d, hd, h⟩ := bind_eq_ok.1 h
  cases pure_eq_ok.1 h
  cases Sparse.eq_of_merge hd
  exact extent_ofSparse_le (size_of_toSparse hsa :)

/-- One level of a sum, given the sums of the factors of Kronecker products. -/
theorem extent_add_le_of_factors
    (hf : ∀ a₁ a₂ b₁ b₂, a = .kronecker a₁ a₂ → b = .kronecker b₁ b₂ →
      (∀ s, a₁.add b₁ = .ok s → s.extent ≤ max a₁.extent b₁.extent) ∧
      ∀ s, a₂.add b₂ = .ok s → s.extent ≤ max a₂.extent b₂.extent)
    (hs : a.add b = .ok s) : s.extent ≤ max a.extent b.extent := by
  have hleft (h : s.extent ≤ a.extent) : s.extent ≤ max a.extent b.extent :=
    Nat.le_trans h (Nat.le_max_left ..)
  rw [LinearMap.add.eq_def, bind_eq_ok] at hs
  obtain ⟨_, -, hs⟩ := hs
  split at hs
  · cases pure_eq_ok.1 hs
    exact hleft (Nat.le_refl _)
  · split at hs
    · cases pure_eq_ok.1 hs
      exact hleft (Nat.le_refl _)
    · exact hleft (extent_opaqueSum_le hs)
    · exact hleft (extent_opaqueSum_le hs)
    · cases pure_eq_ok.1 hs
      exact hleft (extent_ofDiagonal_le _ rfl)
    · cases pure_eq_ok.1 hs
      exact hleft (extent_ofDiagonal_le _ rfl)
    · cases pure_eq_ok.1 hs
      exact hleft (extent_ofDiagonal_le _ rfl)
    · rename_i a₁ a₂ b₁ b₂ _
      obtain ⟨h₁, h₂⟩ := hf a₁ a₂ b₁ b₂ rfl rfl
      split at hs
      · -- the left factors are equal, so they have one extent
        rename_i heq
        obtain ⟨s₂, hs₂, hs⟩ := bind_eq_ok.1 hs
        cases pure_eq_ok.1 hs
        calc (a₁.kron s₂).extent ≤ a₁.extent * s₂.extent := extent_kron_le ..
          _ ≤ a₁.extent * max a₂.extent b₂.extent := Nat.mul_le_mul_left _ (h₂ s₂ hs₂)
          _ = max (a₁.extent * a₂.extent) (b₁.extent * b₂.extent) := by
            rw [← extent_eq_of_equal heq, Nat.mul_max_mul_left]
      · split at hs
        · rename_i heq
          obtain ⟨s₁, hs₁, hs⟩ := bind_eq_ok.1 hs
          cases pure_eq_ok.1 hs
          calc (s₁.kron a₂).extent ≤ s₁.extent * a₂.extent := extent_kron_le ..
            _ ≤ max a₁.extent b₁.extent * a₂.extent := Nat.mul_le_mul_right _ (h₁ s₁ hs₁)
            _ = max (a₁.extent * a₂.extent) (b₁.extent * b₂.extent) := by
              rw [← extent_eq_of_equal heq, Nat.mul_max_mul_right]
        · exact hleft (extent_sparseSum_le hs)
    · exact hleft (extent_denseSum_le hs)
    · exact hleft (extent_denseSum_le hs)
    · exact hleft (extent_sparseSum_le hs)

theorem extent_add_le (hs : a.add b = .ok s) : s.extent ≤ max a.extent b.extent := by
  induction a generalizing b s with
  | kronecker a₁ a₂ ih₁ ih₂ =>
    refine extent_add_le_of_factors (fun a₁' a₂' b₁ b₂ h _ => ?_) hs
    cases h
    exact ⟨fun s hs => ih₁ hs, fun s hs => ih₂ hs⟩
  | dense | sparse | diagonal | scalar | opaqueMap =>
    exact extent_add_le_of_factors (fun _ _ _ _ h => by cases h) hs

/-! ## Products -/

omit [Scalar R] in
/-- `productRoom p a b`: the room for a product over `p` inner indices. -/
def productRoom (p : Nat) (a b : LinearMap R) : Nat :=
  if p = 0 then 3 * (a.extent * b.extent) else a.extent * b.extent

omit [Scalar R] in
theorem extents_le_productRoom (p : Nat) (a b : LinearMap R) : a.extent * b.extent ≤ productRoom p a b := by
  unfold productRoom
  split
  · exact Nat.le_mul_of_pos_left _ (by decide)
  · exact Nat.le_refl _

omit [Scalar R] in
theorem productRoom_le_three (p : Nat) (a b : LinearMap R) : productRoom p a b ≤ 3 * (a.extent * b.extent) := by
  unfold productRoom
  split
  · exact Nat.le_refl _
  · exact Nat.le_mul_of_pos_left _ (by decide)

omit [Scalar R] in
/-- A product of Kronecker products has room for the products of larger factors. -/
theorem productRoom_mono {p q : Nat} {a' b' : LinearMap R} (h : p = 0 → q = 0) (ha : a'.extent ≤ a.extent)
    (hb : b'.extent ≤ b.extent) : productRoom p a' b' ≤ productRoom q a b := by
  have hle : a'.extent * b'.extent ≤ a.extent * b.extent := Nat.mul_le_mul ha hb
  by_cases hp : p = 0
  · rw [productRoom, productRoom, if_pos hp, if_pos (h hp)]
    exact Nat.mul_le_mul_left 3 hle
  · rw [productRoom, if_neg hp]
    exact Nat.le_trans hle (extents_le_productRoom q a b)

omit [Scalar R] in
theorem productRoom_left_le (a₁ a₂ b₁ b₂ : LinearMap R) :
    productRoom a₁.n a₁ b₁ ≤ productRoom (kronecker a₁ a₂).n (.kronecker a₁ a₂) (.kronecker b₁ b₂) :=
  productRoom_mono (fun h => show a₁.n * a₂.n = 0 by rw [h, Nat.zero_mul]) (extent_left_le ..)
    (extent_left_le ..)

omit [Scalar R] in
theorem productRoom_right_le (a₁ a₂ b₁ b₂ : LinearMap R) :
    productRoom a₂.n a₂ b₂ ≤ productRoom (kronecker a₁ a₂).n (.kronecker a₁ a₂) (.kronecker b₁ b₂) :=
  productRoom_mono (fun h => show a₁.n * a₂.n = 0 by rw [h, Nat.mul_zero]) (extent_right_le ..)
    (extent_right_le ..)

omit [Scalar R] in
theorem tripletExtent_le_productRoom (h : a.n = b.m) :
    a.tripletExtent ≤ productRoom a.n a b ∧ b.tripletExtent ≤ productRoom a.n a b := by
  rcases Nat.eq_zero_or_pos a.n with hzero | hpos
  · rw [productRoom, if_pos hzero]
    exact ⟨Nat.le_trans a.tripletExtent_le (Nat.mul_le_mul_left 3 (extent_left_le a b)),
      Nat.le_trans b.tripletExtent_le (Nat.mul_le_mul_left 3 (extent_right_le a b))⟩
  · have hleft : a.tripletExtent ≤ (b.m + 1) * a.extent :=
      tripletExtent_le_of_inner (Or.inl ⟨hpos, Nat.le_of_eq h⟩)
    have hright : b.tripletExtent ≤ (a.n + 1) * b.extent :=
      tripletExtent_le_of_inner (Or.inr ⟨h ▸ hpos, Nat.le_of_eq h.symm⟩)
    have hroom := extents_le_productRoom a.n a b
    refine ⟨Nat.le_trans hleft (Nat.le_trans ?_ hroom), Nat.le_trans hright (Nat.le_trans ?_ hroom)⟩
    · rw [Nat.mul_comm]
      exact Nat.mul_le_mul_left _ b.rows_lt_extent
    · exact Nat.mul_le_mul_right _ a.cols_lt_extent

omit [Scalar R] in
/-- What has the rows of one map and the columns of another takes no more than the product of the extents,
    even if it is counted for every pair of inner indices. -/
theorem size_product_le {m n : Nat} (hm : m = a.m) (hn : n = b.n) (h : a.n = b.m) :
    (a.n + 1) * (a.n + 1) * ((m + 1) * (n + 1)) ≤ a.extent * b.extent := by
  subst hm hn
  calc (a.n + 1) * (a.n + 1) * ((a.m + 1) * (b.n + 1))
    _ = (a.n + 1) * (a.m + 1) * ((a.n + 1) * (b.n + 1)) := Nat.mul_mul_mul_comm ..
    _ = (a.m + 1) * (a.n + 1) * ((b.m + 1) * (b.n + 1)) := by rw [h, Nat.mul_comm (b.m + 1) (a.m + 1)]
    _ ≤ a.extent * b.extent := Nat.mul_le_mul a.size_le_extent b.size_le_extent

omit [Scalar R] in
/-- The columns of the first matrix, and the products of entries that meet. -/
theorem products_le_productRoom (h : a.n = b.m) :
    3 * a.n ≤ productRoom a.n a b ∧ 3 * (b.m * b.n * a.m) ≤ productRoom a.n a b := by
  have hsize := Nat.le_trans (size_product_le rfl rfl h) (extents_le_productRoom a.n a b)
  have hinner := three_mul_le a.n
  constructor
  · exact Nat.le_trans (Nat.le_trans hinner (Nat.le_mul_of_pos_right _ (Nat.mul_pos (Nat.succ_pos _)
      (Nat.succ_pos _)))) hsize
  · calc 3 * (b.m * b.n * a.m) = 3 * a.n * (a.m * b.n) := by
          rw [← h, Nat.mul_assoc, Nat.mul_assoc, Nat.mul_comm b.n a.m]
      _ ≤ (a.n + 1) * (a.n + 1) * ((a.m + 1) * (b.n + 1)) :=
          Nat.mul_le_mul hinner (Nat.mul_le_mul (Nat.le_succ _) (Nat.le_succ _))
      _ ≤ productRoom a.n a b := hsize

theorem extent_opaqueProduct_le (hs : opaqueProduct a b = .ok s) (h : a.n = b.m) :
    (a.n + 1) * (a.n + 1) * s.extent ≤ a.extent * b.extent := by
  obtain ⟨_, -, hs⟩ := bind_eq_ok.1 hs
  obtain ⟨_, -, hs⟩ := bind_eq_ok.1 hs
  cases pure_eq_ok.1 hs
  exact size_product_le rfl rfl h

theorem extent_denseProduct_le (hs : denseProduct a b = .ok s) (h : a.n = b.m) :
    (a.n + 1) * (a.n + 1) * s.extent ≤ a.extent * b.extent := by
  obtain ⟨da, hda, hs⟩ := bind_eq_ok.1 hs
  obtain ⟨db, hdb, hs⟩ := bind_eq_ok.1 hs
  obtain ⟨d, hd, hs⟩ := bind_eq_ok.1 hs
  obtain ⟨_, -, hd⟩ := bind_eq_ok.1 hd
  obtain ⟨_, -, hd⟩ := bind_eq_ok.1 hd
  cases pure_eq_ok.1 hs
  cases pure_eq_ok.1 hd
  have hm : da.m = a.m := congrArg Prod.fst (size_of_toDense hda)
  have hn : db.n = b.n := congrArg Prod.snd (size_of_toDense hdb)
  exact size_product_le hm hn h

theorem extent_sparseProduct_le (hs : sparseProduct a b = .ok s) (h : a.n = b.m) :
    (a.n + 1) * (a.n + 1) * s.extent ≤ a.extent * b.extent := by
  obtain ⟨sa, hsa, hs⟩ := bind_eq_ok.1 hs
  obtain ⟨sb, hsb, hs⟩ := bind_eq_ok.1 hs
  obtain ⟨d, hd, hs⟩ := bind_eq_ok.1 hs
  cases pure_eq_ok.1 hs
  cases Sparse.eq_of_compose hd
  have hm : sa.m = a.m := congrArg Prod.fst (size_of_toSparse hsa)
  have hn : sb.n = b.n := congrArg Prod.snd (size_of_toSparse hsb)
  exact size_product_le hm hn h

/-- One level of a product, given the products of the factors of Kronecker products. -/
theorem extent_mul_le_of_factors
    (hf : ∀ a₁ a₂ b₁ b₂, a = .kronecker a₁ a₂ → b = .kronecker b₁ b₂ →
      (∀ s, a₁.mul b₁ = .ok s → (a₁.n + 1) * (a₁.n + 1) * s.extent ≤ a₁.extent * b₁.extent) ∧
      ∀ s, a₂.mul b₂ = .ok s → (a₂.n + 1) * (a₂.n + 1) * s.extent ≤ a₂.extent * b₂.extent)
    (hs : a.mul b = .ok s) : (a.n + 1) * (a.n + 1) * s.extent ≤ a.extent * b.extent := by
  rw [LinearMap.mul.eq_def, bind_eq_ok] at hs
  obtain ⟨_, hfit, hs⟩ := hs
  replace hfit : a.n = b.m := beq_iff_eq.1 (promise_eq_ok.1 hfit)
  split at hs
  · cases pure_eq_ok.1 hs
    exact Nat.mul_le_mul_left _ (extent_scaleBy_le ..)
  · cases pure_eq_ok.1 hs
    rw [Nat.mul_comm, hfit]
    exact Nat.mul_le_mul_right _ (extent_scaleBy_le ..)
  · exact extent_opaqueProduct_le hs hfit
  · exact extent_opaqueProduct_le hs hfit
  · cases pure_eq_ok.1 hs
    rename_i x _ y _
    replace hfit : x.size = y.size := hfit
    refine Nat.mul_le_mul_left _ ?_
    rw [hfit]
    exact extent_ofDiagonal_le (l := .diagonal y none) _ rfl
  · rename_i a₁ a₂ b₁ b₂
    obtain ⟨h₁, h₂⟩ := hf a₁ a₂ b₁ b₂ rfl rfl
    split at hs
    · obtain ⟨s₁, hs₁, hs⟩ := bind_eq_ok.1 hs
      obtain ⟨s₂, hs₂, hs⟩ := bind_eq_ok.1 hs
      cases pure_eq_ok.1 hs
      calc (a₁.n * a₂.n + 1) * (a₁.n * a₂.n + 1) * (s₁.kron s₂).extent
        _ ≤ (a₁.n + 1) * (a₁.n + 1) * ((a₂.n + 1) * (a₂.n + 1)) * (s₁.extent * s₂.extent) :=
          Nat.mul_le_mul (succ_mul_succ_le ..) (extent_kron_le ..)
        _ = (a₁.n + 1) * (a₁.n + 1) * s₁.extent * ((a₂.n + 1) * (a₂.n + 1) * s₂.extent) :=
          Nat.mul_mul_mul_comm ..
        _ ≤ a₁.extent * b₁.extent * (a₂.extent * b₂.extent) := Nat.mul_le_mul (h₁ s₁ hs₁) (h₂ s₂ hs₂)
        _ = a₁.extent * a₂.extent * (b₁.extent * b₂.extent) := Nat.mul_mul_mul_comm ..
    · exact extent_sparseProduct_le hs hfit
  · exact extent_denseProduct_le hs hfit
  · exact extent_denseProduct_le hs hfit
  · exact extent_sparseProduct_le hs hfit

/-- Every inner index counts in both extents, and in none of the product. -/
theorem extent_mul_le (hs : a.mul b = .ok s) : (a.n + 1) * (a.n + 1) * s.extent ≤ a.extent * b.extent := by
  induction a generalizing b s with
  | kronecker a₁ a₂ ih₁ ih₂ =>
    refine extent_mul_le_of_factors (fun a₁' a₂' b₁ b₂ h _ => ?_) hs
    cases h
    exact ⟨fun s hs => ih₁ hs, fun s hs => ih₂ hs⟩
  | dense | sparse | diagonal | scalar | opaqueMap =>
    exact extent_mul_le_of_factors (fun _ _ _ _ h => by cases h) hs

theorem three_mul_extent_mul_le (hs : a.mul b = .ok s) : 3 * s.extent ≤ productRoom a.n a b := by
  have hle := extent_mul_le hs
  rcases Nat.eq_zero_or_pos a.n with hzero | hpos
  · rw [productRoom, if_pos hzero]
    rw [hzero, Nat.zero_add, Nat.one_mul] at hle
    exact Nat.mul_le_mul_left 3 hle
  · have hfour : 2 * 2 ≤ (a.n + 1) * (a.n + 1) := Nat.mul_le_mul (by omega) (by omega)
    exact Nat.le_trans (Nat.le_trans (Nat.mul_le_mul_right _ (by omega)) hle) (extents_le_productRoom ..)

end LinearMap

end BlockAdmm
