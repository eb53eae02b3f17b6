/-
  Diagonals and multiples of the identity are told apart from other maps.

  Only a map without functions shows a diagonal, and every factor of a product that shows one is square, so
  such a map can be applied wherever its columns can be stored (`fits_of_diagonal?`).  Hence it multiplies
  entry by entry (`ends_apply_of_diagonal?`).  Conversely a map without functions that is a multiple of the
  identity other than zero is found to be one, in whatever form it is stored (`Means.ends_scalar?`).

  The one thing that can stand in the way is a product with so many columns that its diagonal cannot be
  written out (`scalar?_oversized`).
-/
import BlockAdmm.Proofs.LinearMap.Diagonal
import BlockAdmm.Proofs.Block.Coefs

namespace BlockAdmm.LinearMap

open Scalar ExactScalar

variable {R : Type} [ExactScalar R] {l a b : LinearMap R} {d x : Array R} {n : Nat} {alpha : R}

/-! ## Maps that show a diagonal -/

/-- The diagonal of a product is made from the diagonals of its factors, which are stored. -/
theorem diagonal?_factors (h : (LinearMap.kronecker a b).diagonal? = .ok (some d)) :
    ∃ da db, a.diagonal? = .ok (some da) ∧ b.diagonal? = .ok (some db) ∧ da.size ≤ capacity := by
  have hsquare := square_of_diagonal? h
  rw [LinearMap.diagonal?, if_neg (by rw [bne_iff_ne, not_not]; exact hsquare)] at h
  obtain ⟨oa, hoa, h⟩ := bind_eq_ok.1 h
  cases oa with
  | none => cases h
  | some da =>
    obtain ⟨ob, hob, h⟩ := bind_eq_ok.1 h
    cases ob with
    | none => cases h
    | some db =>
      obtain ⟨_, hd, -⟩ := bind_eq_ok.1 h
      exact ⟨da, db, hoa, hob, (tensorDiagonal_eq_ok.1 hd).1⟩

/-- A function shows no diagonal. -/
theorem plain_of_diagonal? (h : l.diagonal? = .ok (some d)) : l.Plain := by
  induction l generalizing d with
  | dense | sparse | diagonal | scalar => trivial
  | kronecker a b iha ihb =>
    obtain ⟨da, db, ha, hb, -⟩ := diagonal?_factors h
    exact ⟨iha ha, ihb hb⟩
  | opaqueMap f =>
    rw [LinearMap.diagonal?] at h
    split at h <;> cases h

theorem plain_of_scalar? (h : l.scalar? = .ok (some alpha)) : l.Plain := by
  rcases scalar?_eq_some h with ⟨n, mark, rfl⟩ | ⟨d, hd, -⟩
  · trivial
  · exact plain_of_diagonal? hd

/-- What is known of functions does not matter to a map without them. -/
theorem Plain.denotes_of_bears {g : Lore R} {k : Nat → Nat → R} (hplain : l.Plain) (h : l.Bears g k)
    (w : Marks R) : l.Denotes w k := by
  induction l generalizing k with
  | dense | sparse | diagonal | scalar => exact h
  | kronecker a b iha ihb =>
    obtain ⟨ka, kb, ha, hb, hab⟩ := h
    exact ⟨ka, kb, iha hplain.1 ha, ihb hplain.2 hb, hab⟩
  | opaqueMap f => exact absurd hplain id

/-- Whether a product shows a diagonal can be told if the diagonals can be stored. -/
theorem exists_diagonal?_kronecker {oa ob : Option (Array R)} (ha : a.diagonal? = .ok oa)
    (hb : b.diagonal? = .ok ob) (hra : a.n ≤ capacity) (hrb : b.n ≤ capacity) (hrab : a.n * b.n ≤ capacity) :
    ∃ o, (LinearMap.kronecker a b).diagonal? = .ok o := by
  rw [LinearMap.diagonal?]
  split
  · exact ⟨_, rfl⟩
  · cases oa with
    | none => exact ⟨none, bind_eq_ok.2 ⟨none, ha, rfl⟩⟩
    | some da =>
      cases ob with
      | none => exact ⟨none, bind_eq_ok.2 ⟨some da, ha, bind_eq_ok.2 ⟨none, hb, rfl⟩⟩⟩
      | some db =>
        obtain ⟨-, hda⟩ := (ends_diagonal? (E := fun _ => True) a).of_eq_ok ha da rfl
        obtain ⟨-, hdb⟩ := (ends_diagonal? (E := fun _ => True) b).of_eq_ok hb db rfl
        rw [← hda] at hra hrab
        rw [← hdb] at hrb hrab
        have hd := tensorDiagonal_eq_ok.2 ⟨hra, hrb, hrab, rfl⟩
        exact ⟨_, bind_eq_ok.2 ⟨some da, ha, bind_eq_ok.2 ⟨some db, hb, bind_eq_ok.2 ⟨_, hd, rfl⟩⟩⟩⟩

/-- Whether a map shows a diagonal can be told if its extent can be stored. -/
theorem exists_diagonal? (l : LinearMap R) (hroom : l.extent ≤ capacity) : ∃ o, l.diagonal? = .ok o := by
  induction l with
  | kronecker a b iha ihb =>
    have hra := Nat.le_trans (extent_left_le a b) hroom
    have hrb := Nat.le_trans (extent_right_le a b) hroom
    obtain ⟨oa, hoa⟩ := iha hra
    obtain ⟨ob, hob⟩ := ihb hrb
    exact exists_diagonal?_kronecker hoa hob (Nat.le_trans (Nat.le_of_lt a.cols_lt_extent) hra)
      (Nat.le_trans (Nat.le_of_lt b.cols_lt_extent) hrb)
      (Nat.le_trans (Nat.le_of_lt (LinearMap.kronecker a b).cols_lt_extent) hroom)
  | dense | sparse | diagonal | opaqueMap =>
    rw [LinearMap.diagonal?]
    split <;> exact ⟨_, rfl⟩
  | scalar n alpha mark =>
    rw [LinearMap.diagonal?]
    split
    · exact ⟨_, rfl⟩
    · have hrows := rows_lt_extent (LinearMap.scalar n alpha mark)
      exact ⟨_, bind_eq_ok.2 ⟨(), room_of_le (Nat.le_trans (Nat.le_of_succ_le hrows) hroom), rfl⟩⟩

theorem exists_scalar?_of_diagonal? (h : ∃ o, l.diagonal? = .ok o) : ∃ o, l.scalar? = .ok o := by
  obtain ⟨o, ho⟩ := h
  have hread : ∃ o, (do return (← l.diagonal?).bind uniform? : Outcome (Option R)) = .ok o :=
    ⟨o.bind uniform?, bind_eq_ok.2 ⟨o, ho, rfl⟩⟩
  cases l with
  | scalar n beta _ => exact ⟨some beta, rfl⟩
  | dense | sparse | diagonal | kronecker | opaqueMap => exact hread

theorem exists_scalar? (l : LinearMap R) (hroom : l.extent ≤ capacity) : ∃ o, l.scalar? = .ok o :=
  exists_scalar?_of_diagonal? (exists_diagonal? l hroom)

/-- The diagonal that a map shows is that of the matrix for which it stands. -/
theorem Bears.diagonal? {g : Lore R} {k : Nat → Nat → R} (h : l.Bears g k)
    (hd : l.diagonal? = .ok (some d)) : l.m = l.n ∧ d.size = l.n ∧
      ∀ r c, r < l.n → c < l.n → k r c = if r = c then Vec.entry d r else 0 :=
  ((plain_of_diagonal? hd).denotes_of_bears h BlockMatrix.noMarks).means.diagonal? hd

theorem Bears.scalar? {g : Lore R} {k : Nat → Nat → R} (h : l.Bears g k)
    (hs : l.scalar? = .ok (some alpha)) :
    l.m = l.n ∧ ∀ r c, r < l.n → c < l.n → k r c = if r = c then alpha else 0 :=
  ((plain_of_scalar? hs).denotes_of_bears h BlockMatrix.noMarks).means.scalar? hs

/-- A map that shows a diagonal can be applied if its columns can be stored. -/
theorem fits_of_diagonal? (h : l.diagonal? = .ok (some d)) (hroom : l.n ≤ capacity) : l.Fits := by
  induction l generalizing d with
  | dense a _ => exact Nat.le_trans (Nat.le_of_eq (square_of_diagonal? h)) hroom
  | sparse a _ => exact Nat.le_trans (Nat.le_of_eq (square_of_diagonal? h)) hroom
  | diagonal | scalar | opaqueMap => trivial
  | kronecker a b iha ihb =>
    obtain ⟨da, db, ha, hb, hda⟩ := diagonal?_factors h
    rw [((ends_diagonal? (E := fun _ => True) a).of_eq_ok ha da rfl).2] at hda
    have hroom : a.n * b.n ≤ capacity := hroom
    have hasquare := square_of_diagonal? ha
    have hbsquare := square_of_diagonal? hb
    have hboth : b.m * a.n ≤ capacity := by rwa [hbsquare, Nat.mul_comm]
    -- a factor of a product that is not empty is no larger than the product
    refine ⟨hboth, ?_, hasquare ▸ hboth, hda, ?_⟩
    · rcases Nat.eq_zero_or_pos a.n with hzero | hpos
      · exact Or.inl hzero
      · exact Or.inr (ihb hb (Nat.le_trans (Nat.le_mul_of_pos_left _ hpos) hroom))
    · rcases Nat.eq_zero_or_pos b.m with hzero | hpos
      · exact Or.inl hzero
      · exact Or.inr (iha ha (Nat.le_trans (Nat.le_mul_of_pos_right _ (hbsquare ▸ hpos)) hroom))

/-- A map that shows a diagonal multiplies entry by entry. -/
theorem ends_apply_of_diagonal? (h : l.diagonal? = .ok (some d)) (hx : x.size = l.n) :
    Ends (Fault.Unless (l.n ≤ capacity))
      (fun y => y.size = l.n ∧ ∀ i, i < l.n → Vec.entry y i = Vec.entry d i * Vec.entry x i)
      (l.apply x) := by
  have hplain := plain_of_diagonal? h
  have hmeans := (hplain.denotes BlockMatrix.noMarks).means
  obtain ⟨hsquare, -, hcoef⟩ := hmeans.diagonal? h
  refine (hplain.apply hx).ends (fits_of_diagonal? h) fun y hy => ?_
  obtain ⟨hsize, hentry⟩ := hmeans.apply x y hx hy
  rw [hsquare] at hsize hentry
  refine ⟨hsize, fun i hi => (hentry i hi).trans ?_⟩
  exact rowSum_diagonal _ hi fun c hc => hcoef i c hi hc

/-- A map that shows a scalar multiplies by it. -/
theorem ends_apply_of_scalar? (h : l.scalar? = .ok (some alpha)) (hx : x.size = l.n) :
    Ends (Fault.Unless (l.n ≤ capacity)) (fun y => y = Vec.scale alpha x) (l.apply x) := by
  rcases scalar?_eq_some h with ⟨n, mark, rfl⟩ | ⟨d, hd, huniform⟩
  · exact (ends_promise (beq_iff_eq.2 hx)).bind fun _ _ => ends_ok rfl
  · obtain ⟨-, hsize⟩ := (ends_diagonal? (E := fun _ => True) l).of_eq_ok hd d rfl
    refine (ends_apply_of_diagonal? hd hx).imp fun y hy => ?_
    refine Vec.ext_entry (by rw [hy.1, Vec.size_scale, hx]) fun i hi => ?_
    rw [hy.1] at hi
    rw [hy.2 i hi, Vec.entry_scale, entry_of_uniform? huniform (hsize.symm ▸ hi)]

/-! ## Multiples of the identity -/

/-- A diagonal without zeros is found, unless it is that of a product and cannot be written out. -/
theorem Means.returns_diagonal? {w : Marks R} {k : Nat → Nat → R} (hplain : l.Plain) (h : l.Means w n n k)
    (hpos : 0 < n) (hk : IsDiagonal n k) (hroom : n ≤ capacity) : ∃ o, l.diagonal? = .ok o := by
  induction l generalizing n k with
  | kronecker a b iha ihb =>
    obtain ⟨ka, kb, ha, hb, hab⟩ := h.denotes
    obtain ⟨hm, hn⟩ : a.m * b.m = n ∧ a.n * b.n = n := Prod.mk.inj h.size
    obtain ⟨hasquare, hbsquare, hka, hkb⟩ :=
      hk.factors hpos hm hn fun i c hi hc => hab i c (hm ▸ hi) (hn ▸ hc)
    have hapos : 0 < a.m := Nat.pos_of_mul_pos_right (hm ▸ hpos)
    have hbpos : 0 < b.m := Nat.pos_of_mul_pos_left (hm ▸ hpos)
    have haroom : a.m ≤ capacity := Nat.le_trans (Nat.le_mul_of_pos_right _ hbpos) (hm.trans_le hroom)
    have hbroom : b.m ≤ capacity := Nat.le_trans (Nat.le_mul_of_pos_left _ hapos) (hm.trans_le hroom)
    obtain ⟨oa, hoa⟩ := iha hplain.1 ⟨Prod.ext rfl hasquare.symm, ha⟩ hapos hka haroom
    obtain ⟨ob, hob⟩ := ihb hplain.2 ⟨Prod.ext rfl hbsquare.symm, hb⟩ hbpos hkb hbroom
    exact exists_diagonal?_kronecker hoa hob (hasquare ▸ haroom) (hbsquare ▸ hbroom) (hn.trans_le hroom)
  | dense | sparse | diagonal =>
    rw [LinearMap.diagonal?]
    split <;> exact ⟨_, rfl⟩
  | scalar n' beta _ =>
    obtain ⟨rfl, -⟩ : n' = n ∧ n' = n := Prod.mk.inj h.size
    rw [LinearMap.diagonal?, h.rows, h.cols, if_neg (by simp)]
    exact ⟨_, bind_eq_ok.2 ⟨(), room_of_le hroom, rfl⟩⟩
  | opaqueMap f => exact absurd hplain id

/-- A multiple of the identity other than zero is found. -/
theorem Means.ends_scalar? {w : Marks R} {k : Nat → Nat → R} (hplain : l.Plain) (h : l.Means w n n k)
    (hpos : 0 < n) (hk : ∀ r c, r < n → c < n → k r c = if r = c then alpha else 0) (halpha : alpha ≠ 0) :
    Ends (Fault.Unless (l.form = .kronecker → n ≤ capacity)) (fun o => o = some alpha) l.scalar? := by
  have hends : Ends Fault.IsBreach (fun o => o = some alpha) l.scalar? :=
    ((LinearMap.ends_scalar? l).and_eq fun o ho => h.scalar?_eq hplain hpos hk halpha ho).imp
      fun o ho => ho.2
  refine hends.unless fun hroom => ?_
  cases l with
  | scalar n beta _ => exact ⟨_, rfl⟩
  | dense | sparse | diagonal =>
    refine exists_scalar?_of_diagonal? ?_
    rw [LinearMap.diagonal?]
    split <;> exact ⟨_, rfl⟩
  | kronecker a b =>
    have hdiagonal : IsDiagonal n k := by
      refine ⟨fun r c hr hc hrc => ?_, fun r hr => ?_⟩
      · rw [hk r c hr hc, if_neg hrc]
      · rw [hk r r hr hr, if_pos rfl]
        exact halpha
    exact exists_scalar?_of_diagonal? (h.returns_diagonal? hplain hpos hdiagonal (hroom rfl))
  | opaqueMap f => exact absurd hplain id

/-- What is detected is right, and what is to be detected is.  A map that shows a diagonal multiplies entry
    by entry, and one that shows a scalar multiplies by it; the product can be stored if the vector can.  A
    map without functions that is a multiple of the identity other than zero shows the scalar, whatever
    its form, unless it is a Kronecker product with more columns than can be stored. -/
theorem detection_sound_complete (l : LinearMap R) :
    (∀ d, l.diagonal? = .ok (some d) → l.m = l.n ∧ d.size = l.n ∧ ∀ x, x.size = l.n →
      Ends (Fault.Unless (l.n ≤ capacity))
        (fun y => y.size = l.n ∧ ∀ i, i < l.n → Vec.entry y i = Vec.entry d i * Vec.entry x i) (l.apply x)) ∧
    (∀ alpha, l.scalar? = .ok (some alpha) → l.m = l.n ∧ ∀ x, x.size = l.n →
      Ends (Fault.Unless (l.n ≤ capacity)) (fun y => y = Vec.scale alpha x) (l.apply x)) ∧
    (l.Plain → l.m = l.n → 0 < l.n → ∀ alpha, alpha ≠ 0 →
      (∀ r c, r < l.n → c < l.n → l.coef r c = if r = c then alpha else 0) →
      Ends (Fault.Unless (l.form = .kronecker → l.n ≤ capacity)) (fun o => o = some alpha) l.scalar?) := by
  refine ⟨fun d hd => ?_, fun alpha halpha => ?_, fun hplain hsquare hpos alpha hne hcoef => ?_⟩
  · obtain ⟨hsquare, hsize⟩ := (ends_diagonal? (E := fun _ => True) l).of_eq_ok hd d rfl
    exact ⟨hsquare, hsize, fun x hx => ends_apply_of_diagonal? hd hx⟩
  · have hsquare := (LinearMap.ends_scalar? (E := fun _ => True) l).of_eq_ok halpha rfl
    exact ⟨hsquare, fun x hx => ends_apply_of_scalar? halpha hx⟩
  · have hmeans : l.Means BlockMatrix.noMarks l.n l.n l.coef :=
      ⟨Prod.ext hsquare rfl, hplain.denotes _⟩
    exact hmeans.ends_scalar? hplain hpos hcoef hne

/-- Twice the identity, as a product of a diagonal, a dense matrix with a stored zero beside the diagonal and
    a sparse one. -/
def doubled : LinearMap ℚ :=
  .kronecker (.diagonal #[1, 1] none)
    (.kronecker (.dense ⟨2, 2, #[4, 0, 0, 4], rfl⟩ none)
      (.sparse ⟨1, 1, [⟨0, 0, 1 / 2⟩], by decide, by decide⟩ none))

/-- The scalar is found, and the map multiplies by it. -/
theorem detection_sound_complete_doubled :
    doubled.Plain ∧ doubled.m = doubled.n ∧ 0 < doubled.n ∧ (2 : ℚ) ≠ 0 ∧
      (∀ r c, r < doubled.n → c < doubled.n → doubled.coef r c = if r = c then 2 else 0) ∧
      doubled.scalar? = .ok (some 2) ∧ doubled.apply #[1, 2, 3, 4] = .ok #[2, 4, 6, 8] := by
  have hcoef : ∀ r c, r < doubled.n → c < doubled.n → doubled.coef r c = if r = c then 2 else 0 := by
    have hall : ∀ r < 4, ∀ c < 4, doubled.coef r c = if r = c then 2 else 0 := by decide +kernel
    exact fun r c hr hc => hall r hr c hc
  obtain ⟨-, hscalar, hdetect⟩ := detection_sound_complete doubled
  have hends := hdetect ⟨trivial, trivial, trivial⟩ rfl (by decide) 2 two_ne_zero hcoef
  obtain ⟨o, ho, rfl⟩ := hends.exists_of_unless fun _ => by decide
  obtain ⟨-, happly⟩ := hscalar 2 ho
  obtain ⟨y, hy, hvalue⟩ := (happly #[1, 2, 3, 4] rfl).exists_of_unless (by decide)
  rw [hvalue] at hy
  refine ⟨⟨trivial, trivial, trivial⟩, rfl, by decide, two_ne_zero, hcoef, ho, hy.trans ?_⟩
  exact congrArg Except.ok (eq_of_beq (by decide +kernel))

/-- The identity as a product with a matrix of one entry, which keeps it from being stored as a scalar. -/
def oversized : LinearMap ℚ :=
  .kronecker (.scalar 2305843009213693952 1 none) (.dense (Dense.build 1 1 fun _ _ => 1) none)

/-- The diagonal of the product would have to be written out, and there is no room for it. -/
theorem scalar?_oversized :
    oversized.Plain ∧ oversized.m = oversized.n ∧ 0 < oversized.n ∧
      (∀ r c, r < oversized.n → c < oversized.n → oversized.coef r c = if r = c then 1 else 0) ∧
      oversized.scalar? = .error .breach := by
  refine ⟨⟨trivial, trivial⟩, rfl, by decide, fun r c _ _ => ?_, eq_breach_of_breached (by decide +kernel)⟩
  show (if r / 1 = c / 1 then (1 : ℚ) else 0) * (Dense.build 1 1 fun _ _ => (1 : ℚ)).entry (r % 1) (c % 1)
    = if r = c then 1 else 0
  rw [Nat.div_one, Nat.div_one, Nat.mod_one, Nat.mod_one]
  exact mul_one _

end BlockAdmm.LinearMap
