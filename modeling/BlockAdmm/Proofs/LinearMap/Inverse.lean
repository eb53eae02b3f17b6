/-
  The inverse of a linear map.

  There is a rule for each form: a multiple of the identity and a diagonal map are inverted entry by entry, a
  Kronecker product of square factors factor by factor, and everything else is written out and factored.
  `Inverted l b` says by which of them `b` came about.  Over it goes every induction: the two matrices are
  inverse to each other on both sides (`Inverted.stands`), so one map undoes the other.

  What can be inverted and has a row can also be applied, and so can the inverse (`Inverted.fits_left`,
  `Inverted.fits_right`).  The reason is that a Kronecker product with an entry has no inverse unless its
  factors are square (`square_left`).  Without a row it can have one and still be too large on the way
  (`inverse_hollow`); its inverse has square factors, so all that can be too large in it is a row of a left
  factor (`Buffered`).
-/
import BlockAdmm.Proofs.Dense.Lu
import BlockAdmm.Proofs.LinearMap.Kernel
import BlockAdmm.Proofs.LinearMap.Views
import BlockAdmm.Proofs.Safety.LinearMap

namespace BlockAdmm

open Scalar ExactScalar

variable {R : Type} [ExactScalar R]

/-! ## Inverse matrices -/

/-- The two matrices of `n` rows and columns are inverse to each other. -/
structure AreInverse (n : Nat) (k k' : Nat → Nat → R) : Prop where
  right : ∀ r c, r < n → c < n → rowSum n k (fun t => k' t c) r = if r = c then 1 else 0
  left : ∀ r c, r < n → c < n → rowSum n k' (fun t => k t c) r = if r = c then 1 else 0

namespace AreInverse

variable {n p q : Nat} {k k' ka ka' kb kb' : Nat → Nat → R}

theorem symm (h : AreInverse n k k') : AreInverse n k' k := ⟨h.left, h.right⟩

/-- One matrix takes back what the other did. -/
theorem undo (h : AreInverse n k k') (x : Nat → R) {r : Nat} (hr : r < n) :
    rowSum n k' (rowSum n k x) r = x r := by
  rw [← rowSum_comp, rowSum_diagonal x hr fun c hc => h.left r c hr hc, one_mul]

theorem of_diagonal {d : Nat → R} (hd : ∀ i, i < n → d i ≠ 0) :
    AreInverse n (fun r c => if r = c then d r else 0) fun r c => if r = c then 1 / d r else 0 := by
  constructor
  · intro r c hr hc
    rw [rowSum_diagonal _ hr fun _ _ => rfl, mul_ite, mul_one_div_cancel (hd r hr), mul_zero]
  · intro r c hr hc
    rw [rowSum_diagonal _ hr fun _ _ => rfl, mul_ite, one_div_mul_cancel (hd r hr), mul_zero]

theorem congr {j j' : Nat → Nat → R} (h : AreInverse n k k') (hj : ∀ r c, r < n → c < n → j r c = k r c)
    (hj' : ∀ r c, r < n → c < n → j' r c = k' r c) : AreInverse n j j' := by
  constructor
  · intro r c hr hc
    rw [← h.right r c hr hc]
    exact rowSum_congr (fun t ht => hj r t hr ht) fun t ht => hj' t c ht hc
  · intro r c hr hc
    rw [← h.left r c hr hc]
    exact rowSum_congr (fun t ht => hj' r t hr ht) fun t ht => hj t c ht hc

/-- One side of `kronecker`. -/
theorem rowSum_of_factors (ha : ∀ r c, r < p → c < p → rowSum p ka (fun t => ka' t c) r = if r = c then 1 else 0)
    (hb : ∀ r c, r < q → c < q → rowSum q kb (fun t => kb' t c) r = if r = c then 1 else 0) {r c : Nat}
    (hr : r < p * q) (hc : c < p * q) :
    rowSum (p * q) (fun r c => ka (r / q) (c / q) * kb (r % q) (c % q))
      (fun t => ka' (t / q) (c / q) * kb' (t % q) (c % q)) r = if r = c then 1 else 0 := by
  obtain ⟨hrd, hrm⟩ := div_mod_lt hr
  obtain ⟨hcd, hcm⟩ := div_mod_lt hc
  have hrc : r = c ↔ r / q = c / q ∧ r % q = c % q := by
    rw [← mul_add_eq_iff hrm, Nat.div_add_mod']
  rw [rowSum, LinearMap.rowSum_kronecker, ha _ _ hrd hcd, hb _ _ hrm hcm, if_congr hrc rfl rfl, ite_and, ite_mul,
    one_mul, zero_mul]

/-- The product of the inverses of the factors. -/
theorem kronecker (ha : AreInverse p ka ka') (hb : AreInverse q kb kb') :
    AreInverse (p * q) (fun r c => ka (r / q) (c / q) * kb (r % q) (c % q))
      fun r c => ka' (r / q) (c / q) * kb' (r % q) (c % q) :=
  ⟨fun _ _ => rowSum_of_factors ha.right hb.right, fun _ _ => rowSum_of_factors ha.left hb.left⟩

end AreInverse

section Kernel

variable {n p q r s : Nat} {k k' ka kb : Nat → Nat → R}

/-- A matrix with an inverse takes only zero to zero. -/
theorem AreInverse.not_hasKernel (h : AreInverse n k k') : ¬ HasKernel n n k := by
  rintro ⟨x, ⟨j, hj, hne⟩, hx⟩
  rw [← h.undo x hj, rowSum_congr (fun _ _ => rfl) hx, rowSum_zero] at hne
  exact hne rfl

/-- A Kronecker product with an entry and an inverse has square factors. -/
theorem AreInverse.square_left (h : AreInverse n k k') (hpos : 0 < n) (hm : p * r = n) (hn : q * s = n)
    (hk : ∀ i c, i < n → c < n → k i c = ka (i / r) (c / s) * kb (i % r) (c % s)) : p = q := by
  have hs : 0 < s := Nat.pos_of_mul_pos_left (hn ▸ hpos)
  have hq : 0 < q := Nat.pos_of_mul_pos_right (hn ▸ hpos)
  rcases Nat.lt_trichotomy p q with hpq | hpq | hpq
  · exact absurd ((hasKernel_of_lt ka hpq).of_left hm hn hk hs) h.not_hasKernel
  · exact hpq
  · have hrs : r < s := by
      by_contra hle
      have := Nat.mul_lt_mul_of_lt_of_le hpq (Nat.not_lt.1 hle) (Nat.lt_of_lt_of_le hs (Nat.not_lt.1 hle))
      omega
    exact absurd ((hasKernel_of_lt kb hrs).of_right hm hn hk hq) h.not_hasKernel

end Kernel

/-- What a factorization with all of its pivots inverts. -/
theorem Lu.areInverse {d : Dense R} {f : Lu R} {eps : R} (hsquare : d.m = d.n) (heps : 0 ≤ eps)
    (h : Lu.of? d eps = some f) : f.inverse.size = (d.m, d.m) ∧ AreInverse d.m d.entry f.inverse.entry := by
  have hf : f.Inverts d := Lu.inverts_of_factor hsquare heps (Lu.of?_eq_some_iff.1 h).2
  have hm : f.inverse.m = d.m := hf.n
  have hn : f.inverse.n = d.m := hf.n
  refine ⟨Prod.ext hm hn, fun r c hr hc => ?_, fun r c hr hc => ?_⟩
  · rw [← Dense.entry_identity hr hc, ← hf.product_inverse, Dense.entry_product hr (hn ▸ hc), ← hsquare]
    rfl
  · rw [← Dense.entry_identity hr hc, ← hf.inverse_product, Dense.entry_product (hm ▸ hr) (hsquare ▸ hc), hn]
    rfl

namespace LinearMap

theorem singularBound_nonneg : (0 : R) ≤ singularBound := by
  rw [singularBound, ofScientific_eq_cast]
  exact_mod_cast (by norm_num : (0 : ℚ) ≤ 1e-12)

/-! ## How an inverse comes about -/

/-- `Inverted l b`: the rule for the form of `l` gives `b` as its inverse. -/
inductive Inverted : LinearMap R → LinearMap R → Prop
  /-- a multiple of the identity -/
  | scalar {n : Nat} {alpha : R} {mark : Mark} (h : alpha ≠ 0) :
    Inverted (.scalar n alpha mark) (ofScalar n (1 / alpha))
  /-- a diagonal map -/
  | diagonal {d : Array R} {mark : Mark} (h : ∀ i, i < d.size → Vec.entry d i ≠ 0) :
    Inverted (.diagonal d mark) (ofDiagonal (d.map fun v => 1 / v))
  /-- a Kronecker product of square factors -/
  | kronecker {a a' c c' : LinearMap R} (ha : Inverted a a') (hc : Inverted c c') :
    Inverted (.kronecker a c) (a'.kron c')
  /-- a map that is written out -/
  | dense {l : LinearMap R} {d : Dense R} {f : Lu R} (hsquare : l.m = l.n)
    (hfactors : ∀ a c, l = .kronecker a c → a.m ≠ a.n) (hd : l.toDense = .ok d)
    (hf : Lu.of? d singularBound = some f) : Inverted l (ofDense f.inverse)

variable {g : Lore R} {l b a c : LinearMap R} {n : Nat} {k k' ka kc : Nat → Nat → R}

theorem inverted_of_denseInverse (hsquare : l.m = l.n) (hfactors : ∀ a c, l = .kronecker a c → a.m ≠ a.n)
    (h : inverse.denseInverse l = .ok b) : Inverted l b := by
  obtain ⟨d, hd, h⟩ := bind_eq_ok.1 h
  split at h
  · rename_i f hf
    cases h
    exact .dense hsquare hfactors hd hf
  · cases h

/-- Only a square map has an inverse. -/
theorem square_of_inverse (h : l.inverse = .ok b) : l.m = l.n := by
  by_contra hne
  rw [LinearMap.inverse.eq_def] at h
  dsimp only at h
  rw [if_pos (bne_iff_ne.2 hne)] at h
  cases h

omit [ExactScalar R] in
/-- A square map passes the test. -/
theorem not_bne_of_square (h : l.m = l.n) : ¬ (l.m != l.n) = true := fun hne => bne_iff_ne.1 hne h

theorem inverted_of_inverse (h : l.inverse = .ok b) : Inverted l b := by
  induction l generalizing b with
  | scalar n alpha mark =>
    rw [LinearMap.inverse, if_neg (not_bne_of_square rfl)] at h
    split at h
    · cases h
    · rename_i hne
      cases h
      exact .scalar fun h0 => hne (beq_iff_eq.2 h0)
  | diagonal d mark =>
    rw [LinearMap.inverse, if_neg (not_bne_of_square rfl)] at h
    split at h
    · cases h
    · rename_i hnone
      cases h
      refine .diagonal fun i hi h0 => ?_
      have hne := Array.findIdx?_eq_none_iff.1 hnone d[i] (Array.getElem_mem hi)
      rw [Vec.entry, Array.getD, dif_pos hi] at h0
      rw [beq_eq_false_iff_ne] at hne
      exact hne h0
  | kronecker a c iha ihc =>
    have hsquare := square_of_inverse h
    rw [LinearMap.inverse, if_neg (not_bne_of_square hsquare)] at h
    split at h
    · obtain ⟨a', ha, h⟩ := bind_eq_ok.1 h
      obtain ⟨c', hc, h⟩ := bind_eq_ok.1 h
      cases h
      exact .kronecker (iha ha) (ihc hc)
    · rename_i hne
      refine inverted_of_denseInverse hsquare (fun a' c' heq heq' => ?_) h
      cases heq
      exact hne (beq_iff_eq.2 heq')
  | dense | sparse | opaqueMap =>
    have hsquare := square_of_inverse h
    rw [LinearMap.inverse.eq_def] at h
    dsimp only at h
    rw [if_neg (not_bne_of_square hsquare)] at h
    exact inverted_of_denseInverse hsquare (fun _ _ heq => by cases heq) h

/-! ## What it is -/

theorem Inverted.plain (h : Inverted l b) : b.Plain := by
  induction h with
  | scalar | diagonal | dense => exact trivial
  | kronecker _ _ iha ihc => exact iha.kron ihc

/-- The matrix of an inverse is the inverse of the matrix. -/
theorem Inverted.stands {m : Nat} (h : Inverted l b) (hl : l.Stands g m n k) (hroom : Allows g.faults l.extent)
    (g' : Lore R) : m = n ∧ ∃ k', b.Stands g' n n k' ∧ AreInverse n k k' := by
  induction h generalizing m n k with
  | @scalar n' alpha mark hne =>
    obtain ⟨rfl, rfl⟩ : n' = m ∧ n' = n := Prod.mk.inj hl.size
    refine ⟨rfl, _, stands_ofScalar fun _ _ _ _ => rfl, ?_⟩
    exact (AreInverse.of_diagonal fun _ _ => hne).congr hl.bears fun _ _ _ _ => rfl
  | @diagonal d mark hne =>
    obtain ⟨rfl, rfl⟩ : d.size = m ∧ d.size = n := Prod.mk.inj hl.size
    refine ⟨rfl, _, stands_ofDiagonal Array.size_map fun _ _ _ _ => rfl, ?_⟩
    refine (AreInverse.of_diagonal hne).congr hl.bears fun r c hr _ => ?_
    rw [Vec.entry_map (div_zero 1)]
  | @kronecker a a' c c' _ _ iha ihc =>
    obtain ⟨ka, kc, ha, hc, hac⟩ := hl.bears
    obtain ⟨rfl, rfl⟩ : a.m * c.m = m ∧ a.n * c.n = n := Prod.mk.inj hl.size
    obtain ⟨hasquare, ka', ha', hainv⟩ := iha ha.stands (hroom.mono (extent_left_le a c))
    obtain ⟨hcsquare, kc', hc', hcinv⟩ := ihc hc.stands (hroom.mono (extent_right_le a c))
    rw [hasquare, hcsquare] at hac ⊢
    exact ⟨rfl, _, ha'.kron hc', (hainv.kronecker hcinv).congr hac fun _ _ _ _ => rfl⟩
  | @dense l d f hsquare _ hd hf =>
    obtain ⟨rfl, rfl, he⟩ := (hl.toDense hroom).of_eq_ok hd
    have hmn : d.m = d.n := by rw [← hl.rows, ← hl.cols, hsquare]
    obtain ⟨hsize, hinv⟩ := Lu.areInverse hmn singularBound_nonneg hf
    have hm : f.inverse.m = d.n := hmn ▸ congrArg Prod.fst hsize
    have hn : f.inverse.n = d.n := hmn ▸ congrArg Prod.snd hsize
    rw [hmn] at hinv he
    refine ⟨hmn, _, stands_ofDense hm hn fun _ _ _ _ => rfl, hinv.congr (fun r c hr hc => ?_) fun _ _ _ _ => rfl⟩
    exact (he r c hr hc).symm

theorem Inverted.size_eq (h : Inverted l b) : b.size = l.size ∧ l.m = l.n := by
  induction h with
  | scalar => exact ⟨rfl, rfl⟩
  | diagonal => exact ⟨congrArg₂ Prod.mk Array.size_map Array.size_map, rfl⟩
  | @kronecker a a' c c' _ _ iha ihc =>
    refine ⟨?_, congrArg₂ (· * ·) iha.2 ihc.2⟩
    rw [size_kron, iha.1, ihc.1]
    rfl
  | @dense l d f hsquare _ hd hf =>
    have hdsize := size_of_toDense hd
    have hn : f.n = l.m := (Lu.n_of_of? hf).trans (congrArg Prod.fst hdsize)
    exact ⟨Prod.ext hn (hn.trans hsquare), hsquare⟩

/-! ## Where it can be applied -/

/-- `l.Buffered`: a row of the left factor of any Kronecker product in the map can be put together in a
    buffer. -/
def Buffered : LinearMap R → Prop
  | .kronecker a c => a.n ≤ capacity ∧ a.Buffered ∧ c.Buffered
  | _ => True

omit [ExactScalar R] in
/-- A Kronecker product of square maps fits if they do, so far as they are applied, and the buffer. -/
theorem fits_kronecker (ha : a.m = a.n) (hc : c.m = c.n) (hroom : a.n * c.n ≤ capacity) (hrow : a.n ≤ capacity)
    (hfa : 0 < c.n → a.Fits) (hfc : 0 < a.n → c.Fits) : (LinearMap.kronecker a c).Fits := by
  have hroom' : c.m * a.n ≤ capacity := by rwa [hc, Nat.mul_comm]
  refine ⟨hroom', ?_, by rwa [ha], hrow, ?_⟩
  · exact (Nat.eq_zero_or_pos a.n).imp id hfc
  · exact (Nat.eq_zero_or_pos c.n).imp hc.trans hfa

omit [ExactScalar R] in
theorem kron_eq_or [Mul R] (a c : LinearMap R) :
    (∃ n alpha, a.kron c = .scalar n alpha none) ∨ a.kron c = .kronecker a c := by
  unfold LinearMap.kron
  split
  · exact Or.inl ⟨_, _, rfl⟩
  · exact Or.inr rfl

/-- Where there is room for a vector, an inverse can be applied.  If it has no row, its buffers have to be
    looked at for themselves. -/
theorem Inverted.fits_right (h : Inverted l b) (hroom : l.n ≤ capacity) (hbuffers : l.n = 0 → b.Buffered) :
    b.Fits := by
  induction h with
  | scalar | diagonal => exact trivial
  | @kronecker a a' c c' ha hc iha ihc =>
    rcases kron_eq_or a' c' with ⟨n, alpha, heq⟩ | heq
    · rw [heq]
      trivial
    rw [heq] at hbuffers ⊢
    obtain ⟨hasize, hasquare⟩ := ha.size_eq
    obtain ⟨hcsize, hcsquare⟩ := hc.size_eq
    have hm : a'.m = a.m := congrArg Prod.fst hasize
    have hn : a'.n = a.n := congrArg Prod.snd hasize
    have hm' : c'.m = c.m := congrArg Prod.fst hcsize
    have hn' : c'.n = c.n := congrArg Prod.snd hcsize
    replace hroom : a.n * c.n ≤ capacity := hroom
    have hempty (h : a.n = 0 ∨ c.n = 0) : (LinearMap.kronecker a' c').Buffered :=
      hbuffers (Nat.mul_eq_zero.2 h)
    apply fits_kronecker
    · rw [hm, hn, hasquare]
    · rw [hm', hn', hcsquare]
    · rw [hn, hn']
      exact hroom
    · rcases Nat.eq_zero_or_pos c.n with hzero | hpos
      · exact (hempty (Or.inr hzero)).1
      · rw [hn]
        exact Nat.le_trans (Nat.le_mul_of_pos_right _ hpos) hroom
    · rw [hn']
      exact fun hpos => iha (Nat.le_trans (Nat.le_mul_of_pos_right _ hpos) hroom) fun h =>
        (hempty (Or.inl h)).2.1
    · rw [hn]
      exact fun hpos => ihc (Nat.le_trans (Nat.le_mul_of_pos_left _ hpos) hroom) fun h =>
        (hempty (Or.inr h)).2.2
  | @dense l d f hsquare _ hd hf =>
    have hm : f.n = l.m := (Lu.n_of_of? hf).trans (congrArg Prod.fst (size_of_toDense hd))
    exact Nat.le_trans (Nat.le_of_eq (hm.trans hsquare)) hroom

/-- And so can a map with an inverse, if it has a row. -/
theorem Inverted.fits_left (h : Inverted l b) (hl : l.Bears g k) (hallow : Allows g.faults l.extent)
    (hpos : 0 < l.n) (hroom : l.n ≤ capacity) : l.Fits := by
  induction h generalizing k with
  | scalar | diagonal => exact trivial
  | @kronecker a a' c c' ha hc iha ihc =>
    obtain ⟨ka, kc, hka, hkc, -⟩ := hl
    have hapos : 0 < a.n := Nat.pos_of_mul_pos_right hpos
    have hcpos : 0 < c.n := Nat.pos_of_mul_pos_left hpos
    have haroom : a.n ≤ capacity := Nat.le_trans (Nat.le_mul_of_pos_right _ hcpos) hroom
    have hcroom : c.n ≤ capacity := Nat.le_trans (Nat.le_mul_of_pos_left _ hapos) hroom
    exact fits_kronecker ha.size_eq.2 hc.size_eq.2 hroom haroom
      (fun _ => iha hka (hallow.mono (extent_left_le a c)) hapos haroom)
      fun _ => ihc hkc (hallow.mono (extent_right_le a c)) hcpos hcroom
  | @dense l d f hsquare hfactors hd hf =>
    have hinverted : Inverted l (ofDense f.inverse) := .dense hsquare hfactors hd hf
    cases l with
    | diagonal | scalar | opaqueMap => exact trivial
    | dense | sparse => exact Nat.le_trans (Nat.le_of_eq hsquare) hroom
    | kronecker a c =>
      obtain ⟨-, k', -, hinv⟩ := hinverted.stands hl.stands hallow g
      obtain ⟨ka, kc, -, -, hk⟩ := hl
      have hk' (i t : Nat) (hi : i < (LinearMap.kronecker a c).n) (ht : t < (LinearMap.kronecker a c).n) :=
        hk i t (lt_of_lt_of_eq hi hsquare.symm) ht
      exact absurd (hinv.square_left hpos hsquare rfl hk') (hfactors a c rfl)

/-! ## What it does -/

/-- `l.Applies`: the functions in the map have values, and what is stored when it is applied has room. -/
def Applies (l : LinearMap R) : Prop := (∀ f ∈ l.opaqueParts, f.Returns) ∧ l.Fits

theorem Applies.exists_apply (h : l.Applies) {x : Array R} (hx : x.size = l.n) : ∃ y, l.apply x = .ok y :=
  (okIff_apply h.1 hx).ok h.2

omit [ExactScalar R] in
theorem Plain.applies (h : l.Plain) (hfits : l.Fits) : l.Applies := by
  refine ⟨fun f hf => ?_, hfits⟩
  rw [h.opaqueParts_eq_nil] at hf
  exact absurd hf List.not_mem_nil

/-- A linear map computes the product with its matrix wherever it has a value. -/
theorem Bears.multiplies_unless {c : Prop} (h : l.Bears (Lore.alone False) k) (hc : c → l.Applies) :
    Multiplies (Fault.Unless c) l.apply l.m l.n k := by
  intro x hx
  have hbreach : Multiplies Fault.IsBreach l.apply l.m l.n k :=
    (h.apply (allows_unless False.elim)).mono fun _ hf => hf.1
  exact (hbreach x hx).unless fun hholds => (hc hholds).exists_apply hx

/-- One map takes back what the other did. -/
theorem undoes_of_areInverse {E F : Fault → Prop} {run back : Array R → Outcome (Array R)}
    (hrun : Multiplies E run n n k) (hback : Multiplies F back n n k') (hinv : AreInverse n k k') {x : Array R}
    (hx : x.size = n) :
    Ends E (fun y => y.size = n ∧ Ends F (fun z => z = x) (back y)) (run x) := by
  refine (hrun x hx).imp fun y hy => ⟨hy.1, (hback y hy.1).imp fun z hz => ?_⟩
  refine Vec.ext_entry (hz.1.trans hx.symm) fun r hr => ?_
  rw [hz.1] at hr
  rw [hz.2 r hr, rowSum_congr (fun _ _ => rfl) hy.2, hinv.undo _ hr]

/-- The inverse of a linear map has its size and undoes it on either side.  The map can fail to be applied
    only by a breach, and only if a function in it does, or if it has no row; the inverse can always be, if
    there is room for the vector itself, and if it has no row, for the buffers. -/
theorem inverse_undoes (h : l.Linear) (hb : l.inverse = .ok b) :
    b.size = l.size ∧
      (∀ x, x.size = l.n →
        Ends (Fault.Unless l.Applies) (fun y => y.size = l.n ∧
          Ends (Fault.Unless b.Applies) (fun z => z = x) (b.apply y)) (l.apply x) ∧
        Ends (Fault.Unless b.Applies) (fun y => y.size = l.n ∧
          Ends (Fault.Unless l.Applies) (fun z => z = x) (l.apply y)) (b.apply x)) ∧
      ((∀ f ∈ l.opaqueParts, f.Returns) → 0 < l.n → l.n ≤ capacity → l.Applies) ∧
      (l.n ≤ capacity → (l.n = 0 → b.Buffered) → b.Applies) := by
  have hinverted := inverted_of_inverse hb
  obtain ⟨k, hk⟩ := h.exists_bears (c := False) False.elim
  have hallow : Allows (Lore.alone False : Lore R).faults l.extent := allows_unless False.elim
  obtain ⟨hsquare, k', hk', hinv⟩ := hinverted.stands hk.stands hallow (Lore.alone False)
  have hforth : Multiplies (Fault.Unless l.Applies) l.apply l.n l.n k := by
    have hrun := hk.multiplies_unless (c := l.Applies) id
    rwa [hsquare] at hrun
  have hback : Multiplies (Fault.Unless b.Applies) b.apply l.n l.n k' := by
    have hrun := hk'.bears.multiplies_unless (c := b.Applies) id
    rwa [hk'.rows, hk'.cols] at hrun
  refine ⟨hinverted.size_eq.1, fun x hx => ⟨?_, ?_⟩, fun hreturns hpos hroom => ?_, fun hroom hbuffers => ?_⟩
  · exact undoes_of_areInverse hforth hback hinv hx
  · exact undoes_of_areInverse hback hforth hinv.symm hx
  · exact ⟨hreturns, hinverted.fits_left hk hallow hpos hroom⟩
  · exact hinverted.plain.applies (hinverted.fits_right hroom hbuffers)

/-- A Kronecker product of square maps in a Kronecker product, with a mirror inside. -/
def braced : LinearMap ℚ :=
  .kronecker (.dense Lu.cornered none)
    (.kronecker (.diagonal #[3] none) (.opaqueMap (OpaqueMap.mirror 2)))

theorem inverse_undoes_braced :
    braced.Linear ∧ ∃ b, braced.inverse = .ok b ∧ b.size = (4, 4) ∧
      ∃ y, braced.apply #[1, 2, 3, 4] = .ok y ∧ y = #[24, 18, 48, 33] ∧ b.apply y = .ok #[1, 2, 3, 4] ∧
      ∃ z, b.apply #[1, 2, 3, 4] = .ok z ∧ braced.apply z = .ok #[1, 2, 3, 4] := by
  have hlinear : braced.Linear := Linear.kronecker (Plain.linear trivial)
    (Linear.kronecker (Plain.linear trivial) (linear_opaqueMap (OpaqueMap.mirror_isLinear 2)))
  have hreturns : ∀ f ∈ braced.opaqueParts, f.Returns := by
    intro f hf
    rw [List.mem_singleton.1 hf]
    exact (OpaqueMap.mirror_isLinear 2).returns_apply
  obtain ⟨b, hb⟩ := exists_eq_ok (x := braced.inverse) (by decide +kernel)
  obtain ⟨hsize, hundo, happlies, hback⟩ := inverse_undoes hlinear hb
  have happlies := happlies hreturns (by decide) (by decide)
  have hback := hback (by decide) fun hempty => absurd hempty (by decide)
  obtain ⟨hleft, hright⟩ := hundo #[1, 2, 3, 4] rfl
  obtain ⟨y, hy, -, hby⟩ := hleft.exists_of_unless happlies
  obtain ⟨x, hx, rfl⟩ := hby.exists_of_unless hback
  obtain ⟨z, hz, -, hmz⟩ := hright.exists_of_unless hback
  obtain ⟨x', hx', rfl⟩ := hmz.exists_of_unless happlies
  obtain ⟨v, hv, hvalue⟩ := exists_eq_ok_and (x := braced.apply #[1, 2, 3, 4])
    (p := fun v => v == #[24, 18, 48, 33]) (by decide +kernel)
  cases Except.ok.inj (hy.symm.trans hv)
  exact ⟨hlinear, b, hb, hsize, y, hy, eq_of_beq hvalue, hx, z, hz, hx'⟩

/-- A hollow product has an inverse, which can be applied, while there is no room to apply the product. -/
theorem inverse_hollow :
    hollow.Linear ∧ (#[] : Array ℚ).size = hollow.n ∧
      ∃ b, hollow.inverse = .ok b ∧ hollow.apply #[] = .error .breach := by
  obtain ⟨b, hb⟩ := exists_eq_ok (x := hollow.inverse) (by decide +kernel)
  exact ⟨Plain.linear ⟨trivial, trivial⟩, rfl, b, hb, eq_breach_of_breached (by decide +kernel)⟩

end LinearMap

end BlockAdmm
