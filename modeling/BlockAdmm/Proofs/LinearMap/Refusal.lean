/-
  The refusal of an inverse.

  A multiple of the identity or a diagonal map is refused for a zero, a Kronecker product of square maps for a
  factor, and everything else for a column of its elimination in which no entry is above a bound.  The first
  two are singular if they have a row, and so is a product with a singular factor.  The third need not be:
  with that column cleared it would be (`Lu.nearlySingular_of_none`), so what is refused without being
  singular is close to a matrix that is (`Marginal`).

  One induction over the forms says with what excuse the inverse of a square map can fail
  (`Bears.ends_inverse`).  That a map with an inverse is not singular is known from its construction, so away
  from the bound the same maps have inverses in every form (`inverse_refuses`).
-/
import BlockAdmm.Proofs.LinearMap.Inverse

namespace BlockAdmm

open Scalar ExactScalar

variable {R : Type} [ExactScalar R]

/-! ## Matrices close to singular ones -/

/-- `a.NearlySingular eps`: a change of one column, by no more than `eps` in each entry, makes the matrix
    singular. -/
def Dense.NearlySingular (a : Dense R) (eps : R) : Prop :=
  ∃ (b : Dense R) (c : Nat), b.size = a.size ∧ IsSingular a.m b.entry ∧
    ∀ i j, i < a.m → j < a.n → |a.entry i j - b.entry i j| ≤ if j = c then eps else 0

namespace Lu

variable {a m : Dense R} {k : Nat} {pivots : List Nat} {eps : R}

/-- `cleared k m`: zeros in column `k` from the diagonal on. -/
def cleared (k : Nat) (m : Dense R) : Dense R :=
  Dense.build m.m m.n fun i j => if j = k ∧ k ≤ i then 0 else m.entry i j

/-- `uncleared pivots k m a`: the matrix that comes to the cleared one. -/
def uncleared (pivots : List Nat) (k : Nat) (m a : Dense R) : Dense R :=
  Dense.build a.m a.n fun r j =>
    a.entry r j - if j = k ∧ k ≤ (exchanges pivots 0).symm r then m.entry ((exchanges pivots 0).symm r) k else 0

theorem entry_cleared {i j : Nat} (hi : i < m.m) (hj : j < m.n) :
    (cleared k m).entry i j = if j = k ∧ k ≤ i then 0 else m.entry i j := Dense.entry_build _ hi hj

theorem upper_cleared {i j : Nat} (hi : i < m.m) (hj : j < m.n) :
    upper (cleared k m) k i j = upper m k i j - if j = k ∧ k ≤ i then m.entry i k else 0 := by
  rw [upper, upper, entry_cleared hi hj]
  by_cases h : j = k ∧ k ≤ i
  · obtain ⟨rfl, hki⟩ := h
    have hdiagonal : ¬ (j < j ∧ j < i) := fun hlt => absurd hlt.1 (Nat.lt_irrefl j)
    rw [if_neg hdiagonal, if_neg hdiagonal, if_pos ⟨rfl, hki⟩, if_pos ⟨rfl, hki⟩, sub_self]
  · rw [if_neg h, if_neg h, sub_zero]

/-- What is cleared in the column without a pivot could as well not have been there. -/
theorem Factored.uncleared (h : Factored a k pivots m) (hsquare : a.m = a.n) (hk : k < a.m) :
    Factored (uncleared pivots k m a) k pivots (cleared k m) := by
  have hm := h.rows
  have hn := h.cols
  refine ⟨h.size, h.length, h.inside, fun i hi => ?_, fun i j hi hj => ?_⟩
  · rw [entry_cleared (by omega) (by omega), if_neg (by omega)]
    exact h.pivot i hi
  · have hi : i < a.m := hi
    have hj : j < a.m := hj
    have hrow : exchanges pivots 0 i < a.m :=
      (exchanges_lt_iff h.inside (by rw [h.length]; omega) i).2 hi
    rw [Lu.uncleared, Dense.entry_build _ hrow (by omega), Equiv.symm_apply_apply, h.entries i j hi hj,
      upper_cleared (by omega) (by omega), add_sub_assoc]
    congr 1
    -- the rows above the pivot have nothing to clear
    refine Finset.sum_congr rfl fun t ht => ?_
    have ht := Finset.mem_range.1 ht
    rw [entry_cleared (by omega) (by omega), upper_cleared (by omega) (by omega), if_neg (by omega),
      if_neg (by omega), sub_zero]

/-- A matrix without all of its pivots is close to a singular one. -/
theorem nearlySingular_of_none (hsquare : a.m = a.n) (heps : 0 ≤ eps) (h : of? a eps = none) :
    a.NearlySingular eps := by
  obtain ⟨s, hfactor⟩ := exists_stuck_of_of? hsquare h
  obtain ⟨hk, ⟨pivots, hf⟩, hall⟩ := (factored_start hsquare).of_stuck (by omega) heps hfactor
  refine ⟨Lu.uncleared pivots s.column s.matrix a, s.column, rfl, ?_, fun i j hi hj => ?_⟩
  · refine (hf.uncleared hsquare hk).det_eq_zero hsquare hk fun i hki hi => ?_
    rw [entry_cleared (hf.rows ▸ hi) (hf.cols ▸ hk), if_pos ⟨rfl, hki⟩]
  · rw [Lu.uncleared, Dense.entry_build _ hi hj, sub_sub_cancel]
    by_cases hj : j = s.column
    · rw [if_pos hj]
      split_ifs with hki
      · have hrow : (exchanges pivots 0).symm i < a.m := by
          rw [← exchanges_lt_iff hf.inside (k := 0) (by rw [hf.length]; omega), Equiv.apply_symm_apply]
          exact hi
        rw [← scalarAbs_eq]
        exact hall _ hki.2 hrow
      · rwa [abs_zero]
    · rw [if_neg hj, if_neg fun hki => hj hki.1, abs_zero]

/-- One entry that is not above the bound. -/
theorem of?_one {x : R} (h : |x| ≤ eps) : of? ⟨1, 1, #[x], rfl⟩ eps = none := by
  have hentry : Dense.entry ⟨1, 1, #[x], rfl⟩ (pivotRow ⟨1, 1, #[x], rfl⟩ 0) 0 = x := rfl
  rw [of?, if_pos rfl, factor, go, hentry, scalarAbs_eq, if_pos h]
  rfl

end Lu

namespace LinearMap

variable {l a b : LinearMap R} {k ka kb : Nat → Nat → R}

/-! ## Excuses -/

/-- `l.Marginal`: the matrix of the map is not singular, but as close to a singular one as the bound of the
    elimination. -/
def Marginal (l : LinearMap R) : Prop :=
  ∃ d, l.toDense = .ok d ∧ ¬ IsSingular d.m d.entry ∧ d.NearlySingular singularBound

/-- `l.eliminated`: the maps that are written out for the inverse. -/
def eliminated : LinearMap R → List (LinearMap R)
  | .scalar .. => []
  | .diagonal .. => []
  | .kronecker a b => if a.m = a.n then a.eliminated ++ b.eliminated else [.kronecker a b]
  | .dense a mark => [.dense a mark]
  | .sparse a mark => [.sparse a mark]
  | .opaqueMap f => [.opaqueMap f]

/-- `l.Degenerate`: a zero multiple of the identity, or a Kronecker product, without rows. -/
def Degenerate : LinearMap R → Prop
  | .scalar n alpha _ => n = 0 ∧ alpha = 0
  | .kronecker a b => a.m * b.m = 0
  | _ => False

/-- `l.Excuses k f`: with the matrix `k`, the inverse may fail so.  Either the map cannot be written out, or
    it is singular, or something close to singular was eliminated. -/
def Excuses (l : LinearMap R) (k : Nat → Nat → R) (f : Fault) : Prop :=
  (f = .breach ∧ ∀ d, l.toDense ≠ .ok d) ∨
    ∃ e, f = .failed e ∧ e.kind = .singularOperator ∧
      (IsSingular l.n k ∨ ∃ p ∈ l.eliminated, p.Marginal)

theorem not_degenerate_of_pos (h : 0 < l.m) : ¬ l.Degenerate := by
  cases l with
  | scalar n alpha mark => exact fun hn => h.ne' hn.1
  | kronecker a b => exact h.ne'
  | dense | sparse | diagonal | opaqueMap => exact id

/-- The inverse of a map that is written out. -/
theorem denseInverse_eq {d : Dense R} (hd : l.toDense = .ok d) :
    inverse.denseInverse l = match Lu.of? d singularBound with
      | some f => .ok (ofDense f.inverse)
      | none => .error (.failed (.singularMap l.describe)) := by
  rw [inverse.denseInverse, hd]
  rfl

/-- It fails where there is no factorization. -/
theorem Bears.ends_denseInverse (h : l.Bears (Lore.alone False) k) (hsquare : l.m = l.n)
    (hmem : l ∈ l.eliminated) : Ends (l.Excuses k) (fun _ => True) (inverse.denseInverse l) := by
  have hdense := h.toDense (allows_unless False.elim)
  cases hd : l.toDense with
  | error f =>
    rw [inverse.denseInverse, hd]
    exact Or.inl ⟨(hdense.of_eq_error hd).1, fun d hd' => by rw [hd] at hd'; cases hd'⟩
  | ok d =>
    obtain ⟨hm, hn, he⟩ := hdense.of_eq_ok hd
    rw [denseInverse_eq hd]
    cases hf : Lu.of? d singularBound with
    | some f => exact trivial
    | none =>
      refine Or.inr ⟨_, rfl, rfl, ?_⟩
      have hsame : IsSingular d.m d.entry ↔ IsSingular l.n k := by
        rw [hm, hsquare]
        exact isSingular_congr fun r c hr hc => he r c (hsquare ▸ hr) hc
      by_cases hsingular : IsSingular l.n k
      · exact Or.inl hsingular
      · exact Or.inr ⟨l, hmem, d, hd, fun h => hsingular (hsame.1 h),
          Lu.nearlySingular_of_none (by omega) singularBound_nonneg hf⟩

/-- What excuses a map excuses another one that is written out by way of it, is singular with it and
    eliminates what it does. -/
theorem Excuses.mono {c : LinearMap R} {kc : Nat → Nat → R} {f : Fault} (h : c.Excuses kc f)
    (hdense : ∀ d, l.toDense = .ok d → ∃ d', c.toDense = .ok d')
    (hsingular : IsSingular c.n kc → IsSingular l.n k) (hmem : ∀ p ∈ c.eliminated, p ∈ l.eliminated) :
    l.Excuses k f := by
  rcases h with ⟨hf, hd⟩ | ⟨e, hf, hkind, hc | ⟨p, hp, hmarginal⟩⟩
  · refine Or.inl ⟨hf, fun d hd' => ?_⟩
    obtain ⟨d', hc⟩ := hdense d hd'
    exact hd d' hc
  · exact Or.inr ⟨e, hf, hkind, Or.inl (hsingular hc)⟩
  · exact Or.inr ⟨e, hf, hkind, Or.inr ⟨p, hmem p hp, hmarginal⟩⟩

section Factors

variable (hsquare : a.m = a.n ∧ b.m = b.n) (hpos : 0 < a.n ∧ 0 < b.n)
  (hk : ∀ r c, r < a.m * b.m → c < a.n * b.n → k r c = ka (r / b.m) (c / b.n) * kb (r % b.m) (c % b.n))
include hsquare hpos hk

/-- What excuses a factor excuses the product. -/
theorem Excuses.of_left {f : Fault} (h : a.Excuses ka f) : (kronecker a b).Excuses k f := by
  refine h.mono (fun d hd => ?_) (fun hsingular => ?_) fun p hp => ?_
  · obtain ⟨da, hda, -⟩ := bind_eq_ok.1 hd
    exact ⟨da, hda⟩
  · rw [hsquare.1, hsquare.2] at hk
    exact isSingular_iff.2 ((isSingular_iff.1 hsingular).of_left rfl rfl hk hpos.2)
  · rw [eliminated, if_pos hsquare.1]
    exact List.mem_append_left _ hp

theorem Excuses.of_right {f : Fault} (h : b.Excuses kb f) : (kronecker a b).Excuses k f := by
  refine h.mono (fun d hd => ?_) (fun hsingular => ?_) fun p hp => ?_
  · obtain ⟨_, -, hd⟩ := bind_eq_ok.1 hd
    obtain ⟨db, hdb, -⟩ := bind_eq_ok.1 hd
    exact ⟨db, hdb⟩
  · rw [hsquare.1, hsquare.2] at hk
    exact isSingular_iff.2 ((isSingular_iff.1 hsingular).of_right rfl rfl hk hpos.1)
  · rw [eliminated, if_pos hsquare.1]
    exact List.mem_append_right _ hp

end Factors

/-- The inverse of a square linear map that is not degenerate fails only with an excuse. -/
theorem Bears.ends_inverse (h : l.Bears (Lore.alone False) k) (hsquare : l.m = l.n) (hfull : ¬ l.Degenerate) :
    Ends (l.Excuses k) (fun _ => True) l.inverse := by
  induction l generalizing k with
  | scalar n alpha mark =>
    rw [LinearMap.inverse, if_neg (not_bne_of_square rfl)]
    split
    · rename_i hzero
      have hzero := beq_iff_eq.1 hzero
      have hn : 0 < n := Nat.pos_of_ne_zero fun hn => hfull ⟨hn, hzero⟩
      refine Or.inr ⟨_, rfl, rfl, Or.inl (isSingular_of_column hn fun r hr => ?_)⟩
      rw [h r 0 hr hn, hzero, ite_self]
    · exact trivial
  | diagonal d mark =>
    rw [LinearMap.inverse, if_neg (not_bne_of_square rfl)]
    split
    · rename_i i hi
      obtain ⟨hlt, hzero, -⟩ := Array.findIdx?_eq_some_iff_getElem.1 hi
      refine Or.inr ⟨_, rfl, rfl, Or.inl (isSingular_of_column hlt fun r hr => ?_)⟩
      rw [h r i hr hlt]
      split_ifs with hri
      · subst hri
        rw [Vec.entry, Array.getD, dif_pos hlt]
        exact beq_iff_eq.1 hzero
      · rfl
    · exact trivial
  | kronecker a b iha ihb =>
    obtain ⟨ka, kb, ha, hb, hk⟩ := h
    have hrows : 0 < a.m * b.m := Nat.pos_of_ne_zero hfull
    have hapos : 0 < a.m := Nat.pos_of_mul_pos_right hrows
    have hbpos : 0 < b.m := Nat.pos_of_mul_pos_left hrows
    rw [LinearMap.inverse, if_neg (not_bne_of_square hsquare)]
    split
    · rename_i hleft
      have hleft := beq_iff_eq.1 hleft
      have hright : b.m = b.n := by
        refine Nat.eq_of_mul_eq_mul_left hapos (hsquare.trans ?_)
        rw [hleft]
        rfl
      have hpos : 0 < a.n ∧ 0 < b.n := ⟨hleft ▸ hapos, hright ▸ hbpos⟩
      refine ((iha ha hleft (not_degenerate_of_pos hapos)).mono
        (fun _ hf => hf.of_left ⟨hleft, hright⟩ hpos hk) fun _ h => h).bind fun a' _ => ?_
      refine ((ihb hb hright (not_degenerate_of_pos hbpos)).mono
        (fun _ hf => hf.of_right ⟨hleft, hright⟩ hpos hk) fun _ h => h).bind fun b' _ => ends_ok trivial
    · rename_i hleft
      refine Bears.ends_denseInverse ⟨ka, kb, ha, hb, hk⟩ hsquare ?_
      rw [eliminated, if_neg fun heq => hleft (beq_iff_eq.2 heq)]
      exact List.mem_singleton_self _
  | dense | sparse | opaqueMap =>
    rw [LinearMap.inverse.eq_def]
    dsimp only
    rw [if_neg (not_bne_of_square hsquare)]
    exact h.ends_denseInverse hsquare (List.mem_singleton_self _)

/-! ## What has an inverse -/

/-- A map with an inverse is square and not singular. -/
theorem Bears.not_isSingular (h : l.Bears (Lore.alone False) k) (hb : l.inverse = .ok b) :
    l.m = l.n ∧ ¬ IsSingular l.n k := by
  obtain ⟨hsquare, k', -, hinv⟩ :=
    (inverted_of_inverse hb).stands h.stands (allows_unless False.elim) (Lore.alone False)
  exact ⟨hsquare, fun hsingular => hinv.not_hasKernel (isSingular_iff.1 hsingular)⟩

/-- Where the map can be written out and nothing close to singular is eliminated, just the maps that are not
    singular have an inverse. -/
theorem Bears.exists_inverse_iff {d : Dense R} (h : l.Bears (Lore.alone False) k) (hsquare : l.m = l.n)
    (hfull : ¬ l.Degenerate) (hd : l.toDense = .ok d) (hclear : ∀ p ∈ l.eliminated, ¬ p.Marginal) :
    (∃ b, l.inverse = .ok b) ↔ ¬ IsSingular l.n k := by
  refine ⟨fun ⟨b, hb⟩ => (h.not_isSingular hb).2, fun hsingular => ?_⟩
  have hends := h.ends_inverse hsquare hfull
  cases hb : l.inverse with
  | ok b => exact ⟨b, rfl⟩
  | error f =>
    rcases hends.of_eq_error hb with ⟨-, hd'⟩ | ⟨e, -, -, h0 | ⟨p, hp, hmarginal⟩⟩
    · exact absurd hd (hd' d)
    · exact absurd h0 hsingular
    · exact absurd hmarginal (hclear p hp)

/-- The inverse of a linear map is refused only if the map is not square or singular, or something close to
    singular was eliminated; a degenerate map is left aside.  What has an inverse is square and not singular.
    So where the matrix can be written out and is not too close to singular, a square map has an inverse just
    if its dense matrix has one. -/
theorem inverse_refuses (h : l.Linear) :
    (∃ k, l.Bears (Lore.alone False) k) ∧ ∀ k, l.Bears (Lore.alone False) k →
      (¬ l.Degenerate → ∀ e, l.inverse = .error (.failed e) → e.kind = .singularOperator ∧
        (l.m ≠ l.n ∨ IsSingular l.n k ∨ ∃ p ∈ l.eliminated, p.Marginal)) ∧
      (∀ b, l.inverse = .ok b → l.m = l.n ∧ ¬ IsSingular l.n k) ∧
      (¬ l.Degenerate → l.m = l.n → ¬ l.Marginal → (∀ p ∈ l.eliminated, ¬ p.Marginal) →
        ∀ d, l.toDense = .ok d → ((∃ b, l.inverse = .ok b) ↔ ∃ b, (ofDense d).inverse = .ok b) ∧
          ((∃ b, l.inverse = .ok b) ↔ ¬ IsSingular l.n k)) := by
  refine ⟨h.exists_bears False.elim, fun k hk => ⟨fun hfull e he => ?_, fun b hb => hk.not_isSingular hb,
    fun hfull hsquare hmarginal hclear d hd => ?_⟩⟩
  · by_cases hsquare : l.m = l.n
    · rcases (hk.ends_inverse hsquare hfull).of_eq_error he with ⟨hf, -⟩ | ⟨e', hf, hkind, hexcuse⟩
      · cases hf
      · cases hf
        exact ⟨hkind, Or.inr hexcuse⟩
    · rw [LinearMap.inverse.eq_def] at he
      dsimp only at he
      rw [if_pos (bne_iff_ne.2 hsquare)] at he
      cases he
      exact ⟨rfl, Or.inl hsquare⟩
  · have hiff := hk.exists_inverse_iff hsquare hfull hd hclear
    obtain ⟨hm, hn, he⟩ := (hk.toDense (allows_unless False.elim)).of_eq_ok hd
    have hdense : (∃ b, (ofDense d).inverse = .ok b) ↔ ¬ IsSingular d.n d.entry := by
      refine Bears.exists_inverse_iff (d := d) (fun _ _ _ _ => rfl) (hm.trans (hsquare.trans hn.symm)) id rfl ?_
      rintro p hp ⟨d', hd', hfar⟩
      rw [List.mem_singleton.1 hp] at hd'
      cases hd'
      exact hmarginal ⟨d, hd, hfar⟩
    have hsame : IsSingular d.n d.entry ↔ IsSingular l.n k := by
      rw [hn]
      exact isSingular_congr fun r c hr hc => he r c (hsquare ▸ hr) hc
    exact ⟨by rw [hiff, hdense, hsame], hiff⟩

/-! ## Below the bound -/

theorem inverse_scalar {n : Nat} {alpha : R} {mark : Mark} (h : alpha ≠ 0) :
    (scalar n alpha mark).inverse = .ok (ofScalar n (1 / alpha)) := by
  rw [LinearMap.inverse, if_neg (not_bne_of_square rfl)]
  exact if_neg fun h0 => h (beq_iff_eq.1 h0)

/-- A map with one entry, below the bound of the elimination. -/
def faint : LinearMap ℚ := .dense ⟨1, 1, #[1e-13], rfl⟩ none

theorem bears_faint : faint.Bears (Lore.alone False) fun _ _ => 1e-13 := by
  intro r c hr hc
  obtain rfl : r = 0 := Nat.lt_one_iff.1 hr
  obtain rfl : c = 0 := Nat.lt_one_iff.1 hc
  rfl

theorem inverse_faint : faint.inverse = .error (.failed (.singularMap faint.describe)) := by
  have hbelow : |(1e-13 : ℚ)| ≤ singularBound := by
    rw [singularBound, abs_of_nonneg (by norm_num)]
    norm_num
  refine (denseInverse_eq (l := faint) rfl).trans ?_
  rw [Lu.of?_one hbelow]

/-- A product that is refused for a factor, though it is not singular. -/
theorem inverse_refuses_faint :
    (kronecker (.scalar 1 2 none) faint).Linear ∧
      ∃ p ∈ (kronecker (.scalar 1 2 none) faint).eliminated, p.Marginal := by
  have hlinear : (kronecker (.scalar 1 2 none) faint).Linear := Plain.linear ⟨trivial, trivial⟩
  have hbears : (kronecker (.scalar 1 2 none) faint).Bears (Lore.alone False)
      fun r c => (if r / 1 = c / 1 then 2 else 0) * 1e-13 :=
    ⟨fun r c => if r = c then 2 else 0, fun _ _ => 1e-13, fun _ _ _ _ => rfl, bears_faint, fun _ _ _ _ => rfl⟩
  have hrefused : (kronecker (.scalar 1 2 none) faint).inverse
      = .error (.failed (.singularMap faint.describe)) := by
    show (scalar 1 (2 : ℚ) none).inverse >>= (fun a => faint.inverse >>= fun b => pure (a.kron b)) = _
    rw [inverse_scalar two_ne_zero, inverse_faint]
    rfl
  obtain ⟨-, hall⟩ := inverse_refuses hlinear
  obtain ⟨-, hexcuse⟩ := (hall _ hbears).1 (not_degenerate_of_pos Nat.one_pos) _ hrefused
  refine ⟨hlinear, (hexcuse.resolve_left fun hne => hne rfl).resolve_left fun hsingular => ?_⟩
  exact absurd (isSingular_one_iff.1 hsingular) (by norm_num)

/-- A map that is square, not singular, and refused; a multiple of the identity with the same matrix has an
    inverse. -/
theorem faint_refused :
    faint.Linear ∧ faint.m = faint.n ∧ faint.Bears (Lore.alone False) (fun _ _ => 1e-13) ∧
      ¬ IsSingular faint.n (fun _ _ => (1e-13 : ℚ)) ∧
      (∃ e, faint.inverse = .error (.failed e) ∧ e.kind = .singularOperator) ∧
      ∃ l : LinearMap ℚ, l.toDense = faint.toDense ∧ ∃ b, l.inverse = .ok b := by
  have hne : (1e-13 : ℚ) ≠ 0 := by norm_num
  refine ⟨Plain.linear trivial, rfl, bears_faint, fun h => hne (isSingular_one_iff.1 h), ⟨_, inverse_faint, rfl⟩,
    ofScalar 1 1e-13, congrArg Except.ok (Dense.ext_entry rfl rfl fun r c hr hc => ?_), _, inverse_scalar hne⟩
  obtain rfl : r = 0 := Nat.lt_one_iff.1 hr
  obtain rfl : c = 0 := Nat.lt_one_iff.1 hc
  rw [Dense.entry_scale, Dense.entry_identity Nat.one_pos Nat.one_pos, if_pos rfl, mul_one]
  rfl

end LinearMap

end BlockAdmm
