/-
  A diagonal that is read off the form of a map is its diagonal, and there is nothing beside it.

  Both tests are sound and need not find anything: an opaque map may be a multiple of the identity and
  not be recognized.
-/
import BlockAdmm.Proofs.LinearMap.Algebra
import BlockAdmm.LinearMap.Structure

namespace BlockAdmm.LinearMap

open Scalar ExactScalar

variable {R : Type} [ExactScalar R]

variable {w : Marks R} {l : LinearMap R} {m n : Nat} {k : Nat → Nat → R}

theorem entry_of_offDiagonalZero {a : Dense R} (h : offDiagonalZero a = true) {r c : Nat}
    (hr : r < a.m) (hc : c < a.n) (hne : r ≠ c) : a.entry r c = 0 := by
  rw [offDiagonalZero, List.all_eq_true] at h
  have h := List.all_eq_true.1 (h c (List.mem_range.2 hc)) r (List.mem_range.2 hr)
  rw [Bool.or_eq_true, beq_iff_eq, beq_iff_eq] at h
  exact h.resolve_left hne

omit [ExactScalar R] in
theorem size_kronDiagonal [Scalar R] (da db : Array R) :
    (kronDiagonal da db).size = da.size * db.size := Vec.size_build ..

omit [ExactScalar R] in
theorem tensorDiagonal_eq_ok [Scalar R] {da db d : Array R} :
    tensorDiagonal da db = .ok d ↔
      da.size ≤ capacity ∧ db.size ≤ capacity ∧ da.size * db.size ≤ capacity ∧ kronDiagonal da db = d := by
  simp only [tensorDiagonal, bind_eq_ok, room_eq_ok, pure_eq_ok, exists_const]

omit [ExactScalar R] in
theorem square_of_diagonal? [Scalar R] {d : Array R} (h : l.diagonal? = .ok (some d)) :
    l.m = l.n := by
  by_contra hne
  rw [LinearMap.diagonal?.eq_def, if_pos (bne_iff_ne.2 hne)] at h
  cases h

/-- The diagonal that a form shows is the diagonal of the map. -/
theorem Means.diagonal? {d : Array R} (h : l.Means w m n k) (hd : l.diagonal? = .ok (some d)) :
    m = n ∧ d.size = n ∧ ∀ r c, r < n → c < n → k r c = if r = c then Vec.entry d r else 0 := by
  induction l generalizing m n k d with
  | dense | sparse | diagonal | scalar | kronecker | opaqueMap => ?_
  all_goals
    have hmn : m = n := h.rows ▸ h.cols ▸ square_of_diagonal? hd
    rw [LinearMap.diagonal?, h.rows, h.cols, if_neg (by rw [bne_iff_ne, not_not]; exact hmn)] at hd
    subst hmn
    refine ⟨rfl, ?_⟩
  · rename_i a _
    obtain ⟨hm, hn⟩ : a.m = m ∧ a.n = m := Prod.mk.inj h.size
    have hd := Except.ok.inj hd
    split at hd
    · rename_i hz
      cases hd
      refine ⟨by rw [Vec.size_build, hn], fun r c hr hc => ?_⟩
      have hr' : r < a.m := hm.symm ▸ hr
      have hc' : c < a.n := hn.symm ▸ hc
      rw [h.denotes r c hr' hc']
      split
      · rename_i hrc
        subst hrc
        rw [Vec.entry_build _ hc']
      · rename_i hne
        exact entry_of_offDiagonalZero hz hr' hc' hne
    · cases hd
  · rename_i a _
    obtain ⟨hm, hn⟩ : a.m = m ∧ a.n = m := Prod.mk.inj h.size
    have hd := Except.ok.inj hd
    refine ⟨by rw [Sparse.size_of_diagonal? hd, hn], fun r c hr hc => ?_⟩
    rw [h.denotes r c (hm.symm ▸ hr) (hn.symm ▸ hc), Sparse.entry_of_diagonal? hd (hn.symm ▸ hr)]
  · rename_i x _
    obtain ⟨-, hn⟩ : x.size = m ∧ x.size = m := Prod.mk.inj h.size
    cases hd
    exact ⟨hn, fun r c hr hc => h.denotes r c (hn.symm ▸ hr) (hn.symm ▸ hc)⟩
  · rename_i n' alpha _
    obtain ⟨-, hn⟩ : n' = m ∧ n' = m := Prod.mk.inj h.size
    obtain ⟨_, -, hd⟩ := bind_eq_ok.1 hd
    cases pure_eq_ok.1 hd
    refine ⟨by rw [Vec.size_build, hn], fun r c hr hc => ?_⟩
    rw [h.denotes r c (hn.symm ▸ hr) (hn.symm ▸ hc), Vec.entry_build _ (hn.symm ▸ hr)]
  · rename_i a b iha ihb
    obtain ⟨ka, kb, ha, hb, hab⟩ := h.denotes
    obtain ⟨hm, hn⟩ : a.m * b.m = m ∧ a.n * b.n = m := Prod.mk.inj h.size
    obtain ⟨oa, hoa, hd⟩ := bind_eq_ok.1 hd
    cases oa with
    | none => cases hd
    | some da =>
      obtain ⟨ob, hob, hd⟩ := bind_eq_ok.1 hd
      cases ob with
      | none => cases hd
      | some db =>
        obtain ⟨d', hd', hd⟩ := bind_eq_ok.1 hd
        obtain ⟨-, -, -, rfl⟩ := tensorDiagonal_eq_ok.1 hd'
        cases hd
        obtain ⟨hsa, hda, hea⟩ := iha ha.means hoa
        obtain ⟨hsb, hdb, heb⟩ := ihb hb.means hob
        refine ⟨by rw [size_kronDiagonal, hda, hdb, hn], fun r c hr hc => ?_⟩
        have hr' : r < a.n * b.n := by rw [hn]; exact hr
        have hc' : c < a.n * b.n := by rw [hn]; exact hc
        have hrc : r = c ↔ r / b.n = c / b.n ∧ r % b.n = c % b.n := by
          rw [← mul_add_eq_iff (div_mod_lt hr').2, Nat.div_add_mod']
        rw [hab r c (by rw [hm]; exact hr) hc', hsb, hea _ _ (div_mod_lt hr').1 (div_mod_lt hc').1,
          heb _ _ (div_mod_lt hr').2 (div_mod_lt hc').2, if_congr hrc rfl rfl, ite_and, kronDiagonal,
          hda, hdb, Vec.entry_build _ hr', ite_mul, zero_mul, mul_ite, mul_zero]
  · cases hd

theorem entry_of_uniform? {d : Array R} {alpha : R} (h : uniform? d = some alpha) {r : Nat}
    (hr : r < d.size) : Vec.entry d r = alpha := by
  rw [uniform?, if_neg (by omega)] at h
  simp only at h
  split at h
  · rename_i hall
    cases h
    have hmem : d[r] ∈ d := Array.getElem_mem hr
    have heq := beq_iff_eq.1 (Array.all_eq_true_iff_forall_mem.1 hall d[r] hmem)
    rw [← heq, Vec.entry, Array.getD, dif_pos hr]
    rfl
  · cases h

/-- A scalar is that of the form, or it is read off the diagonal. -/
theorem scalar?_eq_some {alpha : R} (hs : l.scalar? = .ok (some alpha)) :
    (∃ n mark, l = .scalar n alpha mark) ∨ ∃ d, l.diagonal? = .ok (some d) ∧ uniform? d = some alpha := by
  cases l with
  | scalar n beta mark =>
    cases hs
    exact Or.inl ⟨n, mark, rfl⟩
  | dense | sparse | diagonal | kronecker | opaqueMap =>
    obtain ⟨o, ho, hs⟩ := bind_eq_ok.1 hs
    obtain ⟨d, rfl, hd⟩ := Option.bind_eq_some_iff.1 (pure_eq_ok.1 hs)
    exact Or.inr ⟨d, ho, hd⟩

/-- A map that shows a scalar is that multiple of the identity. -/
theorem Means.scalar? {alpha : R} (h : l.Means w m n k) (hs : l.scalar? = .ok (some alpha)) :
    m = n ∧ ∀ r c, r < n → c < n → k r c = if r = c then alpha else 0 := by
  rcases scalar?_eq_some hs with ⟨n', mark, rfl⟩ | ⟨d, hd, huniform⟩
  · obtain ⟨rfl, rfl⟩ : n' = m ∧ n' = n := Prod.mk.inj h.size
    exact ⟨rfl, h.denotes⟩
  · obtain ⟨hmn, hsize, hk⟩ := h.diagonal? hd
    refine ⟨hmn, fun r c hr hc => ?_⟩
    rw [hk r c hr hc, entry_of_uniform? huniform (hsize.symm ▸ hr)]

end BlockAdmm.LinearMap
