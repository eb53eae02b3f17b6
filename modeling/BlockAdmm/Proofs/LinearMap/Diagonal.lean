/-
  When a diagonal is found.

  A map that can be written out and is diagonal shows its diagonal, whatever its form, so long as no entry of the
  diagonal is zero (`Means.exists_diagonal?`).  That is needed for Kronecker products: their factors are then
  square and diagonal too (`IsDiagonal.factors`), and without it they need not be.  So whether a multiple of the
  identity is found does not depend on the form in which a computation leaves it (`Means.scalar?_eq`).
-/
import BlockAdmm.Proofs.LinearMap.Inverse

namespace BlockAdmm

open Scalar ExactScalar

variable {R : Type} [ExactScalar R]

/-- A matrix of `n` rows and columns with entries on the diagonal and nowhere else. -/
structure IsDiagonal (n : Nat) (k : Nat → Nat → R) : Prop where
  zero : ∀ r c, r < n → c < n → r ≠ c → k r c = 0
  ne_zero : ∀ r, r < n → k r r ≠ 0

namespace IsDiagonal

variable {n p q r s : Nat} {k ka kb : Nat → Nat → R}

theorem areInverse (h : IsDiagonal n k) :
    AreInverse n k fun r c => if r = c then 1 / k r r else 0 := by
  refine (AreInverse.of_diagonal h.ne_zero).congr (fun r c hr hc => ?_) fun _ _ _ _ => rfl
  split
  · rename_i hrc
    rw [hrc]
  · rename_i hrc
    exact h.zero r c hr hc hrc

/-- The factors of a diagonal product are square and diagonal. -/
theorem factors (h : IsDiagonal n k) (hpos : 0 < n) (hm : p * r = n) (hn : q * s = n)
    (hk : ∀ i c, i < n → c < n → k i c = ka (i / r) (c / s) * kb (i % r) (c % s)) :
    p = q ∧ r = s ∧ IsDiagonal p ka ∧ IsDiagonal r kb := by
  obtain rfl : p = q := h.areInverse.square_left hpos hm hn hk
  have hp : 0 < p := Nat.pos_of_mul_pos_right (hm ▸ hpos)
  obtain rfl : r = s := Nat.eq_of_mul_eq_mul_left hp (hm.trans hn.symm)
  have hr : 0 < r := Nat.pos_of_mul_pos_left (hm ▸ hpos)
  -- every pair of entries of the factors is an entry of the product
  have hentry (i j t u : Nat) (hi : i < p) (hj : j < p) (ht : t < r) (hu : u < r) :
      i * r + t < n ∧ j * r + u < n ∧ k (i * r + t) (j * r + u) = ka i j * kb t u := by
    have hlt {i t : Nat} (hi : i < p) (ht : t < r) : i * r + t < n := by
      have := Nat.mul_le_mul_right r (Nat.succ_le_of_lt hi)
      rw [Nat.succ_mul] at this
      omega
    obtain ⟨hit, hit'⟩ := (mul_add_eq_iff (q := i) ht).1 rfl
    obtain ⟨hju, hju'⟩ := (mul_add_eq_iff (q := j) hu).1 rfl
    refine ⟨hlt hi ht, hlt hj hu, ?_⟩
    rw [hk _ _ (hlt hi ht) (hlt hj hu), ← hit, ← hit', ← hju, ← hju']
  have hdiag (i t : Nat) (hi : i < p) (ht : t < r) : ka i i ≠ 0 ∧ kb t t ≠ 0 := by
    obtain ⟨hlt, -, he⟩ := hentry i i t t hi hi ht ht
    have hne := h.ne_zero _ hlt
    rw [he] at hne
    exact ⟨left_ne_zero_of_mul hne, right_ne_zero_of_mul hne⟩
  refine ⟨rfl, rfl, ⟨fun i j hi hj hij => ?_, fun i hi => (hdiag i 0 hi hr).1⟩,
    ⟨fun t u ht hu htu => ?_, fun t ht => (hdiag 0 t hp ht).2⟩⟩
  · obtain ⟨hlt, hlt', he⟩ := hentry i j 0 0 hi hj hr hr
    have hne : i * r + 0 ≠ j * r + 0 := by
      intro heq
      exact hij (Nat.eq_of_mul_eq_mul_right hr (by omega))
    rw [h.zero _ _ hlt hlt' hne] at he
    exact (mul_eq_zero.1 he.symm).resolve_right (hdiag 0 0 hp hr).2
  · obtain ⟨hlt, hlt', he⟩ := hentry 0 0 t u hp hp ht hu
    rw [h.zero _ _ hlt hlt' (by omega)] at he
    exact (mul_eq_zero.1 he.symm).resolve_left (hdiag 0 0 hp hr).1

end IsDiagonal

/-! ## Stored entries -/

namespace Sparse

/-- In a list in the order of storage, what is at a place is alone there. -/
theorem placed_of_mem {xs : List (Triplet R)} {e : Triplet R} (hsorted : xs.Pairwise Triplet.Before)
    (he : e ∈ xs) : placed e.row e.col xs = e.value := by
  induction xs with
  | nil => exact absurd he List.not_mem_nil
  | cons x xs ih =>
    rw [List.pairwise_cons] at hsorted
    rw [placed_cons]
    rcases List.mem_cons.1 he with rfl | he
    · have hrest : placed e.row e.col xs = 0 := by
        refine List.sum_eq_zero fun v hv => ?_
        obtain ⟨y, hy, rfl⟩ := List.mem_map.1 hv
        have hbefore := hsorted.1 y hy
        refine if_neg fun hplace => ?_
        unfold Triplet.Before at hbefore
        omega
      rw [if_pos ⟨rfl, rfl⟩, hrest, add_zero]
    · have hbefore := hsorted.1 e he
      have hplace : ¬ (x.row = e.row ∧ x.col = e.col) := by
        unfold Triplet.Before at hbefore
        omega
      rw [if_neg hplace, zero_add, ih hsorted.2 he]

theorem entry_of_mem {a : Sparse R} {e : Triplet R} (he : e ∈ a.entries) : a.entry e.row e.col = e.value := by
  rw [entry_eq_placed]
  exact placed_of_mem a.sorted he

theorem exists_diagonal? {a : Sparse R} (h : ∀ r c, r < a.m → c < a.n → r ≠ c → a.entry r c = 0) :
    ∃ d, a.diagonal? = some d := by
  refine ⟨_, if_pos (List.all_eq_true.2 fun e he => ?_)⟩
  obtain ⟨hrow, hcol⟩ := a.inside e he
  rw [Bool.or_eq_true, beq_iff_eq, beq_iff_eq]
  by_cases hrc : e.row = e.col
  · exact Or.inl hrc
  · exact Or.inr ((entry_of_mem he).symm.trans (h _ _ hrow hcol hrc))

end Sparse

namespace LinearMap

variable {w : Marks R} {l : LinearMap R} {n : Nat} {k : Nat → Nat → R}

theorem offDiagonalZero_eq_true {a : Dense R} (h : ∀ r c, r < a.m → c < a.n → r ≠ c → a.entry r c = 0) :
    offDiagonalZero a = true := by
  refine List.all_eq_true.2 fun c hc => List.all_eq_true.2 fun r hr => ?_
  rw [Bool.or_eq_true, beq_iff_eq, beq_iff_eq]
  by_cases hrc : r = c
  · exact Or.inl hrc
  · exact Or.inr (h r c (List.mem_range.1 hr) (List.mem_range.1 hc) hrc)

/-! ## Maps -/

/-- A map that is not opaque and has a diagonal without zeros shows it. -/
theorem Means.exists_diagonal? {o : Option (Array R)} (hplain : l.Plain) (h : l.Means w n n k) (hpos : 0 < n)
    (hk : IsDiagonal n k) (ho : l.diagonal? = .ok o) : ∃ d, o = some d := by
  induction l generalizing n k o with
  | dense | sparse | diagonal | scalar | kronecker | opaqueMap => ?_
  all_goals
    rw [LinearMap.diagonal?, h.rows, h.cols, if_neg (by simp)] at ho
  · rename_i a _
    obtain ⟨rfl, hn⟩ : a.m = n ∧ a.n = n := Prod.mk.inj h.size
    have hzero : offDiagonalZero a = true := by
      refine offDiagonalZero_eq_true fun r c hr hc hrc => ?_
      rw [← h.denotes r c hr hc]
      exact hk.zero r c hr (hn ▸ hc) hrc
    rw [if_pos hzero] at ho
    exact ⟨_, (Except.ok.inj ho).symm⟩
  · rename_i a _
    obtain ⟨rfl, hn⟩ : a.m = n ∧ a.n = n := Prod.mk.inj h.size
    obtain ⟨d, hd⟩ := Sparse.exists_diagonal? (a := a) fun r c hr hc hrc => by
      rw [← h.denotes r c hr hc]
      exact hk.zero r c hr (hn ▸ hc) hrc
    exact ⟨d, (Except.ok.inj ho).symm.trans hd⟩
  · exact ⟨_, (Except.ok.inj ho).symm⟩
  · obtain ⟨_, -, ho⟩ := bind_eq_ok.1 ho
    exact ⟨_, (pure_eq_ok.1 ho).symm⟩
  · rename_i a b iha ihb
    obtain ⟨ka, kb, ha, hb, hab⟩ := h.denotes
    obtain ⟨hm, hn⟩ : a.m * b.m = n ∧ a.n * b.n = n := Prod.mk.inj h.size
    obtain ⟨hasquare, hbsquare, hka, hkb⟩ :=
      hk.factors hpos hm hn fun i c hi hc => hab i c (hm ▸ hi) (hn ▸ hc)
    have hapos : 0 < a.m := Nat.pos_of_mul_pos_right (hm ▸ hpos)
    have hbpos : 0 < b.m := Nat.pos_of_mul_pos_left (hm ▸ hpos)
    have ha : a.Means w a.m a.m ka := ⟨Prod.ext rfl hasquare.symm, ha⟩
    have hb : b.Means w b.m b.m kb := ⟨Prod.ext rfl hbsquare.symm, hb⟩
    obtain ⟨oa, hoa, ho⟩ := bind_eq_ok.1 ho
    obtain ⟨da, rfl⟩ := iha hplain.1 ha hapos hka hoa
    obtain ⟨ob, hob, ho⟩ := bind_eq_ok.1 ho
    obtain ⟨db, rfl⟩ := ihb hplain.2 hb hbpos hkb hob
    obtain ⟨_, -, ho⟩ := bind_eq_ok.1 ho
    exact ⟨_, (pure_eq_ok.1 ho).symm⟩
  · exact absurd hplain id

theorem uniform?_eq {d : Array R} {alpha : R} (hpos : 0 < d.size) (h : ∀ r, r < d.size → Vec.entry d r = alpha) :
    uniform? d = some alpha := by
  rw [uniform?, if_neg (by omega)]
  dsimp only
  rw [if_pos, h 0 hpos]
  refine Array.all_eq_true.2 fun i hi => ?_
  rw [beq_iff_eq, h 0 hpos, ← h i hi, Vec.entry, Array.getD, dif_pos hi]
  rfl

/-- A map that is not opaque and is a multiple of the identity other than zero shows it. -/
theorem Means.scalar?_eq {o : Option R} {alpha : R} (hplain : l.Plain) (h : l.Means w n n k) (hpos : 0 < n)
    (hk : ∀ r c, r < n → c < n → k r c = if r = c then alpha else 0) (halpha : alpha ≠ 0)
    (ho : l.scalar? = .ok o) : o = some alpha := by
  have hdiagonal : IsDiagonal n k := by
    refine ⟨fun r c hr hc hrc => ?_, fun r hr => ?_⟩
    · rw [hk r c hr hc, if_neg hrc]
    · rw [hk r r hr hr, if_pos rfl]
      exact halpha
  have hdiag (ho : (do return (← l.diagonal?).bind uniform? : Outcome (Option R)) = .ok o) : o = some alpha := by
    obtain ⟨od, hod, ho⟩ := bind_eq_ok.1 ho
    obtain ⟨d, rfl⟩ := h.exists_diagonal? hplain hpos hdiagonal hod
    obtain ⟨-, hsize, he⟩ := h.diagonal? hod
    rw [← pure_eq_ok.1 ho]
    refine uniform?_eq (hsize ▸ hpos) fun r hr => ?_
    have hr : r < n := hsize ▸ hr
    have hrr := he r r hr hr
    rw [if_pos rfl] at hrr
    rw [← hrr, hk r r hr hr, if_pos rfl]
  cases l with
  | scalar n' beta _ =>
    obtain ⟨rfl, -⟩ : n' = n ∧ n' = n := Prod.mk.inj h.size
    have he := h.denotes 0 0 hpos hpos
    rw [if_pos rfl, hk 0 0 hpos hpos, if_pos rfl] at he
    rw [he]
    exact (Except.ok.inj ho).symm
  | dense | sparse | diagonal | kronecker | opaqueMap => exact hdiag ho

end LinearMap

end BlockAdmm
