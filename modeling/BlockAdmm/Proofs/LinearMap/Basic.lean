/-
  What a linear map stands for.

  The coefficients of a map are a function of row and column, of which only the part inside the size
  of the map matters.  `l.Denotes w k` says that `l` has the coefficients `k`: a stored form by its
  entries, a Kronecker product by quotient and remainder, and an opaque map by what its function does
  whenever it has a value (`Realizes`).  Nothing is asked of a function where it has none.

  A function that may fail does not determine its coefficients, but two functions with one mark must
  have the same.  So the marks in use are listed with their coefficients (`Marks`), and what an opaque
  map denotes is tied to the list.  New marks only extend it (`Marks.Extends`), and what was denoted
  before is denoted still (`Denotes.mono`).
-/
import BlockAdmm.Proofs.Outcome
import BlockAdmm.Proofs.Entries
import BlockAdmm.LinearMap.Algebra

namespace BlockAdmm

open Scalar ExactScalar

variable {R : Type} [ExactScalar R]

/-- `rowSum n k x r`: entry `r` of the product of the coefficients `k` of `n` columns with `x`. -/
def rowSum (n : Nat) (k : Nat → Nat → R) (x : Nat → R) (r : Nat) : R :=
  ∑ c ∈ Finset.range n, k r c * x c

theorem rowSum_congr {n : Nat} {k k' : Nat → Nat → R} {x x' : Nat → R} {r : Nat}
    (hk : ∀ c, c < n → k r c = k' r c) (hx : ∀ c, c < n → x c = x' c) :
    rowSum n k x r = rowSum n k' x' r :=
  Finset.sum_congr rfl fun c hc => by
    rw [hk c (Finset.mem_range.1 hc), hx c (Finset.mem_range.1 hc)]

theorem rowSum_add (n : Nat) (k : Nat → Nat → R) (x y : Nat → R) (r : Nat) :
    rowSum n k (fun c => x c + y c) r = rowSum n k x r + rowSum n k y r := by
  simp only [rowSum, mul_add, Finset.sum_add_distrib]

theorem rowSum_sub (n : Nat) (k : Nat → Nat → R) (x y : Nat → R) (r : Nat) :
    rowSum n k (fun c => x c - y c) r = rowSum n k x r - rowSum n k y r := by
  simp only [rowSum, mul_sub, Finset.sum_sub_distrib]

theorem rowSum_coef_add (n : Nat) (k k' : Nat → Nat → R) (x : Nat → R) (r : Nat) :
    rowSum n (fun r c => k r c + k' r c) x r = rowSum n k x r + rowSum n k' x r := by
  simp only [rowSum, add_mul, Finset.sum_add_distrib]

/-- A product with a product of coefficients is taken one after the other. -/
theorem rowSum_comp (p n : Nat) (k k' : Nat → Nat → R) (x : Nat → R) (r : Nat) :
    rowSum n (fun r c => rowSum p k (fun t => k' t c) r) x r = rowSum p k (rowSum n k' x) r := by
  simp only [rowSum, Finset.mul_sum, Finset.sum_mul]
  rw [Finset.sum_comm]
  exact Finset.sum_congr rfl fun t _ => Finset.sum_congr rfl fun c _ => mul_assoc _ _ _

theorem rowSum_zero (n : Nat) (k : Nat → Nat → R) (r : Nat) : rowSum n k (fun _ => 0) r = 0 := by
  simp only [rowSum, mul_zero, Finset.sum_const_zero]

/-- A row of a diagonal matrix has one term. -/
theorem rowSum_diagonal {n r : Nat} {k : Nat → Nat → R} {d : R} (x : Nat → R) (hr : r < n)
    (hk : ∀ c, c < n → k r c = if r = c then d else 0) : rowSum n k x r = d * x r := by
  rw [rowSum, Finset.sum_eq_single r]
  · rw [hk r hr, if_pos rfl]
  · intro c hc hne
    rw [hk c (Finset.mem_range.1 hc), if_neg (Ne.symm hne), zero_mul]
  · intro hr'
    exact absurd (Finset.mem_range.2 hr) hr'

/-- The quadratic form of a product `hᵀ diag(w) h` with something on the diagonal. -/
theorem sum_mul_rowSum_gram (m n : Nat) (h : Nat → Nat → R) (w : Nat → R) (rho : R) (z : Nat → R) :
    ∑ r ∈ Finset.range n, z r * rowSum n
        (fun r c => ∑ i ∈ Finset.range m, w i * (h i r * h i c) + if r = c then rho else 0) z r
      = ∑ i ∈ Finset.range m, w i * rowSum n h z i ^ 2 + rho * ∑ r ∈ Finset.range n, z r ^ 2 := by
  have hgram : ∑ i ∈ Finset.range m, w i * rowSum n h z i ^ 2 = ∑ r ∈ Finset.range n, z r * rowSum n
      (fun r c => ∑ i ∈ Finset.range m, w i * (h i r * h i c)) z r := by
    simp only [rowSum, pow_two, Finset.mul_sum, Finset.sum_mul]
    rw [Finset.sum_comm]
    refine Finset.sum_congr rfl fun r _ => ?_
    rw [Finset.sum_comm]
    exact Finset.sum_congr rfl fun c _ => Finset.sum_congr rfl fun i _ => by ring
  rw [hgram, Finset.mul_sum, ← Finset.sum_add_distrib]
  refine Finset.sum_congr rfl fun r hr => ?_
  have hdiagonal := rowSum_diagonal (k := fun r c => if r = c then rho else 0) z (Finset.mem_range.1 hr)
    fun _ _ => rfl
  rw [rowSum_coef_add, mul_add, hdiagonal]
  ring

/-- The product with a unit vector is a column. -/
theorem rowSum_unit {n c : Nat} (k : Nat → Nat → R) (hc : c < n) (r : Nat) :
    rowSum n k (Vec.entry (Vec.build n fun i => if i = c then 1 else 0)) r = k r c := by
  rw [rowSum, Finset.sum_eq_single c]
  · rw [Vec.entry_build _ hc, if_pos rfl, mul_one]
  · intro i hi hne
    rw [Vec.entry_build _ (Finset.mem_range.1 hi), if_neg hne, mul_zero]
  · intro hc'
    exact absurd (Finset.mem_range.2 hc) hc'

/-- A sum over a product of two bounds, by quotient and remainder. -/
theorem sum_range_mul (q s : Nat) (f : Nat → R) :
    ∑ c ∈ Finset.range (q * s), f c
      = ∑ j ∈ Finset.range q, ∑ i ∈ Finset.range s, f (j * s + i) := by
  induction q with
  | zero => rw [Nat.zero_mul, Finset.range_zero, Finset.sum_empty, Finset.sum_empty]
  | succ q ih => rw [Nat.add_mul, Nat.one_mul, Finset.sum_range_add, ih, Finset.sum_range_succ]

/-- `Realizes run m n k`: on vectors of `n` entries, `run` computes the product with the coefficients
    `k` of `m` rows wherever it has a value. -/
def Realizes (run : Array R → Outcome (Array R)) (m n : Nat) (k : Nat → Nat → R) : Prop :=
  ∀ x y, x.size = n → run x = .ok y →
    y.size = m ∧ ∀ r, r < m → Vec.entry y r = rowSum n k (Vec.entry x) r

/-- The marks below `next` are in use, each with the coefficients of what it marks. -/
structure Marks (R : Type) where
  next : Nat
  coef : Nat → Nat → Nat → R

namespace Marks

omit [ExactScalar R]

/-- `w.Extends v`: `w` keeps the marks that `v` has in use. -/
structure Extends (w v : Marks R) : Prop where
  le : v.next ≤ w.next
  keeps : ∀ i, i < v.next → w.coef i = v.coef i

theorem Extends.refl (w : Marks R) : w.Extends w := ⟨Nat.le_refl _, fun _ _ => rfl⟩

theorem Extends.trans {u v w : Marks R} (h : w.Extends v) (h' : v.Extends u) : w.Extends u :=
  ⟨Nat.le_trans h'.le h.le, fun i hi =>
    (h.keeps i (Nat.lt_of_lt_of_le hi h'.le)).trans (h'.keeps i hi)⟩

/-- `w.give k`: one more mark, with the coefficients `k`. -/
def give (w : Marks R) (k : Nat → Nat → R) : Marks R :=
  ⟨w.next + 1, fun i => if i = w.next then k else w.coef i⟩

theorem extends_give (w : Marks R) (k : Nat → Nat → R) : (w.give k).Extends w :=
  ⟨Nat.le_succ _, fun _ hi => if_neg (Nat.ne_of_lt hi)⟩

/-- `w.Names mark m n k`: the mark, if there is one, is in use for the coefficients `k`. -/
def Names (w : Marks R) (mark : Mark) (m n : Nat) (k : Nat → Nat → R) : Prop :=
  ∀ i, mark = some i → i < w.next ∧ ∀ r c, r < m → c < n → w.coef i r c = k r c

end Marks

/-- A function that computes the product with coefficients, under a mark that says so. -/
structure ApplyFn.Computes (w : Marks R) (f : ApplyFn R) (m n : Nat) (k : Nat → Nat → R) : Prop where
  realizes : Realizes f.run m n k
  names : w.Names f.mark m n k

namespace LinearMap

/-- `l.Denotes w k`: the map has the coefficients `k`, where `w` are the marks in use. -/
def Denotes (w : Marks R) : LinearMap R → (Nat → Nat → R) → Prop
  | .dense a _, k => ∀ r c, r < a.m → c < a.n → k r c = a.entry r c
  | .sparse a _, k => ∀ r c, r < a.m → c < a.n → k r c = a.entry r c
  | .diagonal d _, k =>
    ∀ r c, r < d.size → c < d.size → k r c = if r = c then Vec.entry d r else 0
  | .scalar n alpha _, k => ∀ r c, r < n → c < n → k r c = if r = c then alpha else 0
  | .kronecker a b, k => ∃ ka kb, a.Denotes w ka ∧ b.Denotes w kb ∧
    ∀ r c, r < a.m * b.m → c < a.n * b.n →
      k r c = ka (r / b.m) (c / b.n) * kb (r % b.m) (c % b.n)
  | .opaqueMap f, k => f.forward.Computes w f.m f.n k ∧
    ∀ t, f.backward = some t → t.Computes w f.n f.m fun r c => k c r

/-- `l.Means w m n k`: the map has `m` rows, `n` columns and the coefficients `k`. -/
structure Means (w : Marks R) (l : LinearMap R) (m n : Nat) (k : Nat → Nat → R) : Prop where
  size : l.size = (m, n)
  denotes : l.Denotes w k

variable {w : Marks R} {l : LinearMap R} {m n : Nat} {k : Nat → Nat → R}

theorem Means.rows (h : l.Means w m n k) : l.m = m := congrArg Prod.fst h.size

theorem Means.cols (h : l.Means w m n k) : l.n = n := congrArg Prod.snd h.size

theorem Denotes.means (h : l.Denotes w k) : l.Means w l.m l.n k := ⟨rfl, h⟩

end LinearMap

end BlockAdmm
