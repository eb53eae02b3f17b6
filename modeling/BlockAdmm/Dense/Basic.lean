/-
  Dense matrices, stored by columns: entry `(r, c)` stands at index `c * m + r`.  The number of
  entries is part of the type, so every dense matrix is well formed.

  An operation is given by its entries (`build`), and `entry_build` reads them back; two matrices of
  one size with the same entries are equal (`ext_entry`).  Products with a vector or a matrix check
  the sizes first and end in a misuse if they do not fit.
-/
import BlockAdmm.Count
import BlockAdmm.Vec

namespace BlockAdmm

/-- A dense matrix of `m` rows and `n` columns. -/
structure Dense (R : Type) where
  m : Nat
  n : Nat
  data : Array R
  size_data : data.size = m * n

namespace Dense

open Scalar

variable {R : Type} [Scalar R]

omit [Scalar R] in
/-- `a.size`: rows and columns. -/
def size (a : Dense R) : Size := (a.m, a.n)

/-- `a.entry r c`: the entry at row `r < m` and column `c < n`. -/
def entry (a : Dense R) (r c : Nat) : R := Vec.entry a.data (c * a.m + r)

omit [Scalar R] in
/-- `build m n f`: the matrix of the entries `f r c`. -/
def build (m n : Nat) (f : Nat → Nat → R) : Dense R where
  m := m
  n := n
  data := Vec.build (m * n) fun k => f (k % m) (k / m)
  size_data := by simp

omit [Scalar R] in
@[simp] theorem m_build (m n : Nat) (f : Nat → Nat → R) : (build m n f).m = m := rfl

omit [Scalar R] in
@[simp] theorem n_build (m n : Nat) (f : Nat → Nat → R) : (build m n f).n = n := rfl

/-- An index inside the matrix is inside the array. -/
theorem index_lt {m n r c : Nat} (hr : r < m) (hc : c < n) : c * m + r < m * n := by
  have h : (c + 1) * m ≤ n * m := Nat.mul_le_mul_right m hc
  rw [Nat.mul_comm m n]
  rw [Nat.add_mul] at h
  omega

@[simp] theorem entry_build {m n r c : Nat} (f : Nat → Nat → R) (hr : r < m) (hc : c < n) :
    (build m n f).entry r c = f r c := by
  have hm : 0 < m := by omega
  unfold entry build
  simp only
  rw [Vec.entry_build _ (index_lt hr hc)]
  have h1 : (c * m + r) % m = r := by
    rw [Nat.mul_comm, Nat.mul_add_mod]; exact Nat.mod_eq_of_lt hr
  have h2 : (c * m + r) / m = c := by
    rw [Nat.mul_comm, Nat.mul_add_div hm, Nat.div_eq_of_lt hr, Nat.add_zero]
  rw [h1, h2]

/-- Two matrices of one size with the same entries are the same. -/
theorem ext_entry {a b : Dense R} (hm : a.m = b.m) (hn : a.n = b.n)
    (h : ∀ r c, r < a.m → c < a.n → a.entry r c = b.entry r c) : a = b := by
  obtain ⟨m, n, x, hx⟩ := a
  obtain ⟨m', n', y, hy⟩ := b
  simp only at hm hn
  subst hm hn
  have hxy : x = y := by
    apply Vec.ext_entry (by omega)
    intro k hk
    have hpos : 0 < m := by
      rcases Nat.eq_zero_or_pos m with h0 | h0
      · subst h0; simp at hx; omega
      · exact h0
    have hkn : k / m < n := by
      rw [Nat.div_lt_iff_lt_mul hpos, Nat.mul_comm]; omega
    have := h (k % m) (k / m) (Nat.mod_lt k hpos) hkn
    simpa [entry, Nat.mul_comm (k / m) m, Nat.div_add_mod] using this
  subst hxy
  rfl

/-- `ofColumns m n data`: the matrix with the given entries, column after column. -/
def ofColumns (m n : Nat) (data : Array R) : Outcome (Dense R) :=
  if h : data.size = m * n then .ok ⟨m, n, data, h⟩ else .error .misuse

omit [Scalar R] in
/-- `ofVec v`: a vector as a matrix of one column. -/
def ofVec (v : Array R) : Dense R := ⟨v.size, 1, v, by simp⟩

omit [Scalar R] in
/-- `make m n f`: the matrix of the entries `f r c`, if it can be stored. -/
def make (m n : Nat) (f : Nat → Nat → R) : Outcome (Dense R) := do
  room (m * n)
  return build m n f

omit [Scalar R] in
/-- `fill m n v`: all entries `v`. -/
def fill (m n : Nat) (v : R) : Outcome (Dense R) := make m n fun _ _ => v

/-- `zero m n`: all entries zero. -/
def zero (m n : Nat) : Outcome (Dense R) := fill m n 0

/-- `diagonal d`: the square matrix with `d` on the diagonal. -/
def diagonal (d : Array R) : Dense R :=
  build d.size d.size fun r c => if r = c then Vec.entry d r else 0

/-- `identity n`: ones on the diagonal. -/
def identity (n : Nat) : Dense R := build n n fun r c => if r = c then 1 else 0

/-- `a.fillByColumns v`: the entries of `v`, column after column, as far as they reach. -/
def fillByColumns (a : Dense R) (v : Array R) : Dense R :=
  build a.m a.n fun r c =>
    if c * a.m + r < v.size then Vec.entry v (c * a.m + r) else a.entry r c

/-- `a.fillByRows v`: the entries of `v`, row after row, as far as they reach. -/
def fillByRows (a : Dense R) (v : Array R) : Dense R :=
  build a.m a.n fun r c =>
    if r * a.n + c < v.size then Vec.entry v (r * a.n + c) else a.entry r c

/-- `a.entryAt r c`: the entry of a row and a column that must lie inside the matrix. -/
def entryAt (a : Dense R) (r c : Nat) : Outcome R := do
  promise (r < a.m && c < a.n)
  return a.entry r c

/-- `a.set r c v`: the matrix with another entry at `(r, c)`. -/
def set (a : Dense R) (r c : Nat) (v : R) : Outcome (Dense R) := do
  promise (r < a.m && c < a.n)
  return build a.m a.n fun i j => if i = r ∧ j = c then v else a.entry i j

/-- `a.scale alpha`: every entry times `alpha`. -/
def scale (alpha : R) (a : Dense R) : Dense R where
  m := a.m
  n := a.n
  data := Vec.scale alpha a.data
  size_data := by simp [Vec.scale, a.size_data]

/-- `a.transpose`: rows and columns exchanged. -/
def transpose (a : Dense R) : Dense R := build a.n a.m fun r c => a.entry c r

/-- `a.column c`: column `c` as a vector. -/
def column (a : Dense R) (c : Nat) : Array R := Vec.build a.m fun r => a.entry r c

/-- `a.combine alpha x beta y = alpha * (a x) + beta * y`, the product summed over the columns. -/
def combine (a : Dense R) (alpha : R) (x : Array R) (beta : R) (y : Array R) : Array R :=
  Vec.build a.m fun r =>
    alpha * sumBelow (fun c => a.entry r c * Vec.entry x c) a.n + beta * Vec.entry y r

/-- `a.transform alpha x beta y`: `combine` for vectors that fit. -/
def transform (a : Dense R) (alpha : R) (x : Array R) (beta : R) (y : Array R) :
    Outcome (Array R) := do
  promise (x.size == a.n && y.size == a.m)
  return a.combine alpha x beta y

/-- `a.combineTranspose alpha x beta y = alpha * (aᵀ x) + beta * y`, summed over the rows. -/
def combineTranspose (a : Dense R) (alpha : R) (x : Array R) (beta : R) (y : Array R) : Array R :=
  Vec.build a.n fun c =>
    alpha * sumBelow (fun r => a.entry r c * Vec.entry x r) a.m + beta * Vec.entry y c

/-- `a.transformTranspose alpha x beta y`: `combineTranspose` for vectors that fit. -/
def transformTranspose (a : Dense R) (alpha : R) (x : Array R) (beta : R) (y : Array R) :
    Outcome (Array R) := do
  promise (x.size == a.m && y.size == a.n)
  return a.combineTranspose alpha x beta y

omit [Scalar R] in
/-- `a.hasEntries`: neither side is zero. -/
def hasEntries (a : Dense R) : Bool := decide (0 < a.m) && decide (0 < a.n)

/-- `a.mulVec x`: the product with a vector; a matrix without entries gives zeros for any `x`. -/
def mulVec (a : Dense R) (x : Array R) : Outcome (Array R) := do
  room a.m
  if a.hasEntries then a.transform 1 x 0 (Vec.zero a.m) else return Vec.zero a.m

/-- `a.transMulVec x`: the product of the transpose with a vector. -/
def transMulVec (a : Dense R) (x : Array R) : Outcome (Array R) := do
  room a.n
  if a.hasEntries then a.transformTranspose 1 x 0 (Vec.zero a.n) else return Vec.zero a.n

/-- `a.product b`: the matrix product of matrices that fit, each column as `combine` gives it. -/
def product (a b : Dense R) : Dense R :=
  build a.m b.n fun r c =>
    if a.hasEntries then 1 * sumBelow (fun k => a.entry r k * b.entry k c) a.n + 0 * 0 else 0

/-- `a.mulMat b`: the matrix product. -/
def mulMat (a b : Dense R) : Outcome (Dense R) := do
  promise (a.n == b.m)
  room (a.m * b.n)
  return a.product b

/-- `a.addScaled alpha b`: `a + alpha * b` for matrices of one size. -/
def addScaled (alpha : R) (b a : Dense R) : Outcome (Dense R) := do
  promise (a.m == b.m && a.n == b.n)
  return build a.m a.n fun r c => a.entry r c + alpha * b.entry r c

/-- `a.norm`: the square root of the sum of the squares, column after column. -/
def norm (a : Dense R) : R := Vec.norm a.data

/-- `a.equal b`: the same size and equal entries. -/
def equal (a b : Dense R) : Bool := a.m == b.m && a.n == b.n && Vec.equal a.data b.data

/-- `a.same b`: the same size and identical entries. -/
def same (a b : Dense R) : Bool := a.m == b.m && a.n == b.n && Vec.same a.data b.data

end Dense

end BlockAdmm
