/-
  Sparse matrices: the stored entries in the order of their columns and, within a column, of their
  rows.  No two stored entries share a place, and every place lies inside the matrix; both are part
  of the type.  A stored entry may be zero.

  Everything is built by `gather`, which puts triplets in order and adds up those of one place.  A
  sum that is rounded depends on the order of its terms; here it is the one in which quicksort leaves
  them, which for a short list of triplets is the order in which they came.
-/
import BlockAdmm.Dense.Basic
import BlockAdmm.Sorting.Quick

namespace BlockAdmm

/-- A value with its row and column. -/
structure Triplet (R : Type) where
  row : Nat
  col : Nat
  value : R

/-- `a.Before b`: the order of storage, by column and then by row. -/
def Triplet.Before {R : Type} (a b : Triplet R) : Prop :=
  a.col < b.col ∨ (a.col = b.col ∧ a.row < b.row)

instance {R : Type} (a b : Triplet R) : Decidable (a.Before b) := by
  unfold Triplet.Before; infer_instance

/-- A sparse matrix of `m` rows and `n` columns. -/
structure Sparse (R : Type) where
  m : Nat
  n : Nat
  entries : List (Triplet R)
  sorted : entries.Pairwise Triplet.Before
  inside : ∀ e ∈ entries, e.row < m ∧ e.col < n

namespace Sparse

open Scalar

variable {R : Type} [Scalar R]

omit [Scalar R] in
/-- `a.size`: rows and columns. -/
def size (a : Sparse R) : Size := (a.m, a.n)

/-- `insert t xs`: the entries `xs` with `t` in its place, added to what is there. -/
def insert (t : Triplet R) : List (Triplet R) → List (Triplet R)
  | [] => [t]
  | x :: xs =>
    if t.Before x then t :: x :: xs
    else if x.Before t then x :: insert t xs
    else ⟨x.row, x.col, x.value + t.value⟩ :: xs

/-- Each entry after an insertion is at the place of `t` or at the place of a former entry. -/
theorem mem_insert {t y : Triplet R} {xs : List (Triplet R)} (h : y ∈ insert t xs) :
    (y.row = t.row ∧ y.col = t.col) ∨ ∃ x ∈ xs, y.row = x.row ∧ y.col = x.col := by
  induction xs with
  | nil => simp [insert] at h; exact Or.inl (by simp [h])
  | cons x xs ih =>
    rw [insert] at h
    split at h
    · rcases List.mem_cons.1 h with rfl | h
      · exact Or.inl ⟨rfl, rfl⟩
      · exact Or.inr ⟨y, h, rfl, rfl⟩
    · split at h
      · rcases List.mem_cons.1 h with rfl | h
        · exact Or.inr ⟨y, List.mem_cons_self, rfl, rfl⟩
        · rcases ih h with h | ⟨z, hz, h⟩
          · exact Or.inl h
          · exact Or.inr ⟨z, List.mem_cons_of_mem _ hz, h⟩
      · rcases List.mem_cons.1 h with rfl | h
        · exact Or.inr ⟨x, List.mem_cons_self, rfl, rfl⟩
        · exact Or.inr ⟨y, List.mem_cons_of_mem _ h, rfl, rfl⟩

omit [Scalar R] in
theorem before_trans {a b c : Triplet R} (h : a.Before b) (h' : b.Before c) : a.Before c := by
  unfold Triplet.Before at *; omega

/-- An insertion keeps the order. -/
theorem sorted_insert (t : Triplet R) {xs : List (Triplet R)} (h : xs.Pairwise Triplet.Before) :
    (insert t xs).Pairwise Triplet.Before := by
  induction xs with
  | nil => simp [insert]
  | cons x xs ih =>
    rw [List.pairwise_cons] at h
    rw [insert]
    split
    · rename_i ht
      refine List.Pairwise.cons (fun y hy => ?_) (List.Pairwise.cons h.1 h.2)
      rcases List.mem_cons.1 hy with rfl | hy
      · exact ht
      · exact before_trans ht (h.1 y hy)
    · split
      · rename_i hx
        refine List.Pairwise.cons (fun y hy => ?_) (ih h.2)
        rcases mem_insert hy with hy | ⟨z, hz, hy⟩
        · unfold Triplet.Before at *; omega
        · have := h.1 z hz; unfold Triplet.Before at *; omega
      · exact List.Pairwise.cons (fun y hy => h.1 y hy) h.2

/-- `gatherFrom m n ts xs`: the entries `xs` with the triplets that lie inside the matrix. -/
def gatherFrom (m n : Nat) (ts : List (Triplet R)) (xs : List (Triplet R)) : List (Triplet R) :=
  ts.foldl (fun xs t => if t.row < m ∧ t.col < n then insert t xs else xs) xs

theorem sorted_gatherFrom (m n : Nat) (ts : List (Triplet R)) {xs : List (Triplet R)}
    (h : xs.Pairwise Triplet.Before) : (gatherFrom m n ts xs).Pairwise Triplet.Before := by
  induction ts generalizing xs with
  | nil => exact h
  | cons t ts ih =>
    simp only [gatherFrom, List.foldl_cons] at ih ⊢
    split
    · exact ih (sorted_insert t h)
    · exact ih h

theorem inside_gatherFrom (m n : Nat) (ts : List (Triplet R)) {xs : List (Triplet R)}
    (h : ∀ e ∈ xs, e.row < m ∧ e.col < n) :
    ∀ e ∈ gatherFrom m n ts xs, e.row < m ∧ e.col < n := by
  induction ts generalizing xs with
  | nil => exact h
  | cons t ts ih =>
    simp only [gatherFrom, List.foldl_cons] at ih ⊢
    split
    · rename_i ht
      refine ih fun e he => ?_
      rcases mem_insert he with he | ⟨x, hx, he⟩
      · omega
      · have := h x hx; omega
    · exact ih h

omit [Scalar R] in
/-- `arranged ts`: the triplets in the order in which those of one place are added up. -/
def arranged (ts : List (Triplet R)) : List (Triplet R) :=
  Sorting.arrange (fun a b => decide (a.Before b)) ts

omit [Scalar R] in
theorem arranged_perm (ts : List (Triplet R)) : (arranged ts).Perm ts := Sorting.arrange_perm _ ts

/-- `gather m n ts`: the matrix of the triplets that lie inside it. -/
def gather (m n : Nat) (ts : List (Triplet R)) : Sparse R where
  m := m
  n := n
  entries := gatherFrom m n (arranged ts) []
  sorted := sorted_gatherFrom m n (arranged ts) List.Pairwise.nil
  inside := inside_gatherFrom m n (arranged ts) fun _ h => absurd h List.not_mem_nil

@[simp] theorem m_gather (m n : Nat) (ts : List (Triplet R)) : (gather m n ts).m = m := rfl

@[simp] theorem n_gather (m n : Nat) (ts : List (Triplet R)) : (gather m n ts).n = n := rfl

/-- `columnRoom n`: goes on if a matrix of `n` columns can be stored, which takes the place where each
    column begins and the end of the last. -/
def columnRoom (n : Nat) : Outcome Unit := room (n + 1)

/-- `tripletRoom n`: goes on if `n` triplets can be stored, each of which takes the place of three
    entries. -/
def tripletRoom (n : Nat) : Outcome Unit := room (3 * n)

/-- `ofTriplets m n ts`: the matrix of triplets that must all lie inside it. -/
def ofTriplets (m n : Nat) (ts : List (Triplet R)) : Outcome (Sparse R) := do
  promise (ts.all fun t => t.row < m && t.col < n)
  columnRoom n
  return gather m n ts

/-- `a.entry r c`: the entry at a place, the sum of what is stored there. -/
def entry (a : Sparse R) (r c : Nat) : R :=
  a.entries.foldl (fun s e => if e.row = r ∧ e.col = c then s + e.value else s) 0

/-- `a.toDense`: the dense matrix of the entries. -/
def toDense (a : Sparse R) : Dense R := Dense.build a.m a.n a.entry

/-- `a.expand`: the same, if it can be stored. -/
def expand (a : Sparse R) : Outcome (Dense R) := do
  room (a.m * a.n)
  return a.toDense

/-- `ofDense d`: the entries of a dense matrix that are not zero. -/
def ofDense (d : Dense R) : Sparse R :=
  gather d.m d.n <|
    (List.range d.n).flatMap fun c => (List.range d.m).filterMap fun r =>
      let v := d.entry r c
      if v != 0 then some ⟨r, c, v⟩ else none

/-- `extract d`: the same, if it and its triplets can be stored. -/
def extract (d : Dense R) : Outcome (Sparse R) := do
  let a := ofDense d
  tripletRoom a.entries.length
  columnRoom d.n
  return a

/-- `ofDiagonal d`: the square matrix of the entries of `d` that are not zero. -/
def ofDiagonal (d : Array R) : Sparse R :=
  gather d.size d.size <|
    (List.range d.size).filterMap fun i =>
      let v := Vec.entry d i
      if v != 0 then some ⟨i, i, v⟩ else none

/-- `scatter d`: the same, if it can be stored. -/
def scatter (d : Array R) : Outcome (Sparse R) := do
  columnRoom d.size
  return ofDiagonal d

/-- `a.mulVec x`: the product with a vector of `n` entries, summed in the order of storage. -/
def mulVec (a : Sparse R) (x : Array R) : Array R :=
  Vec.build a.m fun r =>
    a.entries.foldl (fun s e => if e.row = r then s + e.value * Vec.entry x e.col else s) 0

/-- `a.transpose`: rows and columns exchanged. -/
def transpose (a : Sparse R) : Sparse R :=
  gather a.n a.m (a.entries.map fun e => ⟨e.col, e.row, e.value⟩)

/-- `a.flip`: the same, if it can be stored. -/
def flip (a : Sparse R) : Outcome (Sparse R) := do
  columnRoom a.m
  return a.transpose

/-- `a.scale alpha`: every stored entry times `alpha`. -/
def scale (alpha : R) (a : Sparse R) : Sparse R :=
  gather a.m a.n (a.entries.map fun e => ⟨e.row, e.col, alpha * e.value⟩)

/-- `a.add b`: the sum of matrices of one size. -/
def add (a b : Sparse R) : Sparse R := gather a.m a.n (a.entries ++ b.entries)

/-- `a.merge b`: the same, if the triplets of both can be stored. -/
def merge (a b : Sparse R) : Outcome (Sparse R) := do
  tripletRoom a.entries.length
  tripletRoom b.entries.length
  return a.add b

/-- `a.products b`: column after column of `b`, each of its entries times the entries of the column of
    `a` that it selects. -/
def products (a b : Sparse R) : List (Triplet R) :=
  b.entries.flatMap fun f => (a.entries.filter fun e => e.col = f.row).map fun e =>
    ⟨e.row, f.col, e.value * f.value⟩

/-- `a.mul b`: the product of matrices that fit. -/
def mul (a b : Sparse R) : Sparse R := gather a.m b.n (a.products b)

/-- `a.compose b`: the same, if the table of the columns of `a`, a list for each, and the triplets can be
    stored. -/
def compose (a b : Sparse R) : Outcome (Sparse R) := do
  room (3 * a.n)
  tripletRoom (a.products b).length
  return a.mul b

/-- `a.kronecker b`: each entry of `a` times the matrix `b`. -/
def kronecker (a b : Sparse R) : Sparse R :=
  gather (a.m * b.m) (a.n * b.n) <|
    a.entries.flatMap fun e => b.entries.map fun f =>
      ⟨e.row * b.m + f.row, e.col * b.n + f.col, e.value * f.value⟩

/-- `a.tensor b`: the same, if it and the triplets, those of `b` and those of the product, can be stored. -/
def tensor (a b : Sparse R) : Outcome (Sparse R) := do
  tripletRoom b.entries.length
  tripletRoom (a.entries.length * b.entries.length)
  columnRoom (a.n * b.n)
  return a.kronecker b

/-- `a.diagonal?`: the diagonal of a square matrix that stores nothing but zeros beside it. -/
def diagonal? (a : Sparse R) : Option (Array R) :=
  if a.entries.all fun e => e.row == e.col || e.value == 0 then
    some (Vec.build a.n fun i => a.entry i i)
  else none

/-- `agree eq a b`: the same size and places, and values that `eq` relates. -/
def agree (eq : R → R → Bool) (a b : Sparse R) : Bool :=
  a.m == b.m && a.n == b.n && a.entries.length == b.entries.length
    && (a.entries.zip b.entries).all fun p =>
      p.1.row == p.2.row && p.1.col == p.2.col && eq p.1.value p.2.value

/-- `a.equal b`: the same size, the same places and equal values. -/
def equal (a b : Sparse R) : Bool := agree (· == ·) a b

/-- `a.same b`: the same size, the same places and identical values. -/
def same (a b : Sparse R) : Bool := agree Scalar.same a b

end Sparse

end BlockAdmm
