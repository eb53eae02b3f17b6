/-
  LU factorization with partial pivoting.

  Column after column: the row with the entry of largest magnitude comes up, the entries below it
  are divided by it, and its multiples are taken from the rows below.  The multipliers stay in place
  of the zeros they make, so one matrix holds both triangles.  A column whose largest entry is not
  above the bound `eps` stops the factorization.
-/
import BlockAdmm.Dense.Basic

namespace BlockAdmm

/-- Both triangles of a factored matrix of `n` rows in one, and the row that came up in each step. -/
structure Lu (R : Type) where
  n : Nat
  factors : Dense R
  pivots : List Nat

/-- Where a factorization stopped: the column without a pivot, and the matrix as far as it was. -/
structure Lu.Stuck (R : Type) where
  column : Nat
  matrix : Dense R

namespace Lu

open Scalar

variable {R : Type} [Scalar R]

/-- `pivotRow a k`: of the rows from `k` on, the first with the entry of largest magnitude in
    column `k`. -/
def pivotRow (a : Dense R) (k : Nat) : Nat :=
  (List.range' (k + 1) (a.m - (k + 1))).foldl
    (fun p i => if abs (a.entry p k) < abs (a.entry i k) then i else p) k

/-- `swapRows k p a`: rows `k` and `p` exchanged. -/
def swapRows (k p : Nat) (a : Dense R) : Dense R :=
  Dense.build a.m a.n fun i j => a.entry (if i = k then p else if i = p then k else i) j

/-- `eliminate k a`: below row `k`, column `k` becomes the multipliers, and each later column loses
    the multiples of row `k`. -/
def eliminate (k : Nat) (a : Dense R) : Dense R :=
  let d := recip (a.entry k k)
  Dense.build a.m a.n fun i j =>
    if k < i then
      if j = k then a.entry i k * d
      else if k < j then a.entry i j - a.entry i k * d * a.entry k j
      else a.entry i j
    else a.entry i j

/-- `go eps todo k a pivots`: the factorization from column `k` on, with `todo` columns left. -/
def go (eps : R) : Nat → Nat → Dense R → List Nat → Except (Stuck R) (Lu R)
  | 0, k, a, pivots => .ok ⟨k, a, pivots.reverse⟩
  | todo + 1, k, a, pivots =>
    let p := pivotRow a k
    if abs (a.entry p k) ≤ eps then .error ⟨k, a⟩
    else go eps todo (k + 1) (eliminate k (swapRows k p a)) (p :: pivots)

/-- `factor a eps`: the factorization of a square matrix. -/
def factor (a : Dense R) (eps : R) : Except (Stuck R) (Lu R) := go eps a.m 0 a []

/-- `of? a eps`: the factorization, if the matrix is square and has all its pivots. -/
def of? (a : Dense R) (eps : R) : Option (Lu R) :=
  if a.m = a.n then (factor a eps).toOption else none

/-- `swap k p b`: entries `k` and `p` exchanged. -/
def swap (k p : Nat) (b : Array R) : Array R :=
  Vec.build b.size fun i => Vec.entry b (if i = k then p else if i = p then k else i)

/-- `permute pivots k b`: the exchanges of the factorization from step `k` on. -/
def permute : List Nat → Nat → Array R → Array R
  | [], _, b => b
  | p :: ps, k, b => permute ps (k + 1) (swap k p b)

/-- `forward a todo k b`: the lower triangle, whose diagonal is one, from the first row down. -/
def forward (a : Dense R) : Nat → Nat → Array R → Array R
  | 0, _, b => b
  | todo + 1, k, b =>
    forward a todo (k + 1)
      (Vec.build b.size fun i =>
        if k < i then Vec.entry b i - a.entry i k * Vec.entry b k else Vec.entry b i)

/-- `backward a k b`: the upper triangle, from row `k - 1` up. -/
def backward (a : Dense R) : Nat → Array R → Array R
  | 0, b => b
  | k + 1, b =>
    let v := Vec.entry b k / a.entry k k
    backward a k
      (Vec.build b.size fun i =>
        if i = k then v else if i < k then Vec.entry b i - a.entry i k * v else Vec.entry b i)

/-- `f.substitute b`: the solution for a right-hand side of `n` entries. -/
def substitute (f : Lu R) (b : Array R) : Array R :=
  backward f.factors f.n (forward f.factors f.n 0 (permute f.pivots 0 b))

/-- `f.solve b`: the solution `x` of `a x = b`. -/
def solve (f : Lu R) (b : Array R) : Outcome (Array R) := do
  promise (b.size == f.n)
  return f.substitute b

/-- `f.inverse`: the inverse, solved column by column from the identity. -/
def inverse (f : Lu R) : Dense R :=
  let columns := (List.range f.n).map fun j =>
    f.substitute (Vec.build f.n fun i => if i = j then 1 else 0)
  Dense.build f.n f.n fun r c => Vec.entry (columns.getD c #[]) r

end Lu

end BlockAdmm
