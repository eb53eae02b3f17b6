/-
  Vectors of scalars, as arrays, and the loops over them.  Every loop is written by index: entry
  `i` of the result is a formula in entries `i` of the operands, and a sum runs over the indices
  from the first.  `entry x i` reads zero beyond the end; the operations that take two vectors
  check their lengths first and end in a misuse if they differ.
-/
import BlockAdmm.Scalar
import BlockAdmm.Fault

namespace BlockAdmm.Vec

open Scalar

variable {R : Type} [Scalar R]

/-- `entry x i`: entry `i`, or zero beyond the end. -/
def entry (x : Array R) (i : Nat) : R := x.getD i 0

/-- `build n f`: the vector `f 0, …, f (n - 1)`. -/
def build (n : Nat) (f : Nat → R) : Array R := Array.ofFn (n := n) fun i => f i.val

omit [Scalar R] in
@[simp] theorem size_build (n : Nat) (f : Nat → R) : (build n f).size = n := by simp [build]

@[simp] theorem entry_build {n i : Nat} (f : Nat → R) (h : i < n) : entry (build n f) i = f i := by
  simp [entry, build, Array.getD, h]

/-- Two vectors of one length with the same entries are the same. -/
theorem ext_entry {x y : Array R} (hs : x.size = y.size)
    (h : ∀ i, i < x.size → entry x i = entry y i) : x = y := by
  apply Array.ext hs
  intro i hx hy
  have := h i hx
  simpa [entry, Array.getD, hx, hy] using this

/-- `zero n`: `n` zeros. -/
def zero (n : Nat) : Array R := build n fun _ => 0

/-- `inner x y`: the sum of the products of the entries, over the length of `x`. -/
def inner (x y : Array R) : R := sumBelow (fun i => entry x i * entry y i) x.size

/-- `dot x y`: the inner product of two vectors of one length. -/
def dot (x y : Array R) : Outcome R := do
  promise (x.size == y.size)
  return inner x y

/-- `norm x`: the Euclidean norm. -/
def norm (x : Array R) : R := sqrt (inner x x)

/-- `scale alpha x`: every entry times `alpha`. -/
def scale (alpha : R) (x : Array R) : Array R := x.map fun v => alpha * v

/-- `axpy alpha x y`: `y + alpha * x` over the entries of `y`. -/
def axpy (alpha : R) (x y : Array R) : Array R := build y.size fun i => entry y i + alpha * entry x i

/-- `addScaled alpha x y`: `y + alpha * x` for vectors of one length. -/
def addScaled (alpha : R) (x y : Array R) : Outcome (Array R) := do
  promise (x.size == y.size)
  return axpy alpha x y

/-- `increase y z`: `y` with the entries of `z` added as far as both reach. -/
def increase (y z : Array R) : Array R :=
  build y.size fun i => if i < z.size then entry y i + entry z i else entry y i

/-- `slice x o d`: the `d` entries from index `o` on. -/
def slice (x : Array R) (o d : Nat) : Outcome (Array R) := do
  promise (o + d ≤ x.size)
  return build d fun i => entry x (o + i)

/-- `overwrite x o y`: `x` with the entries of `y` from index `o` on. -/
def overwrite (x : Array R) (o : Nat) (y : Array R) : Outcome (Array R) := do
  promise (o + y.size ≤ x.size)
  return build x.size fun i => if o ≤ i && i < o + y.size then entry y (i - o) else entry x i

/-- `equal x y`: the same length and equal entries, a NaN being equal to nothing. -/
def equal (x y : Array R) : Bool :=
  x.size == y.size && (List.range x.size).all fun i => entry x i == entry y i

/-- `same x y`: the same length and identical entries. -/
def same (x y : Array R) : Bool :=
  x.size == y.size && (List.range x.size).all fun i => Scalar.same (entry x i) (entry y i)

/-- `debug x`: the vector between brackets. -/
def debug (x : Array R) : String := debugList x.toList

end BlockAdmm.Vec
