/-
  Functions of a symmetric matrix through its eigenvalues, by cyclic Jacobi rotations.

  A turn in the plane of two indices `p < q` makes the entry `(p, q)` zero and takes exactly twice
  its square from the sum of the squares off the diagonal.  A turn is made only while the square is
  above `eps²`, so there are at most `offSquares / (2 * eps²)` turns; a sweep over all pairs without
  a turn ends the loop.  The bound serves as the number of sweeps that the loop may take, with an
  allowance for sweeps that only rounding brings about.
-/
import BlockAdmm.Dense.Basic

namespace BlockAdmm

/-- `roundsFor x`: a number of rounds not below `x`, with an allowance for rounding. -/
def roundsFor {R : Type} [Scalar R] (x : R) : Nat := Scalar.ceilNat x + 1000

/-- The pairs `p < q` of indices below `n`, in the order of a sweep. -/
def pairsBelow (n : Nat) : List (Nat × Nat) :=
  (List.range n).flatMap fun p => (List.range' (p + 1) (n - (p + 1))).map fun q => (p, q)

namespace Eigen

open Scalar

variable {R : Type} [Scalar R]

/-- The matrix `s` under rotation, the product `z` of the rotations, and the number of turns. -/
structure State (R : Type) where
  s : Dense R
  z : Dense R
  turns : Nat

/-- Tangent, cosine and sine of a turn. -/
structure Angle (R : Type) where
  t : R
  c : R
  s : R

/-- `angle spp sqq spq`: the turn of at most 45 degrees that makes the entry zero. -/
def angle (spp sqq spq : R) : Angle R :=
  let theta := (sqq - spp) / ((1 + 1) * spq)
  let t := signum theta / (abs theta + sqrt (1 + theta * theta))
  let c := recip (sqrt (1 + t * t))
  ⟨t, c, c * t⟩

/-- `negligible tol spp sqq spq`: the entry is small beside the diagonal, or in itself. -/
def negligible (tol spp sqq spq : R) : Bool :=
  spq * spq ≤ tol * abs (spp * sqq) || spq * spq ≤ tol

/-- `turnBoth s p q`: the matrix after the turn from both sides. -/
def turnBoth (s : Dense R) (p q : Nat) (g : Angle R) : Dense R :=
  let spp := s.entry p p
  let sqq := s.entry q q
  let spq := s.entry p q
  let first (k : Nat) := g.c * s.entry k p - g.s * s.entry k q
  let second (k : Nat) := g.s * s.entry k p + g.c * s.entry k q
  Dense.build s.m s.n fun i j =>
    if i = p then
      if j = p then spp - g.t * spq else if j = q then 0 else first j
    else if i = q then
      if j = q then sqq + g.t * spq else if j = p then 0 else second j
    else if j = p then first i
    else if j = q then second i
    else s.entry i j

/-- `turnColumns z p q g`: columns `p` and `q` after the turn from the right. -/
def turnColumns (z : Dense R) (p q : Nat) (g : Angle R) : Dense R :=
  Dense.build z.m z.n fun i j =>
    if j = p then g.c * z.entry i p - g.s * z.entry i q
    else if j = q then g.s * z.entry i p + g.c * z.entry i q
    else z.entry i j

/-- `visit tol st pq`: one pair of a sweep. -/
def visit (tol : R) (st : State R) (pq : Nat × Nat) : State R :=
  let (p, q) := pq
  let spp := st.s.entry p p
  let sqq := st.s.entry q q
  let spq := st.s.entry p q
  if negligible tol spp sqq spq then st
  else
    let g := angle spp sqq spq
    ⟨turnBoth st.s p q g, turnColumns st.z p q g, st.turns + 1⟩

/-- `sweep tol st`: all pairs once. -/
def sweep (tol : R) (st : State R) : State R := (pairsBelow st.s.n).foldl (visit tol) st

/-- `sweeps tol rounds st`: sweeps until one makes no turn. -/
def sweeps (tol : R) : Nat → State R → Outcome (State R)
  | 0, _ => .error .unending
  | rounds + 1, st =>
    let next := sweep tol st
    if next.turns = st.turns then .ok next else sweeps tol rounds next

/-- `offSquares s`: the sum of the squares off the diagonal. -/
def offSquares (s : Dense R) : R :=
  sumBelow (fun c => sumBelow (fun r => if r = c then 0 else s.entry r c * s.entry r c) s.m) s.n

/-- `decompose s eps`: rotations of a symmetric matrix until what is off the diagonal is
    negligible. -/
def decompose (s : Dense R) (eps : R) : Outcome (State R) :=
  sweeps (eps * eps) (roundsFor (offSquares s / ((1 + 1) * (eps * eps)))) ⟨s, Dense.identity s.n, 0⟩

/-- `symmetricPart a`: the mean of the matrix and its transpose. -/
def symmetricPart (a : Dense R) : Dense R :=
  Dense.build a.m a.n fun r c =>
    if r < c then (a.entry r c + a.entry c r) / (1 + 1)
    else if c < r then (a.entry c r + a.entry r c) / (1 + 1)
    else a.entry r c

/-- `recompose z values`: the sum of `value * z_i * z_iᵀ` over the columns that have a value. -/
def recompose (z : Dense R) (values : List (Option R)) : Dense R :=
  Dense.build z.n z.n fun r c =>
    (values.zipIdx).foldl
      (fun sum vi => match vi.1 with
        | none => sum
        | some e => sum + e * z.entry r vi.2 * z.entry c vi.2) 0

/-- `mapValues f a eps`: the symmetric part of a square matrix with each eigenvalue replaced by its
    image; an eigenvalue without an image is left out. -/
def mapValues (f : R → Option R) (a : Dense R) (eps : R) : Outcome (Dense R) := do
  promise (a.m == a.n)
  let st ← decompose (symmetricPart a) eps
  return recompose st.z ((List.range a.n).map fun i => f (st.s.entry i i))

end Eigen

end BlockAdmm
