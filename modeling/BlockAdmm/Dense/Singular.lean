/-
  Functions of a matrix through its singular values, by one-sided Jacobi rotations.

  A turn of two columns makes them orthogonal.  Their inner product is what the turn removes from
  the products of all pairs of columns, and a turn is made only while it is above `eps²` and above
  `eps` times the lengths; so there are at most `pairProducts / (2 * eps⁴)` turns.  In the end the
  length of a column is a singular value and its direction the left vector.
-/
import BlockAdmm.Dense.Eigen

namespace BlockAdmm

namespace Singular

open Scalar

variable {R : Type} [Scalar R]

/-- The columns `a` under rotation, the product `v` of the rotations, and the number of turns. -/
structure State (R : Type) where
  a : Dense R
  v : Dense R
  turns : Nat

/-- `columnProduct a i j`: the inner product of two columns. -/
def columnProduct (a : Dense R) (i j : Nat) : R :=
  sumBelow (fun k => a.entry k i * a.entry k j) a.m

/-- `skewed eps alpha beta gamma`: whether columns with squared lengths `alpha` and `beta` and inner
    product `gamma` are far from orthogonal. -/
def skewed (eps alpha beta gamma : R) : Bool :=
  eps * eps * alpha * beta < gamma * gamma && eps * eps < abs gamma

/-- `angle alpha beta gamma`: the turn of at most 45 degrees that makes the columns orthogonal. -/
def angle (alpha beta gamma : R) : Eigen.Angle R :=
  let zeta := (beta - alpha) / ((1 + 1) * gamma)
  let t :=
    if 0 < zeta then 1 / (zeta + sqrt (1 + zeta * zeta))
    else (-1) / (-zeta + sqrt (1 + zeta * zeta))
  let c := recip (sqrt (1 + t * t))
  ⟨t, c, c * t⟩

/-- `visit eps st ij`: one pair of a sweep. -/
def visit (eps : R) (st : State R) (ij : Nat × Nat) : State R :=
  let (i, j) := ij
  let alpha := columnProduct st.a i i
  let beta := columnProduct st.a j j
  let gamma := columnProduct st.a i j
  if skewed eps alpha beta gamma then
    let g := angle alpha beta gamma
    ⟨Eigen.turnColumns st.a i j g, Eigen.turnColumns st.v i j g, st.turns + 1⟩
  else st

/-- `sweep eps st`: all pairs once. -/
def sweep (eps : R) (st : State R) : State R := (pairsBelow st.a.n).foldl (visit eps) st

/-- `sweeps eps rounds st`: sweeps until one makes no turn. -/
def sweeps (eps : R) : Nat → State R → Outcome (State R)
  | 0, _ => .error .unending
  | rounds + 1, st =>
    let next := sweep eps st
    if next.turns = st.turns then .ok next else sweeps eps rounds next

/-- `pairProducts a`: the sum of the squared inner products of different columns. -/
def pairProducts (a : Dense R) : R :=
  sumBelow (fun i => sumBelow (fun j =>
    if i = j then 0 else columnProduct a i j * columnProduct a i j) a.n) a.n

/-- `decompose a eps`: rotations until all columns are nearly orthogonal. -/
def decompose (a : Dense R) (eps : R) : Outcome (State R) :=
  sweeps eps (roundsFor (pairProducts a / ((1 + 1) * (eps * eps * (eps * eps)))))
    ⟨a, Dense.identity a.n, 0⟩

/-- `recompose f eps st`: the sum of `(f σ / σ) * a_j * v_jᵀ` over the columns whose length `σ` is
    above `eps`. -/
def recompose (f : R → R) (eps : R) (st : State R) : Dense R :=
  let ratios := (List.range st.a.n).map fun j =>
    let sigma := Vec.norm (st.a.column j)
    if sigma ≤ eps then none else some (f sigma / sigma)
  Dense.build st.a.m st.a.n fun r c =>
    (ratios.zipIdx).foldl
      (fun sum vj => match vj.1 with
        | none => sum
        | some ratio => sum + ratio * st.a.entry r vj.2 * st.v.entry c vj.2) 0

/-- `mapTall f a eps`: the function of a matrix with at least as many rows as columns. -/
def mapTall (f : R → R) (a : Dense R) (eps : R) : Outcome (Dense R) := do
  let st ← decompose a eps
  return recompose f eps st

/-- `mapValues f a eps`: the matrix with each singular value replaced by its image, where values not
    above `eps` are left out; a wide matrix goes through its transpose. -/
def mapValues (f : R → R) (a : Dense R) (eps : R) : Outcome (Dense R) :=
  if a.m < a.n then do
    let t ← mapTall f a.transpose eps
    return t.transpose
  else mapTall f a eps

end Singular

end BlockAdmm
