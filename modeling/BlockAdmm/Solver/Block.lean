/-
  Blocks: a term of the objective with its variables and its part `A` of the constraints.

  A block step minimizes the term plus `(rho / 2) * |A x - u|²` over the variables of the block.  How
  far the proximal operator of the term does that depends on `A`:

  * `Aᵀ A = alpha * I`: it does it exactly, with penalty `rho * alpha` at `Aᵀ u / alpha`;
  * `A` is zero: the constraints do not matter, so there is no penalty;
  * otherwise the square is replaced by its linear part at the current `x` and `(mu / 2) * |· - x|²`,
    with `mu` a little above the estimate of `|A|²`.
-/
import BlockAdmm.Prox.Operator
import BlockAdmm.Solver.Objective

namespace BlockAdmm

/-- How a block step comes down to a proximal operator. -/
inductive Coupling (R : Type) where
  /-- `Aᵀ A` is `alpha` times the identity -/
  | scalar (alpha : R)
  /-- no constraint touches the block -/
  | unconstrained
  /-- a linearized step with the bound `mu` -/
  | linearized (mu : R)

namespace Coupling

open Scalar

variable {R : Type} [Scalar R]

/-- `normIterations`: the steps of the estimate of the norm. -/
def normIterations : Nat := 50

/-- `margin`: how far above the estimate the bound is put. -/
def margin : R := 1.01

/-- `describe c`: the coupling as text. -/
def describe : Coupling R → String
  | scalar alpha => "Scalar(" ++ debug alpha ++ ")"
  | unconstrained => "Unconstrained"
  | linearized mu => "Linearized(" ++ debug mu ++ ")"

/-- `c.penalty rho`: the penalty of the proximal operator. -/
def penalty (rho : R) : Coupling R → R
  | scalar alpha => rho * alpha
  | unconstrained => 0
  | linearized mu => rho * mu

/-- `gramScalar? a layout`: the `alpha` with `aᵀ a = alpha * I`, if `a` touches every variable. -/
def gramScalar? (a : BlockMatrix R) (layout : Layout) : Outcome (Option R) := do
  if a.colDims.size == layout.count then (← a.gram).scalar?
  else return none

/-- `estimated a`: the coupling by the estimate of the norm. -/
def estimated (a : BlockMatrix R) : Outcome (Coupling R) := do
  let norm ← a.normEstimate normIterations
  if 0 < norm then return linearized (margin * norm * norm) else return unconstrained

/-- `of a layout`: the coupling of a block whose part of the constraints is `a`. -/
def of (a : BlockMatrix R) (layout : Layout) : Outcome (Coupling R) := do
  let gram ← gramScalar? a layout
  if a.isEmpty then return unconstrained
  else
    match gram with
    | some alpha => if 0 < alpha then return scalar alpha else estimated a
    | none => estimated a

end Coupling

/-- A term with all that its steps need. -/
structure TermBlock (R : Type) where
  index : Nat
  layout : Layout
  /-- the columns of the constraints that belong to the block -/
  a : BlockMatrix R
  /-- the transpose of `a` -/
  back : BlockMatrix R
  coupling : Coupling R
  /-- the penalty of the proximal operator -/
  rho : R
  operator : Operator R

namespace TermBlock

open Scalar

variable {R : Type} [Scalar R]

/-- `build index term layout all rho`: the block of a term, where `all` are the constraints. -/
def build (index : Nat) (term : Expr R) (layout : Layout) (all : BlockMatrix R) (rho : R) :
    Compile R (TermBlock R) := do
  let a := all.restrictCols layout.ids
  let back ← a.transpose
  let coupling ← Coupling.of a layout
  let penalty := coupling.penalty rho
  Compile.note ⟨.debug, fun _ =>
    "block " ++ toString index ++ ": " ++ toString layout.n ++ " variables, " ++ coupling.describe
      ++ ", rho " ++ scientific 3 penalty⟩
  let input ← TermInput.build term layout penalty
  let operator ← Operator.build input
  return ⟨index, layout, a, back, coupling, penalty, operator⟩

/-- `b.target u x`: the point at which the proximal operator is applied, when the other blocks leave
    `u` and the iterate is `x`. -/
def target (b : TermBlock R) (u x : BlockVector R) : Outcome (Array R) := do
  match b.coupling with
  | .scalar alpha => return Vec.scale (recip alpha) (← b.layout.flatten (← b.back.apply u))
  | .unconstrained => b.layout.flatten x
  | .linearized mu =>
    let r ← (← b.a.apply x).addScaled (-1) u
    let g ← b.layout.flatten (← b.back.apply r)
    Vec.addScaled (-recip mu) g (← b.layout.flatten x)

/-- `b.step u x`: the new values of the variables of the block. -/
def step (b : TermBlock R) (u x : BlockVector R) : Logged (BlockVector R) := do
  let y ← b.operator.apply (← b.target u x)
  if y.size != b.layout.n then
    fail (.blockValues b.index y.size b.layout.n)
  else
    Logged.note ⟨.trace, fun _ =>
      "block " ++ toString b.index ++ " (rho " ++ scientific 3 b.rho ++ "): " ++ Vec.debug y⟩
    b.layout.split y

end TermBlock

end BlockAdmm
