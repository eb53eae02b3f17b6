/-
  Damped Newton iterations for `alpha * f(y(x)) + (rho / 2) * |x - v|²` with a smooth `f`.

  The argument `y(x)` is a scaling of the components, where the Newton system is diagonal, or a dense
  map, where the system is factored in every round.  A step is halved until the function falls by a
  share of what its slope promises; after each trial the point is moved into the domain of `f`.
-/
import BlockAdmm.Log
import BlockAdmm.Prox.Argument
import BlockAdmm.Prox.Smooth

namespace BlockAdmm

/-- How the argument of `f` depends on the variables. -/
inductive ArgMap (R : Type) where
  /-- `β x + g` -/
  | scaling (s : Scaling R)
  /-- `h x + g` -/
  | dense (h : Dense R) (g : Array R)

namespace Newton

open Scalar

variable {R : Type} [Scalar R]

/-- `maxRounds`: how many rounds an iteration may take. -/
def maxRounds : Nat := 100

/-- `tolerance`: the relative length of a step that ends an iteration. -/
def tolerance : R := 1e-10

/-- `decreaseShare`: the share of the promised decrease that a step must bring. -/
def decreaseShare : R := 0.25

/-- `shrink`: the factor by which a step that brings too little is shortened. -/
def shrink : R := 0.5

/-- `leastStep`: a step shorter than this ends the search. -/
def leastStep : R := 1e-12

/-- `maxHalvings`: more halvings than it takes from one to below `leastStep`. -/
def maxHalvings : Nat := 64

/-- The function to be minimized, without the point `v`. -/
structure Objective (R : Type) where
  f : Smooth R
  alpha : R
  map : ArgMap R
  rho : R

namespace Objective

/-- `o.argument x = y(x)`. -/
def argument (o : Objective R) (x : Array R) : Outcome (Array R) :=
  match o.map with
  | .scaling s => .ok (s.toArg x)
  | .dense h g => do Vec.addScaled 1 g (← h.mulVec x)

/-- `squaredDistance x v`: the sum of the squared differences. -/
def squaredDistance (x v : Array R) : R :=
  total ((x.toList.zip v.toList).map fun p => (p.1 - p.2) * (p.1 - p.2))

/-- `o.value v x`: the function at `x`. -/
def value (o : Objective R) (v x : Array R) : Outcome R := do
  let y ← o.argument x
  return o.alpha * o.f.eval y + 0.5 * o.rho * squaredDistance x v

/-- `o.feasible x`: the point moved into the domain, if the argument is a scaling. -/
def feasible (o : Objective R) (x : Array R) : Array R :=
  match o.map with
  | .scaling s => s.fromArg (o.f.feasible (s.toArg x)) x
  | .dense .. => x

/-- `o.penaltyGrad v x`: the gradient of the penalty. -/
def penaltyGrad (o : Objective R) (v x : Array R) : Array R :=
  Vec.build (min x.size v.size) fun i => o.rho * (Vec.entry x i - Vec.entry v i)

/-- The gradient and the Newton direction at a point. -/
structure Step (R : Type) where
  grad : Array R
  dir : Array R

/-- `o.scaledStep s v x gy hy`: the step for a scaling, component by component; a component without
    curvature stays where it is. -/
def scaledStep (o : Objective R) (s : Scaling R) (v x gy hy : Array R) : Outcome (Step R) := do
  let n := v.size
  promise (n ≤ s.beta.size && n ≤ gy.size && n ≤ hy.size && n ≤ x.size)
  let grad := Vec.build n fun i =>
    Vec.entry (o.penaltyGrad v x) i + o.alpha * Vec.entry s.beta i * Vec.entry gy i
  let dir := Vec.build n fun i =>
    let h := o.alpha * Vec.entry s.beta i * Vec.entry s.beta i * Vec.entry hy i + o.rho
    if 0 < h then -Vec.entry grad i / h else 0
  return ⟨grad, dir⟩

/-- `o.hessian h n hy`: the matrix `alpha * hᵀ diag(hy) h + rho * I` of size `n`. -/
def hessian (o : Objective R) (h : Dense R) (n : Nat) (hy : Array R) : Outcome (Dense R) := do
  let scaled := Dense.build h.m n fun r c => o.alpha * Vec.entry hy r * h.entry r c
  let m ← h.transpose.mulMat scaled
  return Dense.build m.m m.n fun r c => if r = c then m.entry r c + o.rho else m.entry r c

/-- `o.denseStep h v x gy hy`: the step for a dense map, from the factored system. -/
def denseStep (o : Objective R) (h : Dense R) (v x gy hy : Array R) : Outcome (Step R) := do
  let grad ← Vec.addScaled o.alpha (← h.transMulVec gy) (o.penaltyGrad v x)
  let hess ← o.hessian h v.size hy
  match Lu.of? hess 0 with
  | none => fail .singularNewton
  | some lu =>
    let d ← lu.solve grad
    return ⟨grad, d.map fun t => -t⟩

/-- `o.step v x`: the gradient and the Newton direction at `x`. -/
def step (o : Objective R) (v x : Array R) : Outcome (Step R) := do
  let y ← o.argument x
  let gy := o.f.grad y
  let hy := o.f.hess y
  match o.map with
  | .scaling s => o.scaledStep s v x gy hy
  | .dense h _ => o.denseStep h v x gy hy

/-- `advanced x t d`: the point `x + t * d`. -/
def advanced (x : Array R) (t : R) (d : Array R) : Array R :=
  Vec.build (min x.size d.size) fun i => Vec.entry x i + t * Vec.entry d i

/-- What a line search found: a better point with its value, or that the steps became too short. -/
inductive Found (R : Type) where
  | better (x : Array R) (value : R)
  | tooShort (t : R)

/-- `o.search v x phi st slope tries t`: halves the step `t` until the function falls enough.  After
    `maxHalvings` the step is too short whatever the scalars are. -/
def search (o : Objective R) (v x : Array R) (phi : R) (dir : Array R) (slope : R) :
    Nat → R → Outcome (Found R)
  | 0, t => .ok (.tooShort t)
  | tries + 1, t => do
    let next := o.feasible (advanced x t dir)
    let value ← o.value v next
    if value ≤ phi + decreaseShare * t * slope then return .better next value
    let t := t * shrink
    if t < leastStep then return .tooShort t
    o.search v x phi dir slope tries t

/-- `o.isClose dirNorm x`: whether a step of this length is negligible at `x`. -/
def isClose (dirNorm : R) (x : Array R) : Bool := dirNorm ≤ tolerance * (1 + Vec.norm x)

/-- `o.rounds v left round x phi`: the iteration from `x`, where the function is `phi`, with `left`
    rounds to go. -/
def rounds (o : Objective R) (v : Array R) : Nat → Nat → Array R → R → Logged (Array R)
  | 0, _, _, _ => fail (.newtonUnfinished maxRounds)
  | left + 1, round, x, phi => do
    let st ← o.step v x
    let dirNorm := Vec.norm st.dir
    Logged.note ⟨.trace, fun _ =>
      "newton " ++ toString round ++ ": step " ++ scientific 3 dirNorm⟩
    if !isFinite dirNorm then fail .nonFiniteStep
    else if isClose dirNorm x then return x
    else
      let slope ← Vec.dot st.grad st.dir
      match ← o.search v x phi st.dir slope maxHalvings 1 with
      | .better x' phi' => o.rounds v left (round + 1) x' phi'
      | .tooShort t =>
        if isClose (t * dirNorm) x then return x else fail (.lineSearchFailed round)

/-- `o.minimize v`: the minimizer, from `v` moved into the domain. -/
def minimize (o : Objective R) (v : Array R) : Logged (Array R) := do
  let x := o.feasible v
  let phi ← o.value v x
  o.rounds v maxRounds 0 x phi

end Objective

end Newton

end BlockAdmm
