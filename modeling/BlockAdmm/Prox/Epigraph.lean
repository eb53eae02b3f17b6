/-
  Projection onto an epigraph `alpha * f(x) ≤ t` of a smooth function.

  A point outside of it is projected to `(x(λ), s + λ)`, where `x(λ)` is the proximal point of
  `λ * alpha * f` at `v`, and `λ > 0` is the root of the falling function
  `alpha * f(x(λ)) - s - λ`.  The root is bracketed by doubling and then found by Newton's method,
  which falls back on halving the bracket.
-/
import BlockAdmm.Prox.Newton

namespace BlockAdmm

/-- The epigraph of `alpha * f` in the variables `x` and `t` of a layout. -/
structure Epigraph (R : Type) where
  f : SmoothFunction
  alpha : R
  layout : Layout
  x : String
  t : String

namespace Epigraph

open Scalar

variable {R : Type} [Scalar R]

/-- `maxRounds`: how many rounds the search for the root may take. -/
def maxRounds : Nat := 100

/-- `maxDoublings`: how often the bracket may be doubled. -/
def maxDoublings : Nat := 100

/-- `tolerance`: the relative accuracy of the root. -/
def tolerance : R := 1e-9

/-- `blank f`: the epigraph of `f` before anything is known of its variables. -/
def blank (f : SmoothFunction) : Epigraph R := ⟨f, 1, Layout.empty, "", ""⟩

/-- `of f input`: the epigraph of a term, whose arguments must be two different variables, the second
    of them a scalar. -/
def of (f : SmoothFunction) (input : TermInput R) : Outcome (Epigraph R) := do
  let kind := input.function.kind
  match input.args with
  | [a, bound] =>
    match ← a.plainVariable?, ← bound.plainVariable? with
    | some x, some t =>
      if x == t || bound.dim != 1 || input.layout.count != 2 then fail (.epigraphNotDistinct kind)
      else return ⟨f, input.function.alpha, input.layout, x, t⟩
    | _, _ => fail (.epigraphNotPlain kind)
  | args => fail (.epigraphArity args.length)

/-- `e.value x = alpha * f(x)`. -/
def value (e : Epigraph R) (x : Array R) : R := e.alpha * e.f.eval x

/-- A point `x(λ)` with the residual `alpha * f(x(λ)) - s - λ` and its derivative. -/
structure Probe (R : Type) where
  residual : R
  slope : R
  point : Array R

/-- `e.objective n rho`: the problem of the proximal point in `n` components with penalty `rho`. -/
def objective (e : Epigraph R) (n : Nat) (rho : R) : Newton.Objective R :=
  ⟨e.f.smooth, e.alpha, .scaling ⟨Vec.build n fun _ => 1, Vec.zero n⟩, rho⟩

/-- `e.slopeTerm lambda gh`: what a component with gradient and curvature `gh` takes from the
    derivative of the residual. -/
def slopeTerm (e : Epigraph R) (lambda : R) (gh : R × R) : R :=
  let ag := e.alpha * gh.1
  ag * ag / (1 + lambda * e.alpha * gh.2)

/-- `e.residualSlope x lambda`: the derivative of the residual. -/
def residualSlope (e : Epigraph R) (x : Array R) (lambda : R) : R :=
  -total (((e.f.grad x).toList.zip (e.f.hess x).toList).map (e.slopeTerm lambda)) - 1

/-- `e.probe v s lambda`: the point of `lambda`. -/
def probe (e : Epigraph R) (v : Array R) (s lambda : R) : Logged (Probe R) := do
  let x ← (e.objective v.size (1 / lambda)).minimize v
  return ⟨e.value x - s - lambda, e.residualSlope x lambda, x⟩

/-- `e.bracket v s doublings lo hi`: doubles `hi` until the residual there is not positive. -/
def bracket (e : Epigraph R) (v : Array R) (s : R) : Nat → R → R → Logged (R × R)
  | doublings, lo, hi => do
    let p ← e.probe v s hi
    if 0 < p.residual then
      match doublings with
      | 0 => fail .epigraphUnbounded
      | left + 1 => e.bracket v s left hi (hi * 2.0)
    else return (lo, hi)

/-- `isRoot p s lambda lo hi`: whether the residual or the bracket is small enough. -/
def isRoot (p : Probe R) (s lambda lo hi : R) : Bool :=
  abs p.residual ≤ tolerance * (1 + abs s + lambda) || hi - lo ≤ tolerance * (1 + hi)

/-- `e.rounds v s left round lo hi lambda`: the search for the root between `lo` and `hi`, with
    `left` rounds to go. -/
def rounds (e : Epigraph R) (v : Array R) (s : R) : Nat → Nat → R → R → R → Logged (Probe R × R)
  | 0, _, _, _, _ => fail (.epigraphUnfinished maxRounds)
  | left + 1, round, lo, hi, lambda => do
    let p ← e.probe v s lambda
    Logged.note ⟨.trace, fun _ =>
      "epigraph " ++ toString round ++ ": lambda " ++ scientific 3 lambda ++ " residual "
        ++ scientific 3 p.residual⟩
    if isRoot p s lambda lo hi then return (p, lambda)
    else
      let lo' := if 0 < p.residual then lambda else lo
      let hi' := if 0 < p.residual then hi else lambda
      let next := lambda - p.residual / p.slope
      let inside := lo' < next && next < hi'
      e.rounds v s left (round + 1) lo' hi' (if inside then next else 0.5 * (lo' + hi'))

/-- `e.place v x t`: the flat vector with the parts of the two variables. -/
def place (e : Epigraph R) (v x : Array R) (t : R) : Outcome (Array R) := do
  let n := x.size
  let ox := ((e.layout.get? e.x).getD ⟨0, n⟩).offset
  let ot := ((e.layout.get? e.t).getD ⟨n, 1⟩).offset
  let out ← Vec.overwrite v ox x
  Vec.overwrite out ot #[t]

/-- `e.project v`: the projection of a flat vector; a point of the epigraph stays. -/
def project (e : Epigraph R) (v : Array R) : Logged (Array R) := do
  let blocks ← e.layout.split v
  let vx ← blocks.getOrZero e.x 0
  let vt ← blocks.getOrZero e.t 1
  promise (0 < vt.size)
  let s := Vec.entry vt 0
  if Vec.equal (e.f.feasible vx) vx && e.value vx ≤ s then return v
  else
    let (lo, hi) ← e.bracket vx s maxDoublings 0 1
    let (p, lambda) ← e.rounds vx s maxRounds 0 lo hi (0.5 * (lo + hi))
    e.place v p.point (s + lambda)

end Epigraph

end BlockAdmm
