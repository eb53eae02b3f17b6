/-
  Smooth functions of a vector.

  `Smooth R` is what an iteration asks of one: its value and its derivatives at a point, and how a point is
  moved into its domain.  The functions that are known by name (`SmoothFunction`) are each the sum of one
  convex function of the components.
-/
import BlockAdmm.Vec

namespace BlockAdmm

/-- A smooth function, whose matrix of second derivatives is a diagonal. -/
structure Smooth (R : Type) where
  /-- the value; outside of the domain there is no bound -/
  eval : Array R → R
  /-- the derivatives -/
  grad : Array R → Array R
  /-- the second derivatives -/
  hess : Array R → Array R
  /-- the point moved into the domain -/
  feasible : Array R → Array R
  /-- whether the function is defined everywhere -/
  fullDomain : Bool
  size_grad : ∀ y, (grad y).size = y.size
  size_hess : ∀ y, (hess y).size = y.size
  size_feasible : ∀ y, (feasible y).size = y.size

/-- The smooth functions that the Newton iterations know. -/
inductive SmoothFunction where
  /-- `1 / y` on the positive numbers -/
  | invPos
  /-- `-log y` on the positive numbers -/
  | negLog
  /-- `exp y` -/
  | exp
  /-- `log (1 + exp y)` -/
  | logistic
  /-- `y²` -/
  | sumSquare
  deriving DecidableEq

namespace SmoothFunction

open Scalar

variable {R : Type} [Scalar R]

/-- `sigmoid v = 1 / (1 + exp (-v))`, so written that the exponential stays below one. -/
def sigmoid (v : R) : R :=
  if 0 ≤ v then 1 / (1 + Scalar.exp (-v))
  else
    let e := Scalar.exp v
    e / (1 + e)

/-- `f.value v`: the function of one component; outside of its domain there is no bound. -/
def value : SmoothFunction → R → R
  | invPos, v => if 0 < v then 1 / v else infinity
  | negLog, v => if 0 < v then -Scalar.log v else infinity
  | exp, v => Scalar.exp v
  | logistic, v => larger v 0 + log1p (Scalar.exp (-Scalar.abs v))
  | sumSquare, v => v * v

/-- `f.slope v`: the derivative at one component. -/
def slope : SmoothFunction → R → R
  | invPos, v => (-1) / (v * v)
  | negLog, v => (-1) / v
  | exp, v => Scalar.exp v
  | logistic, v => sigmoid v
  | sumSquare, v => 2.0 * v

/-- `f.curvature v`: the second derivative at one component. -/
def curvature : SmoothFunction → R → R
  | invPos, v => 2.0 / (v * v * v)
  | negLog, v => 1 / (v * v)
  | exp, v => Scalar.exp v
  | logistic, v =>
    let s := sigmoid v
    s * (1 - s)
  | sumSquare, _ => 2.0

/-- `fullDomain`: whether the function is defined everywhere. -/
def fullDomain : SmoothFunction → Bool
  | invPos | negLog => false
  | exp | logistic | sumSquare => true

/-- `feasibleFloor`: how far inside a domain of positive numbers a point is moved. -/
def feasibleFloor : R := 1e-6

/-- `f.eval y`: the sum over the components. -/
def eval (f : SmoothFunction) (y : Array R) : R := total (y.toList.map f.value)

/-- `f.grad y`: the derivatives. -/
def grad (f : SmoothFunction) (y : Array R) : Array R := y.map f.slope

/-- `f.hess y`: the second derivatives. -/
def hess (f : SmoothFunction) (y : Array R) : Array R := y.map f.curvature

/-- `f.feasible y`: the point moved into the domain. -/
def feasible (f : SmoothFunction) (y : Array R) : Array R :=
  if f.fullDomain then y else y.map fun v => larger v feasibleFloor

theorem size_grad (f : SmoothFunction) (y : Array R) : (f.grad y).size = y.size := Array.size_map ..

theorem size_hess (f : SmoothFunction) (y : Array R) : (f.hess y).size = y.size := Array.size_map ..

theorem size_feasible (f : SmoothFunction) (y : Array R) : (f.feasible y).size = y.size := by
  rw [feasible]
  split
  · rfl
  · exact Array.size_map ..

/-- `f.smooth`: the function with its derivatives. -/
def smooth (f : SmoothFunction) : Smooth R where
  eval := f.eval
  grad := f.grad
  hess := f.hess
  feasible := f.feasible
  fullDomain := f.fullDomain
  size_grad := f.size_grad
  size_hess := f.size_hess
  size_feasible := f.size_feasible

end SmoothFunction

end BlockAdmm
