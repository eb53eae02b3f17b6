/-
  Proximal operators in closed form: for linear terms, sums of squares, norms and logarithms.

  Each operator is made from the input of a term (`of`) and gives, at a point `v`, a minimizer of the
  term plus `(rho / 2) * |x - v|²` (`apply`).
-/
import BlockAdmm.Prox.Spectral

namespace BlockAdmm

open Scalar

/-! ## Linear terms -/

/-- The operator of a term with gradient `c`: a shift by `-c / rho`. -/
structure LinearOperator (R : Type) where
  c : Array R
  rho : R

namespace LinearOperator

variable {R : Type} [Scalar R]

/-- `blank`: no gradient and no penalty. -/
def blank : LinearOperator R := ⟨#[], 0⟩

/-- `gradient input`: the sum of `alpha * Hᵀ 1` over the arguments. -/
def gradient (input : TermInput R) : Outcome (Array R) := do
  room input.layout.n
  input.args.foldlM (fun c a => do
    let ca ← a.transApply input.layout (Vec.build a.dim fun _ => input.function.alpha)
    return Vec.increase c ca) (Vec.zero input.layout.n)

/-- `of input`: the operator of a term, which needs a penalty unless its gradient is zero. -/
def of (input : TermInput R) : Outcome (LinearOperator R) := do
  let c ← gradient input
  if input.rho == 0 && c.any (fun v => v != 0) then fail .linearUnbounded
  else return ⟨c, input.rho⟩

/-- `o.apply v`: the shifted point. -/
def apply (o : LinearOperator R) (v : Array R) : Array R :=
  if o.rho == 0 then v
  else Vec.build (min v.size o.c.size) fun i => Vec.entry v i - Vec.entry o.c i / o.rho

end LinearOperator

/-! ## Sums of squares -/

/-- How a sum of squares is minimized. -/
inductive SumSquareForm (R : Type) where
  /-- component by component -/
  | scaling (s : Scaling R)
  /-- from the factors of `2 alpha HᵀH + rho I` and the vector `2 alpha Hᵀ g` -/
  | general (lu : Lu R) (htg : Array R)

/-- The operator of `alpha * |H x + g|²`. -/
structure SumSquareOperator (R : Type) where
  alpha : R
  rho : R
  form : SumSquareForm R

namespace SumSquareOperator

variable {R : Type} [Scalar R]

/-- `normalMatrix alpha rho h n`: the matrix `2 alpha hᵀ h + rho I`. -/
def normalMatrix (alpha rho : R) (h : Dense R) : Outcome (Dense R) := do
  let m := (← h.transpose.mulMat h).scale (2.0 * alpha)
  return Dense.build m.m m.n fun r c => if r = c then m.entry r c + rho else m.entry r c

/-- `generalForm input a`: the form for any argument, if the minimizer is unique. -/
def generalForm (input : TermInput R) (a : Argument R) : Outcome (SumSquareForm R) := do
  let alpha := input.function.alpha
  let h ← a.dense input.layout
  let m ← normalMatrix alpha input.rho h
  match Lu.of? m 0 with
  | none => fail .noUniqueMinimizer
  | some lu =>
    let htg ← h.transMulVec a.offset
    return .general lu (htg.map fun v => v * (2.0 * alpha))

/-- `of input`: the operator of a term. -/
def of (input : TermInput R) : Outcome (SumSquareOperator R) := do
  let a ← input.single
  let form ← match input.scaling with
    | .ok s => pure (.scaling s)
    | .error (.failed _) => generalForm input a
    | .error f => .error f
  return ⟨input.function.alpha, input.rho, form⟩

/-- `o.apply v`: the minimizer; a component on which nothing depends stays. -/
def apply (o : SumSquareOperator R) (v : Array R) : Outcome (Array R) :=
  match o.form with
  | .scaling s => do
    promise (v.size ≤ s.beta.size && v.size ≤ s.offset.size)
    return Vec.build v.size fun i =>
      let b := Vec.entry s.beta i
      let d := 2.0 * o.alpha * b * b + o.rho
      if 0 < d then
        (o.rho * Vec.entry v i - 2.0 * o.alpha * b * Vec.entry s.offset i) / d
      else Vec.entry v i
  | .general lu htg =>
    lu.solve (Vec.build (min v.size htg.size) fun i => o.rho * Vec.entry v i - Vec.entry htg i)

end SumSquareOperator

/-! ## Norms -/

/-- `softThreshold k y`: `y` moved towards zero by `k`. -/
def softThreshold {R : Type} [Scalar R] (k y : R) : R :=
  if k < y then y - k else if y < -k then y + k else 0

/-- The operator of the sum of absolute values, with the penalty on each component. -/
structure NormL1Operator (R : Type) where
  alpha : R
  rates : Array R
  scaling : Scaling R

namespace NormL1Operator

variable {R : Type} [Scalar R]

/-- `of input`: the operator of a term. -/
def of (input : TermInput R) : Outcome (NormL1Operator R) := do
  let s ← input.scaling
  return ⟨input.function.alpha, s.rates input.rho, s⟩

/-- `o.apply v`: the soft threshold of each component; without a penalty it becomes zero. -/
def apply (o : NormL1Operator R) (v : Array R) : Array R :=
  let w := o.scaling.toArg v
  let y := Vec.build (min w.size o.rates.size) fun i =>
    let r := Vec.entry o.rates i
    if 0 < r then softThreshold (o.alpha / r) (Vec.entry w i) else 0
  o.scaling.fromArg y v

end NormL1Operator

/-- The operator of the Euclidean norm, with the penalty on the argument. -/
structure NormL2Operator (R : Type) where
  alpha : R
  rate : R
  scaling : Scaling R

namespace NormL2Operator

variable {R : Type} [Scalar R]

/-- `of input`: the operator of a term, whose argument must have one common factor. -/
def of (input : TermInput R) : Outcome (NormL2Operator R) := do
  let s ← input.scaling
  match s.uniform? with
  | none => fail (.notUniform .normL2)
  | some beta => return ⟨input.function.alpha, input.rho / (beta * beta), s⟩

/-- `o.shrinkage norm`: the factor by which an argument of this norm is scaled. -/
def shrinkage (o : NormL2Operator R) (norm : R) : R :=
  if 0 < o.rate && 0 < norm then larger (1 - o.alpha / (o.rate * norm)) 0 else 0

/-- `o.apply v`: the argument scaled towards zero. -/
def apply (o : NormL2Operator R) (v : Array R) : Array R :=
  let w := o.scaling.toArg v
  o.scaling.fromArg (Vec.scale (o.shrinkage (Vec.norm w)) w) v

end NormL2Operator

/-! ## Logarithms -/

/-- The operator of the sum of negative logarithms, with the penalty on each component. -/
structure NegLogOperator (R : Type) where
  alpha : R
  rates : Array R
  scaling : Scaling R

namespace NegLogOperator

variable {R : Type} [Scalar R]

/-- `of input`: the operator of a term, which needs a penalty on every component. -/
def of (input : TermInput R) : Outcome (NegLogOperator R) := do
  let s ← input.scaling
  let rates := s.rates input.rho
  if rates.any (fun r => r == 0) then fail .negLogUnbounded
  else return ⟨input.function.alpha, rates, s⟩

/-- `o.apply v`: the positive minimizer of each component. -/
def apply (o : NegLogOperator R) (v : Array R) : Array R :=
  let w := o.scaling.toArg v
  let y := Vec.build (min w.size o.rates.size) fun i =>
    let r := Vec.entry o.rates i
    if isFinite r then negLogPoint (Vec.entry w i) o.alpha r else Vec.entry w i
  o.scaling.fromArg y v

end NegLogOperator

end BlockAdmm
