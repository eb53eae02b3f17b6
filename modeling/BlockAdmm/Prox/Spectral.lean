/-
  Functions of a matrix through its spectrum.

  Such a function is the sum of one function `φ` over the eigenvalues or the singular values, and its
  proximal operator replaces each of them by the proximal point of `φ`.
-/
import BlockAdmm.Dense.Singular
import BlockAdmm.Prox.Argument

namespace BlockAdmm

/-- Which values of a matrix a function depends on. -/
inductive Spectrum where
  /-- the eigenvalues of the symmetric part of a square matrix -/
  | eigen
  /-- the singular values -/
  | singular
  deriving DecidableEq

def Spectrum.name : Spectrum → String
  | .eigen => "Eigen"
  | .singular => "Singular"

/-- The functions of a matrix. -/
inductive SpectralFunction where
  /-- the negative logarithm of the determinant -/
  | negLogDet
  /-- the sum of the singular values -/
  | nuclear
  deriving DecidableEq

open Scalar

/-- `negLogPoint w alpha r`: the positive minimizer of `-alpha * log y + (r / 2) * (y - w)²`. -/
def negLogPoint {R : Type} [Scalar R] (w alpha r : R) : R :=
  (w + sqrt (w * w + 4.0 * alpha / r)) / 2.0

namespace SpectralFunction

variable {R : Type} [Scalar R]

/-- `spectrum`: the values that the function depends on. -/
def spectrum : SpectralFunction → Spectrum
  | negLogDet => .eigen
  | nuclear => .singular

/-- `f.point alpha value`: the proximal point of `alpha * φ` with penalty one. -/
def point (f : SpectralFunction) (alpha value : R) : R :=
  match f with
  | negLogDet => negLogPoint value alpha 1
  | nuclear => larger (value - alpha) 0

/-- `minimizedAtZero`: whether the zero matrix is a minimizer, so that no penalty is needed. -/
def minimizedAtZero : SpectralFunction → Bool
  | negLogDet => false
  | nuclear => true

/-- `spectralBound`: the accuracy of the decompositions. -/
def spectralBound : R := 1e-12

/-- `f.mapMatrix t m n y`: the matrix `y` of `m` rows and `n` columns with every value of the spectrum
    replaced by its proximal point. -/
def mapMatrix (f : SpectralFunction) (t : R) (m n : Nat) (y : Array R) : Outcome (Array R) := do
  match f.spectrum with
  | .eigen =>
    let a ← Dense.ofColumns n n y
    return (← Eigen.mapValues (fun v => some (f.point t v)) a spectralBound).data
  | .singular =>
    let a ← Dense.ofColumns m n y
    return (← Singular.mapValues (f.point t) a spectralBound).data

end SpectralFunction

/-- The proximal operator of `alpha * f(β X + G)` for matrices of `m` rows and `n` columns, with the
    penalty `rate` on the argument. -/
structure SpectralOperator (R : Type) where
  f : SpectralFunction
  alpha : R
  rate : R
  m : Nat
  n : Nat
  scaling : Scaling R

namespace SpectralOperator

variable {R : Type} [Scalar R]

/-- `of f input`: the operator of a term, whose argument must be a matrix with one common factor. -/
def of (f : SpectralFunction) (input : TermInput R) : Outcome (SpectralOperator R) := do
  let kind := input.function.kind
  let a ← input.single
  let s ← input.scaling
  match s.uniform? with
  | none => fail (.notUniformMatrix kind)
  | some beta =>
    if f.spectrum == .eigen && a.m != a.n then fail (.matrixShape kind (a.m, a.n))
    else if input.rho == 0 && !f.minimizedAtZero then fail (.spectralUnbounded kind)
    else return ⟨f, input.function.alpha, input.rho / (beta * beta), a.m, a.n, s⟩

/-- `o.apply v`: the proximal point; without a penalty the argument becomes zero. -/
def apply (o : SpectralOperator R) (v : Array R) : Outcome (Array R) := do
  let y := o.scaling.toArg v
  if o.rate == 0 then return o.scaling.fromArg (Vec.zero y.size) v
  else
    let y ← o.f.mapMatrix (o.alpha / o.rate) o.m o.n y
    if y.any fun e => !isFinite e then fail .nonFiniteSpectrum
    else return o.scaling.fromArg y v

end SpectralOperator

end BlockAdmm
