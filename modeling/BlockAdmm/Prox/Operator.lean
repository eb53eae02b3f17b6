/-
  The proximal operators of objective terms.

  `Family.of?` is the register: which operator a term function has, if it has one.  A family becomes
  an operator when it is given the input of a term (`Family.init`); an operator is a fixed value, and
  applying it does not change it.
-/
import BlockAdmm.Prox.Epigraph
import BlockAdmm.Prox.Separable

namespace BlockAdmm

/-- The kinds of proximal operators. -/
inductive Family where
  | zero
  | linear
  | sumSquare
  | normL1
  | normL2
  | negLog
  | newton (f : SmoothFunction)
  | epigraph (f : SmoothFunction)
  | spectral (f : SpectralFunction)
  deriving DecidableEq

/-- The operator of an iteration: a smooth function with its argument. -/
abbrev NewtonOperator (R : Type) := Newton.Objective R

/-- A proximal operator. -/
inductive Operator (R : Type) where
  /-- no term: every point stays -/
  | zero
  | linear (o : LinearOperator R)
  | sumSquare (o : SumSquareOperator R)
  | normL1 (o : NormL1Operator R)
  | normL2 (o : NormL2Operator R)
  | negLog (o : NegLogOperator R)
  | newton (o : NewtonOperator R)
  | epigraph (e : Epigraph R)
  | spectral (o : SpectralOperator R)
  /-- an operator that was never given a term -/
  | uninitialized

namespace Family

/-- `of? kind epigraph`: the operator that is registered for a term function. -/
def of? : TermKind → Bool → Option Family
  | .zero, false => some .zero
  | .affine, false => some .linear
  | .sumSquare, false => some .sumSquare
  | .normL1, false => some .normL1
  | .normL2, false => some .normL2
  | .negLog, false => some .negLog
  | .invPos, false => some (.newton .invPos)
  | .exp, false => some (.newton .exp)
  | .logistic, false => some (.newton .logistic)
  | .sumSquare, true => some (.epigraph .sumSquare)
  | .negLog, true => some (.epigraph .negLog)
  | .invPos, true => some (.epigraph .invPos)
  | .exp, true => some (.epigraph .exp)
  | .logistic, true => some (.epigraph .logistic)
  | .negLogDet, false => some (.spectral .negLogDet)
  | .normNuclear, false => some (.spectral .nuclear)
  | _, true => none

variable {R : Type}

/-- `of f`: the registered operator, or the report that there is none. -/
def of (f : TermFunction R) : Outcome Family :=
  match of? f.kind f.epigraph with
  | some family => .ok family
  | none => fail (.unregistered f.kind f.epigraph)

variable [Scalar R]

/-- `newtonOf f input`: the Newton operator of a term; only a function that is defined everywhere may
    have an argument that is no scaling. -/
def newtonOf (f : SmoothFunction) (input : TermInput R) : Outcome (NewtonOperator R) := do
  let a ← input.single
  match input.scaling with
  | .ok s => return ⟨f.smooth, input.function.alpha, .scaling s, input.rho⟩
  | .error (.failed _) =>
    if f.fullDomain then
      return ⟨f.smooth, input.function.alpha, .dense (← a.dense input.layout) a.offset, input.rho⟩
    else fail (.restrictedDomain input.function.kind)
  | .error f => .error f

/-- `family.init input`: the operator of a term. -/
def init (family : Family) (input : TermInput R) : Outcome (Operator R) :=
  match family with
  | zero => .ok .zero
  | linear => (LinearOperator.of input).map .linear
  | sumSquare => (SumSquareOperator.of input).map .sumSquare
  | normL1 => (NormL1Operator.of input).map .normL1
  | normL2 => (NormL2Operator.of input).map .normL2
  | negLog => (NegLogOperator.of input).map .negLog
  | newton f => (newtonOf f input).map .newton
  | epigraph f => (Epigraph.of f input).map .epigraph
  | spectral f => (SpectralOperator.of f input).map .spectral

/-- `family.blank`: the operator before it is given a term. -/
def blank : Family → Operator R
  | zero => .zero
  | linear => .linear LinearOperator.blank
  | epigraph f => .epigraph (Epigraph.blank f)
  | _ => .uninitialized

end Family

namespace Operator

variable {R : Type} [Scalar R]

/-- `build input`: the registered operator of a term. -/
def build (input : TermInput R) : Outcome (Operator R) := do
  let family ← Family.of input.function
  family.init input

/-- `o.apply v`: the proximal point of a flat vector. -/
def apply (o : Operator R) (v : Array R) : Logged (Array R) :=
  match o with
  | zero => return v
  | linear o => return o.apply v
  | sumSquare o => Logged.ofOutcome (o.apply v)
  | normL1 o => return o.apply v
  | normL2 o => return o.apply v
  | negLog o => return o.apply v
  | newton o => o.minimize v
  | epigraph e => e.project v
  | spectral o => Logged.ofOutcome (o.apply v)
  | uninitialized => Logged.ofOutcome (fail .notInitialized)

end Operator

end BlockAdmm
