/-
  The status of a solver: how far it came, and how well the last iterate meets the constraints and
  the conditions of optimality.
-/
import BlockAdmm.Scalar

namespace BlockAdmm

/-- How far a solver came.  A solve passes through `running` and ends in one of the last three. -/
inductive SolverState where
  | notStarted
  | running
  /-- the residuals met their tolerances -/
  | optimal
  /-- the last iteration that was allowed is over -/
  | maxIterationsReached
  /-- an error ended the solve -/
  | failed
  deriving DecidableEq

def SolverState.name : SolverState → String
  | notStarted => "NotStarted"
  | running => "Running"
  | optimal => "Optimal"
  | maxIterationsReached => "MaxIterationsReached"
  | failed => "Error"

/-- The residuals with their tolerances. -/
structure Residuals (R : Type) where
  /-- the norm of what is left of the constraints -/
  rNorm : R
  /-- the norm of what is left of the conditions of optimality -/
  sNorm : R
  epsilonPrimal : R
  epsilonDual : R

namespace Residuals

open Scalar

variable {R : Type} [Scalar R]

/-- `zero`: nothing is left, and nothing is allowed to be. -/
def zero : Residuals R := ⟨0, 0, 0, 0⟩

/-- `r.converged`: whether both residuals are within their tolerances. -/
def converged (r : Residuals R) : Bool := r.rNorm ≤ r.epsilonPrimal && r.sNorm ≤ r.epsilonDual

/-- `r.describe i`: the residuals after iteration `i` in one line. -/
def describe (r : Residuals R) (i : Nat) : String :=
  "iter=" ++ toString i ++ " residuals primal=" ++ scientific 2 r.rNorm ++ " ["
    ++ scientific 2 r.epsilonPrimal ++ "] dual=" ++ scientific 2 r.sNorm ++ " ["
    ++ scientific 2 r.epsilonDual ++ "]"

end Residuals

/-- What a solver reports. -/
structure Status (R : Type) where
  state : SolverState
  iterations : Nat
  residuals : Residuals R

/-- `Status.of state`: a state with nothing to report. -/
def Status.of {R : Type} [Scalar R] (state : SolverState) : Status R := ⟨state, 0, Residuals.zero⟩

end BlockAdmm
