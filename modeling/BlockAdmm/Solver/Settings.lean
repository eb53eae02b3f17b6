/-
  Settings of a solver, and how named texts override them.
-/
import BlockAdmm.Count
import BlockAdmm.Decimal.Numeral
import BlockAdmm.Log
import BlockAdmm.Scalar

namespace BlockAdmm

/-- What a solver may be told. -/
structure Settings (R : Type) where
  /-- the weight of the penalty on the constraints -/
  rho : R
  /-- the absolute tolerance of the residuals -/
  absTol : R
  /-- the relative tolerance of the residuals -/
  relTol : R
  /-- how many iterations there are at most -/
  maxIterations : Nat
  /-- after how many iterations the residuals are looked at again -/
  epoch : Nat

namespace Settings

open Scalar

variable {R : Type} [Scalar R]

/-- `default`: the settings of a solver that was told nothing. -/
def default : Settings R where
  rho := 1
  absTol := 1e-4
  relTol := 1e-3
  maxIterations := 10000
  epoch := 10

/-- `s.describe`: the settings in one line. -/
def describe (s : Settings R) : String :=
  "SolverParams \x7b rho: " ++ debug s.rho ++ ", abs_tol: " ++ debug s.absTol ++ ", rel_tol: "
    ++ debug s.relTol ++ ", max_iterations: " ++ toString s.maxIterations ++ ", epoch_iterations: "
    ++ toString s.epoch ++ " \x7d"

/-- A setting under its name: `change s text` is the settings with the value that the text says, and
    that value as it is written. -/
structure Named (R : Type) where
  name : String
  change : Settings R → String → Option (Settings R × String)

/-- `named read`: the settings by name, where `read` reads a scalar. -/
def named (read : String → Option R) : List (Named R) :=
  let real (put : Settings R → R → Settings R) (s : Settings R) (text : String) :=
    (read text).map fun v => (put s v, plain v)
  let count (put : Settings R → Nat → Settings R) (s : Settings R) (text : String) :=
    (Decimal.readNat countLimit text).map fun v => (put s v, toString v)
  [⟨"RHO", real fun s v => { s with rho := v }⟩,
   ⟨"ABS_TOL", real fun s v => { s with absTol := v }⟩,
   ⟨"REL_TOL", real fun s v => { s with relTol := v }⟩,
   ⟨"MAX_ITERATIONS", count fun s v => { s with maxIterations := v }⟩,
   ⟨"EPOCH_ITERATIONS", count fun s v => { s with epoch := v }⟩]

/-- `overrideOne texts acc n`: the settings with one of them taken from its text, and the report of
    it.  Without a text, or with one that cannot be read, nothing changes. -/
def overrideOne (texts : String → Option String) (acc : Settings R × List Event) (n : Named R) :
    Settings R × List Event :=
  match (texts n.name).bind (n.change acc.1) with
  | none => acc
  | some (s, written) => (s, acc.2 ++ [⟨.info, fun _ => n.name ++ ": " ++ written⟩])

/-- `s.override read texts`: the settings with those that `texts` knows, and the reports of them. -/
def override (s : Settings R) (read : String → Option R) (texts : String → Option String) :
    Settings R × List Event :=
  (named read).foldl (overrideOne texts) (s, [])

end Settings

end BlockAdmm
