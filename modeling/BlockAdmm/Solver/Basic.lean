/-
  The solver: a problem is compiled, iterated, and the values of its variables are written to a store.

  A problem is to minimize `Σ f_i(x_i)` subject to `b + Σ A_i x_i = 0`, where the `f_i` are the terms of
  the objective and `x_i` the variables that term `i` owns.
-/
import BlockAdmm.Parameter.Store
import BlockAdmm.Solver.Iteration

namespace BlockAdmm

/-- A problem with settings, the store that it writes to, and the status after the last solve. -/
structure Solver (R : Type) where
  settings : Settings R
  problem : Problem R
  store : ParameterStore R
  status : Status R

/-- What a solve did. -/
structure SolveReport (R : Type) where
  /-- the solver afterwards -/
  solver : Solver R
  outcome : Outcome (Status R)
  /-- the names that the provider was asked for, in order -/
  asked : List String
  /-- what was written, in order -/
  writes : List (ParameterId × Array R)
  events : Array Event

namespace Solver

open Scalar Compile

variable {R : Type} [Scalar R]

/-- `create problem settings`: a solver that did nothing yet. -/
def create (problem : Problem R) (settings : Settings R) : Solver R :=
  ⟨settings, problem, ParameterStore.empty, Status.of .notStarted⟩

/-- `s.buildBlock a tli`: the block of a term with its layout and its number. -/
def buildBlock (s : Solver R) (a : BlockMatrix R) (tli : (Expr R × Layout) × Nat) :
    Compile R (TermBlock R) :=
  TermBlock.build tli.2 tli.1.1 tli.1.2 a s.settings.rho

/-- `s.compile`: the problem as a system. -/
def compile (s : Solver R) : Compile R (System R) := do
  note ⟨.info, fun _ => "----- Initializing"⟩
  note ⟨.debug, fun _ => s.settings.describe⟩
  note ⟨.trace, fun _ => s.problem.text⟩
  let form ← Affine.buildConstraints s.problem
  note ⟨.trace, fun _ => "A:\n" ++ form.a.describe⟩
  note ⟨.trace, fun _ => "b:\n" ++ form.b.describe⟩
  let terms ← Objective.terms s.problem.objective
  let layouts ← Objective.layouts terms form.a
  let blocks ← (terms.zip layouts).zipIdx.mapM (s.buildBlock form.a)
  let keys := (← get).found.size
  note ⟨.debug, fun _ => toString blocks.length ++ " blocks, " ++ toString keys ++ " data keys"⟩
  let n ← count form.a.n
  liftM (layouts.forM fun l => l.sizes.values.forM room)
  return ⟨s.settings, blocks, form.b, n⟩

/-- `s.run`: the compilation and the iteration. -/
def run (s : Solver R) : Compile R (System.Ending R) := do
  let system ← s.compile
  note ⟨.info, fun _ => "----- Started"⟩
  logged system.iterate

/-- `s.writes x`: the values of the variables under their ids. -/
def writes (s : Solver R) (x : BlockVector R) : List (ParameterId × Array R) :=
  x.blocks.entries.map fun kv => (ParameterId.of s.problem.id kv.1, kv.2)

/-- `s.finish e writes`: the solver after an iteration that ended in `e`. -/
def finish (s : Solver R) (status : Status R) (writes : List (ParameterId × Array R)) : Solver R :=
  { s with status := status, store := writes.foldl (fun t w => t.update w.1 w.2) s.store }

/-- `s.solve provider`: a solve with data from a provider.  Values are written only if the iteration
    comes to an end; an error changes nothing but the state. -/
def solve (s : Solver R) (provider : Provider R) : SolveReport R :=
  let (outcome, session) := s.run.runFrom provider (Session.start AffineForm.zero 0)
  let asked := session.asked.toList
  match outcome with
  | .ok ending =>
    let ws := s.writes ending.last.x
    let reports := ws.map fun w => ParameterStore.updateEvent w.1 w.2
    ⟨s.finish ending.status ws, .ok ending.status, asked, ws, session.events ++ reports⟩
  | .error (.failed e) =>
    ⟨{ s with status := Status.of .failed }, .error (.failed e), asked, [],
      session.events.push ⟨.error, fun _ => e.display⟩⟩
  | .error f => ⟨{ s with status := Status.of .running }, .error f, asked, [], session.events⟩

end Solver

end BlockAdmm
