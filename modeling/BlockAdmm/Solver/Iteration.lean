/-
  The iteration: sweeps over the blocks until the residuals are small.

  The constraints are `b + Σ A_i x_i = 0`.  The state keeps the running sum `u` of what the iterates
  left of them, with the opposite sign.  A sweep first takes the old left over away; then each block
  in turn gets its own contribution back, makes its step, and its new contribution is taken away.  So
  every block sees the newest values of the blocks before it.
-/
import BlockAdmm.Solver.Block
import BlockAdmm.Solver.Settings
import BlockAdmm.Solver.Status

namespace BlockAdmm

/-- A compiled problem: the blocks, the constant part of the constraints, and the number of columns
    of the constraints. -/
structure System (R : Type) where
  settings : Settings R
  blocks : List (TermBlock R)
  b : BlockVector R
  n : Nat

/-- An iterate with the one before it. -/
structure Iterate (R : Type) where
  x : BlockVector R
  previous : BlockVector R
  u : BlockVector R

namespace System

open Scalar

variable {R : Type} [Scalar R]

/-- `zeroes x b`: `x` with zeros for the variables of a block. -/
def zeroes (x : BlockVector R) (b : TermBlock R) : BlockVector R :=
  b.layout.sizes.entries.foldl (fun x kd => x.insert kd.1 (Vec.zero kd.2)) x

/-- `s.start`: all variables zero, and nothing left over. -/
def start (s : System R) : Iterate R :=
  let x := s.blocks.foldl zeroes BlockVector.empty
  ⟨x, x, BlockVector.empty⟩

/-! ## Sweeps -/

/-- `subtractImage x u blk`: `u - A x` for one block. -/
def subtractImage (x u : BlockVector R) (blk : TermBlock R) : Outcome (BlockVector R) := do
  u.addScaled (-1) (← blk.a.apply x)

/-- `s.withoutImages x u`: `u - b - Σ A_i x_i`. -/
def withoutImages (s : System R) (x u : BlockVector R) : Outcome (BlockVector R) := do
  s.blocks.foldlM (subtractImage x) (← u.addScaled (-1) s.b)

/-- `stepBlock it blk`: the iterate after the step of one block. -/
def stepBlock (it : Iterate R) (blk : TermBlock R) : Logged (Iterate R) := do
  let w ← it.u.addScaled 1 (← blk.a.apply it.x)
  let y ← blk.step w it.x
  let x := y.blocks.entries.foldl (fun x kv => x.insert kv.1 kv.2) it.x
  return ⟨x, it.previous, ← subtractImage x w blk⟩

/-- `s.sweep it`: the iterate after the steps of all blocks. -/
def sweep (s : System R) (it : Iterate R) : Logged (Iterate R) := do
  let u ← s.withoutImages it.x it.u
  s.blocks.foldlM stepBlock ⟨it.x, it.x, u⟩

/-! ## Residuals -/

/-- `addImage x acc blk`: the sum of the images with the image of one more block, and the larger of
    the norms. -/
def addImage (x : BlockVector R) (acc : BlockVector R × R) (blk : TermBlock R) :
    Outcome (BlockVector R × R) := do
  let ax ← blk.a.apply x
  return (← acc.1.addScaled 1 ax, larger acc.2 ax.norm)

/-- `dualSquare it blocks diff sum`: the sum of `|A_iᵀ d_i|²`, where `d_i` is the change of the images
    of the blocks behind block `i`; the blocks come from the last to the first. -/
def dualSquare (it : Iterate R) : List (TermBlock R) → BlockVector R → R → Outcome R
  | next :: blk :: rest, diff, sum => do
    let diff ← diff.addScaled 1 (← next.a.apply it.x)
    let diff ← diff.addScaled (-1) (← next.a.apply it.previous)
    let norm := (← blk.back.apply diff).norm
    dualSquare it (blk :: rest) diff (sum + norm * norm)
  | _, _, sum => .ok sum

/-- `addBackSquare u sum blk`: the sum of the squares `|A_iᵀ u|²` with one more of them. -/
def addBackSquare (u : BlockVector R) (sum : R) (blk : TermBlock R) : Outcome R := do
  let norm := (← blk.back.apply u).norm
  return sum + norm * norm

/-- `s.residuals it`: the residuals of an iterate. -/
def residuals (s : System R) (it : Iterate R) : Outcome (Residuals R) := do
  let p := s.settings
  let (left, maxNorm) ← s.blocks.foldlM (addImage it.x) (s.b, s.b.norm)
  let dual ← dualSquare it s.blocks.reverse BlockVector.empty 0
  let back ← s.blocks.foldlM (addBackSquare it.u) 0
  return {
    rNorm := left.norm
    sNorm := p.rho * sqrt dual
    epsilonPrimal := p.absTol * sqrt (s.b.dim : R) + p.relTol * maxNorm
    epsilonDual := p.absTol * sqrt (s.n : R) + p.relTol * p.rho * sqrt back }

/-! ## The loop -/

/-- How an iteration ended: the status and the last iterate. -/
structure Ending (R : Type) where
  status : Status R
  last : Iterate R

/-- `s.check i it`: the residuals after iteration `i`, with a report. -/
def check (s : System R) (i : Nat) (it : Iterate R) : Logged (Residuals R) := do
  let r ← s.residuals it
  Logged.note ⟨.debug, fun _ => r.describe i⟩
  return r

/-- `s.round i it`: iteration `i`, and its ending if the residuals are looked at and small enough. -/
def round (s : System R) (i : Nat) (it : Iterate R) : Logged (Iterate R × Option (Ending R)) := do
  let it ← s.sweep it
  if i % max s.settings.epoch 1 == 0 then
    let r ← s.check i it
    if r.converged then
      Logged.note ⟨.info, fun _ => "----- Converged"⟩
      return (it, some ⟨⟨.optimal, i, r⟩, it⟩)
    else return (it, none)
  else return (it, none)

/-- `s.giveUp i it`: the ending when no iteration is left. -/
def giveUp (s : System R) (i : Nat) (it : Iterate R) : Logged (Ending R) := do
  let r ← s.check i it
  Logged.note ⟨.warn, fun _ => "----- MaxIterationsReached"⟩
  return ⟨⟨.maxIterationsReached, i, r⟩, it⟩

/-- `s.rounds left i it events`: the iterations from number `i` on, of which there may be `left`, after
    the events so far. -/
def rounds (s : System R) : Nat → Nat → Iterate R → Array Event → Logged (Ending R)
  | 0, i, it, events =>
    let r := s.giveUp i it
    ⟨events ++ r.events, r.outcome⟩
  | left + 1, i, it, events =>
    let r := s.round i it
    match r.outcome with
    | .error f => ⟨events ++ r.events, .error f⟩
    | .ok (_, some ending) => ⟨events ++ r.events, .ok ending⟩
    | .ok (it, none) => s.rounds left (i + 1) it (events ++ r.events)

/-- `s.iterate`: the iteration from the start. -/
def iterate (s : System R) : Logged (System.Ending R) := s.rounds s.settings.maxIterations 0 s.start #[]

end System

end BlockAdmm
