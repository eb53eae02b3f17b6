/-
  Objectives: the terms of an objective and the variables that each of them owns.

  A term owns every variable that it mentions.  No variable has two owners, and every variable of the
  constraints has one; so the layouts of the terms divide the variables among themselves.
-/
import BlockAdmm.Block.Matrix
import BlockAdmm.Expr.Text
import BlockAdmm.Prox.Layout

namespace BlockAdmm

namespace Expr

variable {R : Type}

/-- `addSize sizes id d`: the variable `id` with its size, which must be the size it had before. -/
def addSize (sizes : Keyed Nat) (id : String) (d : Nat) : Outcome (Keyed Nat) :=
  match sizes.get? id with
  | some d' => if d' != d then fail (.variableSize id d' d) else .ok (sizes.insert id d)
  | none => .ok (sizes.insert id d)

mutual

/-- `e.collectSizes sizes`: the sizes of the variables of `e`, a node before its arguments, after the
    sizes that are known. -/
def collectSizes : Expr R → Keyed Nat → Outcome (Keyed Nat)
  | .node (.variable id) m n args, sizes => do
    collectSizesList args (← addSize sizes id (← elementsOf (m, n)))
  | .node _ _ _ args, sizes => collectSizesList args sizes

def collectSizesList : List (Expr R) → Keyed Nat → Outcome (Keyed Nat)
  | [], sizes => .ok sizes
  | e :: es, sizes => do collectSizesList es (← e.collectSizes sizes)

end

/-- `e.variableSizes`: the sizes of the variables by name. -/
def variableSizes (e : Expr R) : Outcome (Keyed Nat) := e.collectSizes Keyed.empty

end Expr

namespace Objective

variable {R : Type}

/-- `claim a i owners kd`: the owners with term `i` as the owner of a variable.  The size of the
    variable in the term must be the one in the constraints. -/
def claim (a : BlockMatrix R) (i : Nat) (owners : Keyed Nat) (kd : String × Nat) :
    Outcome (Keyed Nat) :=
  match owners.get? kd.1 with
  | some j => fail (.sharedVariable kd.1 j i)
  | none => do
    BlockMatrix.checkDim (a.colDims.get? kd.1) (fun n => .variableColumns kd.1 n kd.2) kd.2
    return owners.insert kd.1 i

/-- The owners of variables and the layouts of terms, as far as they are known. -/
structure Division where
  owners : Keyed Nat
  layouts : List Layout

/-- `divide a d ei`: the division with one more term. -/
def divide (a : BlockMatrix R) (d : Division) (ei : Expr R × Nat) : Outcome Division := do
  let sizes ← ei.1.variableSizes
  let owners ← sizes.entries.foldlM (claim a ei.2) d.owners
  return ⟨owners, d.layouts ++ [← Layout.ofSizes sizes]⟩

/-- `layouts terms a`: the layout of each term, where `a` are the constraints. -/
def layouts (terms : List (Expr R)) (a : BlockMatrix R) : Outcome (List Layout) := do
  let d ← terms.zipIdx.foldlM (divide a) ⟨Keyed.empty, []⟩
  match a.colDims.keys.find? fun k => !d.owners.contains k with
  | some id => fail (.unownedVariable id)
  | none => return d.layouts

variable [Scalar R]

/-- `terms e`: the terms of an objective, which is a sum of them or a single one. -/
def terms (e : Expr R) : Outcome (List (Expr R)) :=
  match e.kind with
  | .add => if e.args.isEmpty then fail .emptyObjective else .ok e.args
  | .term _ => .ok [e]
  | _ => fail (.objectiveShape e.tree)

end Objective

end BlockAdmm
