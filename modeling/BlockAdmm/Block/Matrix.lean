/-
  Block matrices: linear maps under pairs of names, a row and a column.

  A missing pair stands for a zero block, and a map that comes to a pair that is there is added to
  it.  All blocks of a row have the same number of rows and all blocks of a column the same number
  of columns; both numbers are kept by name, and a map that contradicts them is refused.
-/
import BlockAdmm.LinearMap.Structure
import BlockAdmm.Block.Vector

namespace BlockAdmm

/-- A matrix of named blocks, with the number of rows of each row and of columns of each column. -/
structure BlockMatrix (R : Type) where
  blocks : Keyed (Keyed (LinearMap R))
  rowDims : Keyed Nat
  colDims : Keyed Nat

/-- A block with its place. -/
structure BlockMatrix.Block (R : Type) where
  row : String
  col : String
  map : LinearMap R

namespace BlockMatrix

open Scalar

variable {R : Type}

/-- `empty`: every block zero, and no dimension known. -/
def empty : BlockMatrix R := ⟨Keyed.empty, Keyed.empty, Keyed.empty⟩

/-- `a.toList`: the blocks in the order of their rows and, within a row, of their columns. -/
def toList (a : BlockMatrix R) : List (Block R) :=
  a.blocks.entries.flatMap fun rm => rm.2.entries.map fun cm => ⟨rm.1, cm.1, cm.2⟩

/-- `a.get? row col`: the block at a place. -/
def get? (a : BlockMatrix R) (row col : String) : Option (LinearMap R) :=
  (a.blocks.get? row).bind fun r => r.get? col

/-- `a.row r`: the blocks of a row by column. -/
def row (a : BlockMatrix R) (r : String) : Keyed (LinearMap R) := (a.blocks.get? r).getD Keyed.empty

/-- `a.m`: the number of all rows. -/
def m (a : BlockMatrix R) : Nat := a.rowDims.sum

/-- `a.n`: the number of all columns. -/
def n (a : BlockMatrix R) : Nat := a.colDims.sum

/-- `a.size`: the numbers of all rows and of all columns, which must be counts. -/
def size (a : BlockMatrix R) : Outcome Size := do return (← count a.m, ← count a.n)

/-- `a.isEmpty`: whether there is no block. -/
def isEmpty (a : BlockMatrix R) : Bool := a.blocks.isEmpty

/-- `a.place b`: the block at its place, in place of a former one. -/
def place (a : Keyed (Keyed (LinearMap R))) (b : Block R) : Keyed (Keyed (LinearMap R)) :=
  a.insert b.row (((a.get? b.row).getD Keyed.empty).insert b.col b.map)

/-- `checkDim known error d`: a dimension that is known must be `d`. -/
def checkDim (known : Option Nat) (error : Nat → SolverError) (d : Nat) : Outcome Unit :=
  match known with
  | some d' => if d' != d then fail (error d') else .ok ()
  | none => .ok ()

/-- `a.restrictCols cols`: the blocks of the given columns. -/
def restrictCols (a : BlockMatrix R) (cols : List String) : BlockMatrix R :=
  (a.toList.filter fun b => cols.contains b.col).foldl
    (fun acc b => ⟨place acc.blocks b, acc.rowDims.insert b.row b.map.m,
      acc.colDims.insert b.col b.map.n⟩) empty

variable [Scalar R]

/-- `a.insertOrAdd row col l`: the map added to the block at its place. -/
def insertOrAdd (a : BlockMatrix R) (row col : String) (l : LinearMap R) :
    Outcome (BlockMatrix R) := do
  checkDim (a.rowDims.get? row) (fun d => .rowSize row d l.m) l.m
  checkDim (a.colDims.get? col) (fun d => .columnSize col d l.n) l.n
  let sum ← match a.get? row col with
    | some prev => prev.add l
    | none => .ok l
  return ⟨place a.blocks ⟨row, col, sum⟩, a.rowDims.insert row l.m, a.colDims.insert col l.n⟩

/-- `insertBlock a b`: a block added at its place. -/
def insertBlock (a : BlockMatrix R) (b : Block R) : Outcome (BlockMatrix R) :=
  a.insertOrAdd b.row b.col b.map

/-- `a.add b = a + b`, block by block. -/
def add (a b : BlockMatrix R) : Outcome (BlockMatrix R) := b.toList.foldlM insertBlock a

/-- `a.addReached b`: the same sum with what was reached when a block did not fit. -/
def addReached (a b : BlockMatrix R) : BlockMatrix R × Outcome Unit := advance insertBlock a b.toList

/-- A change of a block matrix in place: what was written before a fault stays. -/
abbrev Change (R : Type) := ExceptT Fault (StateM (BlockMatrix R))

/-- `a.after x`: the outcome of a change of `a`, and what `a` is afterwards. -/
def after {α : Type} (a : BlockMatrix R) (x : Change R α) : Outcome α × BlockMatrix R := x.run a

/-- `insertInPlace row col l`: an insertion in place, one write after another.  The sizes are written before
    the blocks are, and a map that is added comes to its place when there is a sum. -/
def insertInPlace (row col : String) (l : LinearMap R) : Change R Unit := do
  checkDim ((← get).rowDims.get? row) (fun d => .rowSize row d l.m) l.m
  checkDim ((← get).colDims.get? col) (fun d => .columnSize col d l.n) l.n
  modify fun a => { a with rowDims := a.rowDims.insert row l.m }
  modify fun a => { a with colDims := a.colDims.insert col l.n }
  modify fun a => { a with blocks := a.blocks.insert row (a.row row) }
  match (← get).get? row col with
  | some prev =>
    let sum ← prev.add l
    modify fun a => { a with blocks := place a.blocks ⟨row, col, sum⟩ }
  | none => modify fun a => { a with blocks := place a.blocks ⟨row, col, l⟩ }

/-- `addInPlace b`: the blocks of `b` inserted in place, in their order. -/
def addInPlace (b : BlockMatrix R) : Change R Unit :=
  b.toList.forM fun blk => insertInPlace blk.row blk.col blk.map

/-- `a.transpose`: every block transposed, rows and columns exchanged. -/
def transpose (a : BlockMatrix R) : Outcome (BlockMatrix R) := do
  let blocks ← a.toList.foldlM
    (fun acc b => do return place acc ⟨b.col, b.row, ← b.map.transpose⟩) Keyed.empty
  return ⟨blocks, a.colDims, a.rowDims⟩

/-- `applyBlock x y b`: the product of one block with its part of `x`, added to `y`; a part that is
    missing is zero. -/
def applyBlock (x y : BlockVector R) (b : Block R) : Outcome (BlockVector R) :=
  match x.get? b.col with
  | none => .ok y
  | some v => do
    if v.size != b.map.n then fail (.blockWidth b.row b.col b.map.n v.size)
    y.insertOrAdd b.row (← b.map.apply v)

/-- `a.apply x`: the product with a block vector. -/
def apply (a : BlockMatrix R) (x : BlockVector R) : Outcome (BlockVector R) :=
  a.toList.foldlM (applyBlock x) BlockVector.empty

/-- `gramRow g r`: the products of all pairs of blocks of one row, added to `g`. -/
def gramRow (g : BlockMatrix R) (r : Keyed (LinearMap R)) : Outcome (BlockMatrix R) :=
  r.entries.foldlM (fun g c₁ => do
    let t ← c₁.2.transpose
    r.entries.foldlM (fun g c₂ => do g.insertOrAdd c₁.1 c₂.1 (← t.mul c₂.2)) g) g

/-- `a.gram`: the product of the transpose with the matrix, by pairs of columns. -/
def gram (a : BlockMatrix R) : Outcome (BlockMatrix R) := a.blocks.values.foldlM gramRow empty

/-- `commonScalar blocks alpha`: the scalar that the blocks, all of them on the diagonal, have in
    common with each other and with `alpha`. -/
def commonScalar : List (Block R) → Option R → Outcome (Option R)
  | [], alpha => .ok alpha
  | b :: rest, alpha =>
    if b.row != b.col then .ok none
    else do
      match ← b.map.scalar?, alpha with
      | none, _ => return none
      | some v, none => commonScalar rest (some v)
      | some v, some prev => if prev == v then commonScalar rest (some prev) else return none

/-- `a.scalar?`: the `alpha` of a matrix whose blocks are `alpha` times identities on the diagonal. -/
def scalar? (a : BlockMatrix R) : Outcome (Option R) := commonScalar a.toList none

/-- `innerSum x y`: the inner product over the blocks that both have. -/
def innerSum (x y : BlockVector R) : Outcome R :=
  x.blocks.entries.foldlM (fun s kv =>
    match y.get? kv.1 with
    | some w => do return s + (← Vec.dot kv.2 w)
    | none => .ok s) 0

/-- `a.powerSteps back k x sigma2`: `k` steps of the power iteration from `x`. -/
def powerSteps (a back : BlockMatrix R) : Nat → BlockVector R → R → Outcome R
  | 0, _, sigma2 => .ok sigma2
  | k + 1, x, sigma2 => do
    let norm := x.norm
    if norm == 0 then return sigma2
    let unit ← BlockVector.empty.addScaled (1 / norm) x
    let y ← back.apply (← a.apply unit)
    powerSteps a back k y (← innerSum unit y)

/-- `a.startVector`: the vector that the norm estimate starts with, over all columns. -/
def startVector (a : BlockMatrix R) : BlockVector R :=
  BlockVector.ofList (a.colDims.entries.zipIdx.map fun p =>
    (p.1.1, Vec.build p.1.2 fun j => startEntry (p.2 + j)))

/-- `a.normEstimate iterations`: the norm as the power iteration sees it. -/
def normEstimate (a : BlockMatrix R) (iterations : Nat) : Outcome R := do
  let back ← a.transpose
  a.colDims.values.forM room
  let sigma2 ← powerSteps a back iterations a.startVector 0
  return sqrt (larger sigma2 0)

/-- `a.describe`: a line for each block. -/
def describe (a : BlockMatrix R) : String :=
  String.join (a.toList.map fun b =>
    "(" ++ b.row ++ ", " ++ b.col ++ "): " ++ b.map.describe ++ "\n")

/-- `equal a b`: equal blocks at the same places, and the same dimensions. -/
def equal (a b : BlockMatrix R) : Bool :=
  Keyed.agree (Keyed.agree LinearMap.equal) a.blocks b.blocks
    && Keyed.agree (· == ·) a.rowDims b.rowDims && Keyed.agree (· == ·) a.colDims b.colDims

end BlockMatrix

end BlockAdmm
