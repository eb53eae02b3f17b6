/-
  Block vectors: vectors under names.  A missing name stands for a zero block of any length, and what
  comes under a name that is there is added to it.
-/
import BlockAdmm.Count
import BlockAdmm.Vec
import BlockAdmm.Keyed

namespace BlockAdmm

/-- A vector of named blocks. -/
structure BlockVector (R : Type) where
  blocks : Keyed (Array R)

namespace BlockVector

open Scalar

variable {R : Type}

/-- `empty`: every block zero. -/
def empty : BlockVector R := ⟨Keyed.empty⟩

/-- `x.get? k`: the block under a name. -/
def get? (x : BlockVector R) (k : String) : Option (Array R) := x.blocks.get? k

/-- `x.insert k v`: the block `v` in place of a former one. -/
def insert (x : BlockVector R) (k : String) (v : Array R) : BlockVector R := ⟨x.blocks.insert k v⟩

/-- `ofList xs`: the blocks of a list; of two under one name the later. -/
def ofList (xs : List (String × Array R)) : BlockVector R := ⟨Keyed.ofList xs⟩

/-- `x.contains k`: whether there is a block under the name. -/
def contains (x : BlockVector R) (k : String) : Bool := x.blocks.contains k

/-- `x.dim`: the number of all entries. -/
def dim (x : BlockVector R) : Nat := (x.blocks.map Array.size).sum

variable [Scalar R]

/-- `x.getOrZero k n`: the block under a name, or `n` zeros. -/
def getOrZero (x : BlockVector R) (k : String) (n : Nat) : Outcome (Array R) :=
  match x.get? k with
  | some v => .ok v
  | none => do
    room n
    return Vec.zero n

/-- `x.increase k alpha v`: `alpha * v` added to the block under the name.  A block of another length
    is reported. -/
def increase (x : BlockVector R) (k : String) (alpha : R) (v : Array R) : Outcome (BlockVector R) :=
  match x.get? k with
  | some w =>
    if w.size != v.size then fail (.blockLength k w.size v.size)
    else .ok (x.insert k (Vec.axpy alpha v w))
  | none => .ok (x.insert k (Vec.scale alpha v))

/-- `x.insertOrAdd k v`: `v` added to the block under the name. -/
def insertOrAdd (x : BlockVector R) (k : String) (v : Array R) : Outcome (BlockVector R) :=
  x.increase k 1 v

/-- `increaseEach alpha x kv`: one block of a sum of block vectors. -/
def increaseEach (alpha : R) (x : BlockVector R) (kv : String × Array R) : Outcome (BlockVector R) :=
  x.increase kv.1 alpha kv.2

/-- `x.addScaled alpha y = x + alpha * y`, block by block. -/
def addScaled (x : BlockVector R) (alpha : R) (y : BlockVector R) : Outcome (BlockVector R) :=
  y.blocks.entries.foldlM (increaseEach alpha) x

/-- `x.addScaledReached alpha y`: the same sum with what was reached when a block did not fit. -/
def addScaledReached (x : BlockVector R) (alpha : R) (y : BlockVector R) :
    BlockVector R × Outcome Unit :=
  advance (increaseEach alpha) x y.blocks.entries

/-- `x.norm`: the Euclidean norm over all blocks. -/
def norm (x : BlockVector R) : R := sqrt (total (x.blocks.values.map fun v => Vec.inner v v))

/-- `x.describe`: a line for each block. -/
def describe (x : BlockVector R) : String :=
  String.join (x.blocks.entries.map fun kv => kv.1 ++ ": " ++ Vec.debug kv.2 ++ "\n")

/-- `equal x y`: equal blocks under the same names. -/
def equal (x y : BlockVector R) : Bool := Keyed.agree Vec.equal x.blocks y.blocks

end BlockVector

end BlockAdmm
