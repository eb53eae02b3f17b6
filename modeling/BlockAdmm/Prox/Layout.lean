/-
  Layouts: how the variables of a term stand one after another in a flat vector.

  A layout is the sizes of the variables by name.  The variables follow each other in the order of
  their names, each beginning where the one before it ends, so the intervals tile the flat vector.
-/
import BlockAdmm.Block.Vector

namespace BlockAdmm

/-- The interval of a variable in a flat vector. -/
structure Span where
  offset : Nat
  size : Nat

/-- The sizes of variables by name. -/
structure Layout where
  sizes : Keyed Nat

namespace Layout

/-- `empty`: no variables. -/
def empty : Layout := ⟨Keyed.empty⟩

/-- `l.n`: the size of the flat vector. -/
def n (l : Layout) : Nat := l.sizes.sum

/-- `ofSizes sizes`: the layout of variables by name, whose sizes must add up to a count. -/
def ofSizes (sizes : Keyed Nat) : Outcome Layout := do
  limit (isCount sizes.sum)
  return ⟨sizes⟩

/-- `ofList vars`: the layout of variables with their sizes; of two sizes of one name the later. -/
def ofList (vars : List (String × Nat)) : Outcome Layout := ofSizes (Keyed.ofList vars)

/-- `l.count`: the number of variables. -/
def count (l : Layout) : Nat := l.sizes.size

/-- `l.ids`: the names of the variables, in order. -/
def ids (l : Layout) : List String := l.sizes.keys

/-- `spansFrom o vars`: the intervals of variables that begin at `o`. -/
def spansFrom : Nat → List (String × Nat) → List (String × Span)
  | _, [] => []
  | o, (k, d) :: rest => (k, ⟨o, d⟩) :: spansFrom (o + d) rest

/-- `l.spans`: the variables with their intervals, in order. -/
def spans (l : Layout) : List (String × Span) := spansFrom 0 l.sizes.entries

/-- `l.get? k`: the interval of a variable. -/
def get? (l : Layout) (k : String) : Option Span := Keyed.find k l.spans

variable {R : Type} [Scalar R]

/-- `cut x s`: the part of a flat vector in an interval. -/
def cut (x : Array R) (s : Span) : Array R := Vec.build s.size fun i => Vec.entry x (s.offset + i)

/-- `l.split x`: a flat vector as blocks by variable. -/
def split (l : Layout) (x : Array R) : Outcome (BlockVector R) := do
  promise (x.size == l.n)
  return BlockVector.ofList (l.spans.map fun ks => (ks.1, cut x ks.2))

/-- `segment v k d`: the block of a variable of size `d`; zeros if it is missing. -/
def segment (v : BlockVector R) (k : String) (d : Nat) : Outcome (Array R) :=
  match v.get? k with
  | none => .ok (Vec.zero d)
  | some w => do
    promise (w.size == d)
    return w

/-- `l.flatten v`: the blocks of the variables one after another. -/
def flatten (l : Layout) (v : BlockVector R) : Outcome (Array R) := do
  room l.n
  l.sizes.entries.foldlM (fun x kd => do return x ++ (← segment v kd.1 kd.2)) #[]

end Layout

end BlockAdmm
