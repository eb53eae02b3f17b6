/-
  What can be told from the form of a linear map: whether it is diagonal or a multiple of the
  identity, and an estimate of its norm.

  `diagonal?` and `scalar?` look at stored entries and never apply the map, so they answer `none` for
  an opaque map.  `normEstimate` applies the map and its transpose in turn to one fixed vector; its
  quotients rise towards the square of the norm.
-/
import BlockAdmm.LinearMap.Algebra

namespace BlockAdmm

/-- `startEntry i`: entry `i` of the vector that a norm estimate starts with. -/
def startEntry {R : Type} [Scalar R] (i : Nat) : R := 1 + ((i % 7 : Nat) : R) * 0.1

namespace LinearMap

open Scalar

variable {R : Type} [Scalar R]

/-- `offDiagonalZero a`: every entry beside the diagonal is zero. -/
def offDiagonalZero (a : Dense R) : Bool :=
  (List.range a.n).all fun c => (List.range a.m).all fun r => r == c || a.entry r c == 0

/-- `kronDiagonal da db`: the diagonal of a Kronecker product by those of the factors. -/
def kronDiagonal (da db : Array R) : Array R :=
  Vec.build (da.size * db.size) fun k =>
    Vec.entry da (k / db.size) * Vec.entry db (k % db.size)

/-- `tensorDiagonal da db`: the same, if all three can be stored. -/
def tensorDiagonal (da db : Array R) : Outcome (Array R) := do
  room da.size
  room db.size
  room (da.size * db.size)
  return kronDiagonal da db

/-- `l.diagonal?`: the diagonal of a map that is square and stores nothing beside it. -/
def diagonal? (l : LinearMap R) : Outcome (Option (Array R)) :=
  if l.m != l.n then .ok none
  else
    match l with
    | .scalar n alpha _ => do
      room n
      return some (Vec.build n fun _ => alpha)
    | .diagonal d _ => .ok (some d)
    | .kronecker a b => do
      match ← a.diagonal? with
      | none => return none
      | some da =>
        match ← b.diagonal? with
        | none => return none
        | some db => return some (← tensorDiagonal da db)
    | .dense a _ =>
      .ok (if offDiagonalZero a then some (Vec.build a.n fun i => a.entry i i) else none)
    | .sparse a _ => .ok a.diagonal?
    | .opaqueMap _ => .ok none

/-- `uniform? d`: the common value of the entries, zero for a vector without entries. -/
def uniform? (d : Array R) : Option R :=
  if d.size = 0 then some 0
  else
    let d₀ := Vec.entry d 0
    if d.all fun v => v == d₀ then some d₀ else none

/-- `l.scalar?`: the `alpha` of a map that is `alpha` times the identity. -/
def scalar? : LinearMap R → Outcome (Option R)
  | .scalar _ alpha _ => .ok (some alpha)
  | l => do return (← l.diagonal?).bind uniform?

/-- `powerSteps apply back k x sigma2`: `k` steps of the power iteration from `x`; a step normalizes
    the vector, applies the map and its transpose, and takes the inner product as the new value. -/
def powerSteps (apply back : Array R → Outcome (Array R)) : Nat → Array R → R → Outcome R
  | 0, _, sigma2 => .ok sigma2
  | k + 1, x, sigma2 => do
    let norm := Vec.norm x
    if norm == 0 then return sigma2
    let unit := x.map fun v => v / norm
    let y ← back (← apply unit)
    powerSteps apply back k y (← Vec.dot unit y)

/-- `l.normEstimate iterations`: the norm as the power iteration sees it. -/
def normEstimate (l : LinearMap R) (iterations : Nat) : Outcome R := do
  if l.n == 0 || l.m == 0 then return 0
  match ← l.scalar? with
  | some alpha => return abs alpha
  | none =>
    let back ← l.transpose
    room l.n
    let sigma2 ← powerSteps l.apply back.apply iterations (Vec.build l.n startEntry) 0
    return sqrt (larger sigma2 0)

end LinearMap

end BlockAdmm
