/-
  Linear maps in the form in which they were given.

  A map is a dense or sparse matrix, a diagonal, a multiple of the identity, a Kronecker product of
  two maps, or opaque: known only through the function that applies it.  `apply` never expands a
  map; `toDense` and `toSparse` do.

  Values and identity.  A comparison of scalars may fail on a scalar and itself, so whether two maps
  are equal depends on whether they are one and the same.  A `Mark` says so: two leaves of maps, or
  two functions, with the same mark are one.  Operations that hand on a leaf keep its mark, and
  those that make a new one leave it without a mark until `share` gives it one.
-/
import BlockAdmm.Dense.Lu
import BlockAdmm.Sparse

namespace BlockAdmm

/-- The identity of a stored value; `none` for one that is not referred to twice. -/
abbrev Mark := Option Nat

/-- `shared a b`: whether two marks say that the values are one and the same. -/
def Mark.shared : Mark → Mark → Bool
  | some i, some j => i == j
  | _, _ => false

/-- The function of an opaque map, with its identity. -/
structure ApplyFn (R : Type) where
  run : Array R → Outcome (Array R)
  mark : Mark

/-- An opaque map of `m` rows and `n` columns: its function, and that of its transpose if known. -/
structure OpaqueMap (R : Type) where
  m : Nat
  n : Nat
  forward : ApplyFn R
  backward : Option (ApplyFn R)
  name : String

/-- A linear map. -/
inductive LinearMap (R : Type) where
  /-- a dense matrix -/
  | dense (a : Dense R) (mark : Mark)
  /-- a sparse matrix -/
  | sparse (a : Sparse R) (mark : Mark)
  /-- the square diagonal matrix of the entries -/
  | diagonal (d : Array R) (mark : Mark)
  /-- `alpha` times the identity of size `n` -/
  | scalar (n : Nat) (alpha : R) (mark : Mark)
  /-- the Kronecker product -/
  | kronecker (a b : LinearMap R)
  /-- an opaque map -/
  | opaqueMap (f : OpaqueMap R)

/-- The forms of a linear map. -/
inductive LinearMap.Form where
  | dense | sparse | diagonal | scalar | kronecker | opaqueMap
  deriving DecidableEq

namespace OpaqueMap

variable {R : Type}

def size (f : OpaqueMap R) : Size := (f.m, f.n)

/-- `f.apply x`: the function, with the promise that argument and value have the declared lengths. -/
def apply (f : OpaqueMap R) (x : Array R) : Outcome (Array R) := do
  promise (x.size == f.n)
  let y ← f.forward.run x
  promise (y.size == f.m)
  return y

/-- `f.transpose?`: the functions exchanged, if the transpose is known. -/
def transpose? (f : OpaqueMap R) : Option (OpaqueMap R) :=
  f.backward.map fun t => ⟨f.n, f.m, t, some f.forward, f.name ++ "'"⟩

variable [Scalar R]

/-- `f.toDense`: the matrix whose columns are the images of the standard basis. -/
def toDense (f : OpaqueMap R) : Outcome (Dense R) := do
  room (f.m * f.n)
  room f.n
  let columns ← (List.range f.n).mapM fun c => f.apply (Vec.build f.n fun i => if i = c then 1 else 0)
  let columns := columns.toArray
  return Dense.build f.m f.n fun r c => Vec.entry (columns.getD c #[]) r

end OpaqueMap

namespace LinearMap

open Scalar

variable {R : Type}

/-- `ofDense a`: a dense matrix as a map. -/
def ofDense (a : Dense R) : LinearMap R := .dense a none

/-- `ofSparse a`: a sparse matrix as a map. -/
def ofSparse (a : Sparse R) : LinearMap R := .sparse a none

/-- `ofDiagonal d`: the diagonal map of the entries. -/
def ofDiagonal (d : Array R) : LinearMap R := .diagonal d none

/-- `ofScalar n alpha`: a multiple of the identity. -/
def ofScalar (n : Nat) (alpha : R) : LinearMap R := .scalar n alpha none

/-- `identity n`: the identity. -/
def identity [One R] (n : Nat) : LinearMap R := .scalar n 1 none

/-- `kron a b`: the Kronecker product; of two multiples of the identity it is one again. -/
def kron [Mul R] : LinearMap R → LinearMap R → LinearMap R
  | .scalar p x _, .scalar r y _ => .scalar (p * r) (x * y) none
  | a, b => .kronecker a b

def form : LinearMap R → Form
  | .dense .. => .dense
  | .sparse .. => .sparse
  | .diagonal .. => .diagonal
  | .scalar .. => .scalar
  | .kronecker .. => .kronecker
  | .opaqueMap _ => .opaqueMap

/-- `l.size`: rows and columns. -/
def size : LinearMap R → Size
  | .dense a _ => a.size
  | .sparse a _ => a.size
  | .diagonal d _ => (d.size, d.size)
  | .scalar n _ _ => (n, n)
  | .kronecker a b => (a.size.1 * b.size.1, a.size.2 * b.size.2)
  | .opaqueMap f => f.size

/-- `l.m`: the number of rows. -/
def m (l : LinearMap R) : Nat := l.size.1

/-- `l.n`: the number of columns. -/
def n (l : LinearMap R) : Nat := l.size.2

/-- `l.isSized`: whether the sizes of the map, and of every map in it, are counts. -/
def isSized : LinearMap R → Bool
  | .kronecker a b =>
    a.isSized && b.isSized && isCount (a.size.1 * b.size.1) && isCount (a.size.2 * b.size.2)
  | .scalar n _ _ => isCount n
  | _ => true

/-- `l.sized`: the map, whose size must be a pair of counts. -/
def sized (l : LinearMap R) : Outcome (LinearMap R) := do
  limit l.isSized
  return l

/-- `tensor a b`: the Kronecker product as it is made.  Two multiples of the identity are multiplied
    at once, so the product of their sizes must be a count; of any other product the size is looked
    at only where it is needed. -/
def tensor [Mul R] (a b : LinearMap R) : Outcome (LinearMap R) :=
  match kron a b with
  | .scalar n alpha mark => do return .scalar (← count n) alpha mark
  | l => .ok l

/-- `shareFn f next`: the function with a mark, a new one if it had none. -/
def shareFn (f : ApplyFn R) (next : Nat) : ApplyFn R × Nat :=
  match f.mark with
  | some _ => (f, next)
  | none => ({ f with mark := some next }, next + 1)

/-- `shareMark mark next`: a mark, a new one if there was none. -/
def shareMark (mark : Mark) (next : Nat) : Mark × Nat :=
  match mark with
  | some i => (some i, next)
  | none => (some next, next + 1)

/-- `l.share next`: the same map with a mark on everything it stores; new marks start at `next`. -/
def share : LinearMap R → Nat → LinearMap R × Nat
  | .dense a k, next => let (k', next') := shareMark k next; (.dense a k', next')
  | .sparse a k, next => let (k', next') := shareMark k next; (.sparse a k', next')
  | .diagonal d k, next => let (k', next') := shareMark k next; (.diagonal d k', next')
  | .scalar n alpha k, next => let (k', next') := shareMark k next; (.scalar n alpha k', next')
  | .kronecker a b, next =>
    let (a', next') := a.share next
    let (b', next'') := b.share next'
    (.kronecker a' b', next'')
  | .opaqueMap f, next =>
    let (forward, next') := shareFn f.forward next
    match f.backward with
    | none => (.opaqueMap { f with forward := forward }, next')
    | some t =>
      let (backward, next'') := shareFn t next'
      (.opaqueMap { f with forward := forward, backward := some backward }, next'')

variable [Scalar R]

/-- `kronApply p q r s a b x`: the product `A ⊗ B` of a `p` by `q` and an `r` by `s` map, given as
    functions, applied to `x` of `q * s` entries.  With `X` the matrix of the columns of `x`, it is
    `B X Aᵀ`: first `b` on each column, then `a` on each row. -/
def kronApply (p q r s : Nat) (a b : Array R → Outcome (Array R)) (x : Array R) :
    Outcome (Array R) := do
  room (r * q)
  let columns ← (List.range q).mapM fun j => b (Vec.build s fun i => Vec.entry x (j * s + i))
  let columns := columns.toArray
  room (r * p)
  room q
  let rows ← (List.range r).mapM fun i =>
    a (Vec.build q fun j => Vec.entry (columns.getD j #[]) i)
  let rows := rows.toArray
  return Vec.build (r * p) fun k => Vec.entry (rows.getD (k % r) #[]) (k / r)

/-- `l.apply x`: the product with a vector, which must have as many entries as `l` has columns. -/
def apply : LinearMap R → Array R → Outcome (Array R)
  | .dense a _, x => do
    promise (x.size == a.n)
    a.mulVec x
  | .sparse a _, x => do
    promise (x.size == a.n)
    room a.m
    return a.mulVec x
  | .diagonal d _, x => do
    promise (x.size == d.size)
    return Vec.build d.size fun i => Vec.entry d i * Vec.entry x i
  | .scalar n alpha _, x => do
    promise (x.size == n)
    return Vec.scale alpha x
  | .kronecker a b, x => do
    promise (x.size == a.n * b.n)
    kronApply a.m a.n b.m b.n a.apply b.apply x
  | .opaqueMap f, x => f.apply x

/-- `l.toDense`: the matrix of the map.  A block of a Kronecker product whose factor is zero is
    zero, whatever stands in the other factor. -/
def toDense : LinearMap R → Outcome (Dense R)
  | .dense a _ => .ok a
  | .sparse a _ => a.expand
  | .diagonal d _ => do
    room (d.size * d.size)
    return Dense.diagonal d
  | .scalar n alpha _ => do
    room (n * n)
    return (Dense.identity n).scale alpha
  | .kronecker a b => do
    let da ← a.toDense
    let db ← b.toDense
    Dense.make (da.m * db.m) (da.n * db.n) fun r c =>
      let v := da.entry (r / db.m) (c / db.n)
      if v == 0 then 0 else v * db.entry (r % db.m) (c % db.n)
  | .opaqueMap f => f.toDense

/-- `l.toSparse`: the sparse matrix of the map. -/
def toSparse : LinearMap R → Outcome (Sparse R)
  | .dense a _ => Sparse.extract a
  | .sparse a _ => .ok a
  | .diagonal d _ => Sparse.scatter d
  | .scalar n alpha _ => Sparse.scatter (Vec.build n fun _ => alpha)
  | .kronecker a b => do
    let sa ← a.toSparse
    let sb ← b.toSparse
    sa.tensor sb
  | .opaqueMap f => do Sparse.extract (← f.toDense)

/-- `l.describe`: one line on the structure of the map. -/
def describe : LinearMap R → String
  | .dense a _ => "dense(" ++ SolverError.times a.size ++ ", " ++ Vec.debug a.data ++ ")"
  | .sparse a _ =>
    "sparse(" ++ SolverError.times a.size ++ ", nnz=" ++ toString a.entries.length ++ ")"
  | .diagonal d _ => "diagonal(" ++ Vec.debug d ++ ")"
  | .scalar n alpha _ => "scalar(" ++ toString n ++ ", " ++ plain alpha ++ ")"
  | .kronecker a b => "kron(" ++ a.describe ++ ", " ++ b.describe ++ ")"
  | .opaqueMap f => "basic(" ++ SolverError.times f.size ++ ", " ++ f.name ++ ")"

/-- `equalParts a b`: the same form and equal parts.  A leaf equals what shares its mark; opaque maps
    are equal only if they have one function. -/
def equalParts : LinearMap R → LinearMap R → Bool
  | .dense a k, .dense b k' => (Mark.shared k k' && Dense.same a b) || Dense.equal a b
  | .sparse a k, .sparse b k' => (Mark.shared k k' && Sparse.same a b) || Sparse.equal a b
  | .diagonal a k, .diagonal b k' => (Mark.shared k k' && Vec.same a b) || Vec.equal a b
  | .scalar _ a k, .scalar _ b k' => (Mark.shared k k' && Scalar.same a b) || a == b
  | .kronecker a b, .kronecker a' b' =>
    a.size == a'.size && equalParts a a' && b.size == b'.size && equalParts b b'
  | .opaqueMap f, .opaqueMap g => Mark.shared f.forward.mark g.forward.mark
  | _, _ => false

/-- `equal a b`: the same size, the same form and equal parts. -/
def equal (a b : LinearMap R) : Bool := a.size == b.size && equalParts a b

end LinearMap

end BlockAdmm
