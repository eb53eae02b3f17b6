/-
  Compilations: what a compilation reads, keeps and reports.

  The data of a problem come from a provider, which may be asked for a name and may know nothing
  under it.  A compilation asks for a name at most once as long as it is found, and keeps what it
  found.  Beside the data it keeps the names it asked for, its events, and the affine form that it
  is building.  All of it survives a fault, so what was reached can be looked at.
-/
import BlockAdmm.Block.Matrix
import BlockAdmm.Expr.Text
import BlockAdmm.Log

namespace BlockAdmm

/-- The data under a name. -/
inductive ConstantData (R : Type) where
  | dense (a : Dense R)
  | sparse (a : Sparse R)

namespace ConstantData

variable {R : Type}

/-- `d.size`: rows and columns. -/
def size : ConstantData R → Size
  | .dense a => a.size
  | .sparse a => a.size

variable [Scalar R]

/-- `d.toDense`: the data as a dense matrix. -/
def toDense : ConstantData R → Outcome (Dense R)
  | .dense a => .ok a
  | .sparse a => a.expand

/-- `d.toSparse`: the data as a sparse matrix. -/
def toSparse : ConstantData R → Outcome (Sparse R)
  | .dense a => Sparse.extract a
  | .sparse a => .ok a

end ConstantData

/-- What is asked for data. -/
abbrev Provider (R : Type) := String → Option (ConstantData R)

/-- An affine form `a x + b`, by rows. -/
structure AffineForm (R : Type) where
  a : BlockMatrix R
  b : BlockVector R

/-- The form that is zero everywhere. -/
def AffineForm.zero {R : Type} : AffineForm R := ⟨BlockMatrix.empty, BlockVector.empty⟩

/-- What a compilation keeps. -/
structure Session (R : Type) where
  /-- the data found so far -/
  found : Keyed (ConstantData R)
  /-- the names that the provider was asked for, in order -/
  asked : Array String
  /-- the events so far -/
  events : Array Event
  /-- the form under construction -/
  form : AffineForm R
  /-- the next free mark for a map that is used twice -/
  nextMark : Nat

/-- `Session.start form nextMark`: nothing found and nothing asked. -/
def Session.start {R : Type} (form : AffineForm R) (nextMark : Nat) : Session R where
  found := Keyed.empty
  asked := #[]
  events := #[]
  form := form
  nextMark := nextMark

/-- A compilation: it reads from the provider, changes its session, and may end in a fault. -/
abbrev Compile (R : Type) := ReaderT (Provider R) (ExceptT Fault (StateM (Session R)))

namespace Compile

open Scalar

variable {R : Type} {α : Type}

/-- `x.runFrom provider s`: the outcome of a compilation and the session after it. -/
def runFrom (x : Compile R α) (provider : Provider R) (s : Session R) : Outcome α × Session R :=
  (x provider).run s

/-- `note e`: one event. -/
def note (e : Event) : Compile R Unit :=
  modify fun s => { s with events := s.events.push e }

/-- `refuse e`: reports the error `e`. -/
def refuse (e : SolverError) : Compile R α := throw (.failed e)

/-- `logged x`: a logged computation within a compilation. -/
def logged (x : Logged α) : Compile R α := do
  modify fun s => { s with events := s.events ++ x.events }
  liftM x.outcome

/-- `data key`: the data under a name, from what was found or from the provider. -/
def data (key : String) : Compile R (ConstantData R) := do
  match (← get).found.get? key with
  | some d => return d
  | none =>
    note ⟨.trace, fun _ => "loading data " ++ key⟩
    modify fun s => { s with asked := s.asked.push key }
    match (← read) key with
    | none => refuse (.missingData key)
    | some d =>
      modify fun s => { s with found := s.found.insert key d }
      return d

/-- `sizedData key size`: the data under a name, which must have the given size. -/
def sizedData (key : String) (size : Size) : Compile R (ConstantData R) := do
  let d ← data key
  if d.size != size then refuse (.dataSize key d.size size)
  return d

variable [Scalar R]

/-- `dense c`: the dense matrix of a constant. -/
def dense (c : Constant R) : Compile R (Dense R) := do
  match c.value with
  | .scalar v => Dense.fill c.m c.n v
  | .data key => (← sizedData key c.size).toDense

/-- `sparse c`: the sparse matrix of a constant. -/
def sparse (c : Constant R) : Compile R (Sparse R) := do
  match c.value with
  | .scalar v => Sparse.extract (← Dense.fill c.m c.n v)
  | .data key => (← sizedData key c.size).toSparse

/-- `firstEntry c`: the scalar of a constant, or the first entry of its data. -/
def firstEntry (c : Constant R) : Compile R R := do
  match c.value with
  | .scalar v => return v
  | .data _ =>
    let d ← dense c
    promise (0 < d.data.size)
    return Vec.entry d.data 0

/-- `constantMap c`: a constant as a linear map; data keep the form in which they were given. -/
def constantMap (c : Constant R) : Compile R (LinearMap R) := do
  match c.value with
  | .scalar v => return .ofDense (← Dense.fill c.m c.n v)
  | .data key =>
    match ← sizedData key c.size with
    | .dense a => return .ofDense a
    | .sparse a => return .ofSparse a

/-- `describedMap d`: the linear map of a description. -/
def describedMap : MapDesc R → Compile R (LinearMap R)
  | .dense c => do return .ofDense (← dense c)
  | .sparse c => do return .ofSparse (← sparse c)
  | .diagonal c => do return .ofDiagonal (← dense c).data
  | .scalar n alpha => return .ofScalar n alpha
  | .kronecker a b => do
    let la ← describedMap a
    let lb ← describedMap b
    la.tensor lb
  | .transpose a => do (← describedMap a).transpose

end Compile

end BlockAdmm
