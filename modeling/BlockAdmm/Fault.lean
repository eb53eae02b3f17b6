/-
  What can go wrong.

  A `SolverError` is a cause: what was found and where.  Its kind and its wording are functions of
  the cause, so a statement about failures never reads text.  A `Fault` is how a computation ends
  without a value.  It reports such an error, which is an answer for the user of the library.  It goes
  beyond a limit (`breach`): a size cannot be counted, or a vector cannot be stored.  It breaks a
  promise (`misuse`): an operation was given operands that do not fit, or an index that lies outside.
  Or it uses up the rounds it was given (`unending`).  Limits depend on how large the data are and
  rounds on how they are rounded; that no promise is broken is what a proof about the library shows.
-/
import BlockAdmm.Expr.Kind

namespace BlockAdmm

/-- Rows and columns. -/
abbrev Size := Nat × Nat

/-- The six kinds of solver errors. -/
inductive ErrorKind where
  | malformedExpression
  | dimensionMismatch
  | unknownProx
  | missingData
  | singularOperator
  | proxFailure
  deriving DecidableEq

namespace ErrorKind

def all : List ErrorKind :=
  [.malformedExpression, .dimensionMismatch, .unknownProx, .missingData, .singularOperator,
   .proxFailure]

def name : ErrorKind → String
  | malformedExpression => "MalformedExpression"
  | dimensionMismatch => "DimensionMismatch"
  | unknownProx => "UnknownProx"
  | missingData => "MissingData"
  | singularOperator => "SingularOperator"
  | proxFailure => "ProxFailure"

def description : ErrorKind → String
  | malformedExpression => "malformed or unsupported expression"
  | dimensionMismatch => "dimension mismatch"
  | unknownProx => "no proximal operator"
  | missingData => "missing constant data"
  | singularOperator => "operator is not invertible"
  | proxFailure => "proximal evaluation failed"

/-- `kind.display message`: the line that reports an error. -/
def display (kind : ErrorKind) (message : String) : String :=
  kind.name ++ ": " ++ kind.description ++ ": " ++ message

end ErrorKind

/-- The causes of an error, each with what its message names. -/
inductive SolverError where
  /-- a sum without addends -/
  | noArguments (node : NodeKind)
  /-- a node that takes one argument has another number of them -/
  | argumentCount (node : NodeKind) (count : Nat)
  /-- a product has another number of factors than two -/
  | factorCount (node : NodeKind)
  /-- neither factor of a product is a constant -/
  | noConstantFactor (node : NodeKind)
  /-- a constraint or a term inside an affine expression -/
  | notAffine (node : NodeKind)
  /-- something other than a constraint in the list of constraints -/
  | notZeroCone (node : NodeKind)
  /-- an objective that is neither a sum nor a term -/
  | objectiveShape (tree : String)
  | emptyObjective
  /-- one variable in two terms of the objective -/
  | sharedVariable (id : String) (first second : Nat)
  /-- a variable that no term owns -/
  | unownedVariable (id : String)
  /-- an addend of the objective that is no term -/
  | notTerm (tree : String)
  /-- a term of one argument has another number of them -/
  | termArity (f : TermKind) (count : Nat)
  | epigraphArity (count : Nat)
  /-- the operator in front of a node has not as many columns as the node has elements -/
  | operatorWidth (node : NodeKind) (size : Size) (columns : Nat)
  | addendSize (sum addend : Size)
  | constantSize (size : Size) (columns : Nat)
  | mapSize (map argument : Size)
  | factorSize (left right : Size)
  | productSize (node : Size) (elements : Nat)
  /-- a block is added to one of another length -/
  | blockLength (key : String) (stored given : Nat)
  /-- a vector block does not fit the columns of an operator block -/
  | blockWidth (row col : String) (columns length : Nat)
  | rowSize (row : String) (stored given : Nat)
  | columnSize (col : String) (stored given : Nat)
  | dataSize (key : String) (stored asked : Size)
  /-- one variable with two sizes within a term -/
  | variableSize (id : String) (first second : Nat)
  /-- one variable with two sizes, in the constraints and in the objective -/
  | variableColumns (id : String) (columns declared : Nat)
  /-- a spectral function of eigenvalues of a matrix that is not square -/
  | matrixShape (f : TermKind) (size : Size)
  | unregistered (f : TermKind) (epigraph : Bool)
  | notDiagonal (f : TermKind)
  | notUniform (f : TermKind)
  | notUniformMatrix (f : TermKind)
  | restrictedDomain (f : TermKind)
  | epigraphNotPlain (f : TermKind)
  | epigraphNotDistinct (f : TermKind)
  | missingData (key : String)
  | notSquare (size : Size)
  | zeroScalar
  | zeroDiagonal (index : Nat)
  | singularMap (map : String)
  | linearUnbounded
  | noUniqueMinimizer
  | notInitialized
  | negLogUnbounded
  | spectralUnbounded (f : TermKind)
  | nonFiniteSpectrum
  | singularNewton
  | nonFiniteStep
  | lineSearchFailed (iteration : Nat)
  | newtonUnfinished (limit : Nat)
  | epigraphUnbounded
  | epigraphUnfinished (limit : Nat)
  /-- a term gave another number of values than its block has variables -/
  | blockValues (index values width : Nat)

namespace SolverError

def kind : SolverError → ErrorKind
  | noArguments _ | argumentCount .. | factorCount _ | noConstantFactor _ | notAffine _
  | notZeroCone _ | objectiveShape _ | emptyObjective | sharedVariable .. | unownedVariable _
  | notTerm _ | termArity .. | epigraphArity _ => .malformedExpression
  | operatorWidth .. | addendSize .. | constantSize .. | mapSize .. | factorSize ..
  | productSize .. | blockLength .. | blockWidth .. | rowSize .. | columnSize .. | dataSize ..
  | variableSize .. | variableColumns .. | matrixShape .. => .dimensionMismatch
  | unregistered .. | notDiagonal _ | notUniform _ | notUniformMatrix _ | restrictedDomain _
  | epigraphNotPlain _ | epigraphNotDistinct _ => .unknownProx
  | missingData _ => .missingData
  | notSquare _ | zeroScalar | zeroDiagonal _ | singularMap _ => .singularOperator
  | linearUnbounded | noUniqueMinimizer | notInitialized | negLogUnbounded | spectralUnbounded _
  | nonFiniteSpectrum | singularNewton | nonFiniteStep | lineSearchFailed _ | newtonUnfinished _
  | epigraphUnbounded | epigraphUnfinished _ | blockValues .. => .proxFailure

/-- `times s`: a size as `2 x 3`. -/
def times (s : Size) : String := toString s.1 ++ " x " ++ toString s.2

/-- `pair s`: a size as `(2, 3)`. -/
def pair (s : Size) : String := "(" ++ toString s.1 ++ ", " ++ toString s.2 ++ ")"

def versus (a b : Nat) : String := toString a ++ " vs " ++ toString b

/-- The text of an error, without its kind. -/
def message : SolverError → String
  | noArguments node => node.name ++ ": no arguments"
  | argumentCount node count => node.name ++ ": " ++ toString count ++ " arguments, expected 1"
  | factorCount node => node.name ++ ": multiply needs two arguments"
  | noConstantFactor node => node.name ++ ": multiply needs a constant factor"
  | notAffine node => node.name ++ ": not an affine expression"
  | notZeroCone node => node.name ++ ": constraint must be a zero cone"
  | objectiveShape tree => "objective must be a sum of proximal functions:\n" ++ tree
  | emptyObjective => "empty objective"
  | sharedVariable id first second =>
    "variable " ++ id ++ " appears in objective terms " ++ toString first ++ " and "
      ++ toString second
  | unownedVariable id => "variable " ++ id ++ " appears only in constraints"
  | notTerm tree => "objective term is not a proximal function:\n" ++ tree
  | termArity f count => f.name ++ " takes 1 argument, got " ++ toString count
  | epigraphArity count => "epigraph takes 2 arguments, got " ++ toString count
  | operatorWidth node size columns =>
    node.name ++ " node of " ++ times size ++ " under operator of " ++ toString columns
      ++ " columns"
  | addendSize sum addend => "add of " ++ times sum ++ " and " ++ times addend
  | constantSize size columns =>
    "constant of " ++ times size ++ " under operator of " ++ toString columns ++ " columns"
  | mapSize map argument => "linear map " ++ pair map ++ " on " ++ times argument ++ " argument"
  | factorSize left right => "multiply of " ++ times left ++ " and " ++ times right
  | productSize node elements =>
    "multiply node of " ++ times node ++ " yields " ++ toString elements ++ " elements"
  | blockLength key stored given => "block " ++ key ++ ": " ++ versus stored given
  | blockWidth row col columns length =>
    "block (" ++ row ++ ", " ++ col ++ "): " ++ versus columns length
  | rowSize row stored given => "row " ++ row ++ ": " ++ versus stored given
  | columnSize col stored given => "column " ++ col ++ ": " ++ versus stored given
  | dataSize key stored asked => "data " ++ key ++ ": " ++ pair stored ++ " vs " ++ pair asked
  | variableSize id first second => "variable " ++ id ++ ": " ++ versus first second
  | variableColumns id columns declared =>
    "variable " ++ id ++ ": " ++ toString columns ++ " in constraints vs " ++ toString declared
      ++ " in objective"
  | matrixShape f size => f.name ++ " of a " ++ times size ++ " matrix"
  | unregistered f epigraph => f.name ++ (if epigraph then " epigraph" else "")
  | notDiagonal f => f.name ++ " needs a diagonally scaled variable argument"
  | notUniform f => f.name ++ " needs a uniformly scaled variable argument"
  | notUniformMatrix f => f.name ++ " needs a uniformly scaled matrix argument"
  | restrictedDomain f =>
    f.name ++ " with a restricted domain needs a diagonally scaled variable argument"
  | epigraphNotPlain f => "epigraph of " ++ f.name ++ " needs plain variable arguments"
  | epigraphNotDistinct f =>
    "epigraph of " ++ f.name ++ " needs distinct variables with a scalar bound"
  | missingData key => key
  | notSquare size => times size ++ " is not square"
  | zeroScalar => "zero scalar"
  | zeroDiagonal index => "zero diagonal at " ++ toString index
  | singularMap map => map
  | linearUnbounded => "linear term is unbounded without a penalty"
  | noUniqueMinimizer => "sum of squares has no unique minimizer"
  | notInitialized => "not initialized"
  | negLogUnbounded => "negative log is unbounded without a penalty"
  | spectralUnbounded f => f.name ++ " is unbounded without a penalty"
  | nonFiniteSpectrum => "non-finite spectral map"
  | singularNewton => "singular Newton system"
  | nonFiniteStep => "non-finite Newton step"
  | lineSearchFailed iteration => "line search failed at iteration " ++ toString iteration
  | newtonUnfinished limit =>
    "Newton iteration did not converge in " ++ toString limit ++ " iterations"
  | epigraphUnbounded => "epigraph projection is unbounded"
  | epigraphUnfinished limit =>
    "epigraph projection did not converge in " ++ toString limit ++ " iterations"
  | blockValues index values width =>
    "block " ++ toString index ++ ": " ++ toString values ++ " values for " ++ toString width
      ++ " variables"

def display (e : SolverError) : String := e.kind.display e.message

end SolverError

/-- How a computation ends without a value. -/
inductive Fault where
  /-- a size is beyond what can be counted or stored -/
  | breach
  /-- a promise about operands or indices was broken -/
  | misuse
  /-- a loop used up the rounds it was given -/
  | unending
  /-- an error that the library reports -/
  | failed (error : SolverError)

/-- The outcome of a computation: a value or a fault. -/
abbrev Outcome := Except Fault

/-- `limit c`: goes on if `c` holds, and ends in a breach otherwise. -/
def limit (c : Bool) : Outcome Unit := if c then .ok () else .error .breach

/-- `promise c`: goes on if `c` holds, and ends in a misuse otherwise. -/
def promise (c : Bool) : Outcome Unit := if c then .ok () else .error .misuse

/-- `fail e`: reports the error `e`. -/
def fail {α : Type} (e : SolverError) : Outcome α := .error (.failed e)

/-- `advance step s xs`: one step after another from the state `s`.  Where a step ends in a fault, the
    state reached before it stays, and the later steps are not taken. -/
def advance {σ α : Type} (step : σ → α → Outcome σ) : σ → List α → σ × Outcome Unit
  | s, [] => (s, .ok ())
  | s, x :: xs =>
    match step s x with
    | .ok s' => advance step s' xs
    | .error f => (s, .error f)

/-- Without regard to what was reached, the steps are a fold. -/
theorem foldlM_eq_advance {σ α : Type} (step : σ → α → Outcome σ) (s : σ) (xs : List α) :
    xs.foldlM step s = (advance step s xs).2.map fun _ => (advance step s xs).1 := by
  induction xs generalizing s with
  | nil => rfl
  | cons x xs ih =>
    rw [List.foldlM_cons, advance]
    cases h : step s x with
    | ok s' => exact ih s'
    | error f => rfl

@[simp] theorem limit_true : limit true = .ok () := rfl

@[simp] theorem limit_false : limit false = .error .breach := rfl

@[simp] theorem promise_true : promise true = .ok () := rfl

@[simp] theorem promise_false : promise false = .error .misuse := rfl

end BlockAdmm
