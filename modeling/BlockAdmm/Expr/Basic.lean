/-
  Problems as they are written: expressions, constants and descriptions of linear maps.

  A node of an expression has a kind, a size of its own and arguments.  Nothing ties the size to the
  kind or to the arguments; a tree may be of any shape, and it is the compiler that accepts or
  refuses it (`BlockAdmm.Affine`).
-/
import BlockAdmm.Count

namespace BlockAdmm

/-- The value of a constant: a scalar for every entry, or the name of data. -/
inductive ConstantValue (R : Type) where
  | scalar (v : R)
  | data (key : String)

/-- A constant matrix of `m` rows and `n` columns. -/
structure Constant (R : Type) where
  m : Nat
  n : Nat
  value : ConstantValue R

/-- `c.size`: rows and columns. -/
def Constant.size {R : Type} (c : Constant R) : Size := (c.m, c.n)

/-- A linear map described by constants. -/
inductive MapDesc (R : Type) where
  /-- the dense matrix of the constant -/
  | dense (c : Constant R)
  /-- the sparse matrix of the constant -/
  | sparse (c : Constant R)
  /-- the diagonal matrix of the entries of the constant -/
  | diagonal (c : Constant R)
  /-- `alpha` times the identity of size `n` -/
  | scalar (n : Nat) (alpha : R)
  | kronecker (a b : MapDesc R)
  | transpose (a : MapDesc R)

/-- `d.size`: rows and columns of the map, and of every map in it, which must be counts. -/
def MapDesc.size {R : Type} : MapDesc R → Outcome Size
  | .dense c => .ok c.size
  | .sparse c => .ok c.size
  | .diagonal c => do
    let d ← elementsOf c.size
    return (d, d)
  | .scalar n _ => .ok (n, n)
  | .kronecker a b => do
    let s ← a.size
    let t ← b.size
    return (← count (s.1 * t.1), ← count (s.2 * t.2))
  | .transpose a => do
    let s ← a.size
    return (s.2, s.1)

/-- The function of an objective term: `alpha * f`, or the epigraph of it. -/
structure TermFunction (R : Type) where
  kind : TermKind
  alpha : R
  epigraph : Bool

/-- What a node is. -/
inductive ExprKind (R : Type) where
  | add
  /-- the product of two arguments, one of them a constant -/
  | multiply
  | negate
  | variable (id : String)
  | constant (c : Constant R)
  /-- a linear map on the argument read column by column -/
  | linearMap (d : MapDesc R)
  | reshape
  /-- the constraint that the argument is zero -/
  | zeroCone
  /-- a term of the objective -/
  | term (f : TermFunction R)

/-- `k.tag`: the kind without what it carries. -/
def ExprKind.tag {R : Type} : ExprKind R → NodeKind
  | .add => .add
  | .multiply => .multiply
  | .negate => .negate
  | .variable _ => .variable
  | .constant _ => .constant
  | .linearMap _ => .linearMap
  | .reshape => .reshape
  | .zeroCone => .zeroCone
  | .term _ => .term

/-- A node of `m` rows and `n` columns with its arguments. -/
inductive Expr (R : Type) where
  | node (kind : ExprKind R) (m n : Nat) (args : List (Expr R))

namespace Expr

variable {R : Type}

def kind : Expr R → ExprKind R
  | .node kind _ _ _ => kind

def m : Expr R → Nat
  | .node _ m _ _ => m

def n : Expr R → Nat
  | .node _ _ n _ => n

def args : Expr R → List (Expr R)
  | .node _ _ _ args => args

/-- `e.size`: rows and columns. -/
def size (e : Expr R) : Size := (e.m, e.n)

/-- `e.dim`: the number of elements. -/
def dim (e : Expr R) : Nat := e.m * e.n

/-- `e.elements`: the number of elements, as a count. -/
def elements (e : Expr R) : Outcome Nat := count e.dim

/-- `e.tag`: the kind without what it carries. -/
def tag (e : Expr R) : NodeKind := e.kind.tag

mutual

/-- `e.isConstant`: whether all leaves are constants; a node without arguments counts only if it is
    a constant itself. -/
def isConstant : Expr R → Bool
  | .node (.constant _) _ _ _ => true
  | .node (.variable _) _ _ _ => false
  | .node _ _ _ args => !args.isEmpty && allConstant args

def allConstant : List (Expr R) → Bool
  | [] => true
  | e :: es => e.isConstant && allConstant es

end

mutual

/-- `e.collectIds ids`: the names of variables, first seen first, after the names `ids`. -/
def collectIds : Expr R → List String → List String
  | .node (.variable id) _ _ args, ids =>
    collectIdsList args (if ids.contains id then ids else ids ++ [id])
  | .node _ _ _ args, ids => collectIdsList args ids

def collectIdsList : List (Expr R) → List String → List String
  | [], ids => ids
  | e :: es, ids => collectIdsList es (e.collectIds ids)

end

/-- `e.variableIds`: the names of the variables, each once, in the order in which they are seen. -/
def variableIds (e : Expr R) : List String := e.collectIds []

end Expr

/-- A problem: an objective and the constraints on its variables. -/
structure Problem (R : Type) where
  id : String
  objective : Expr R
  constraints : List (Expr R)

end BlockAdmm
