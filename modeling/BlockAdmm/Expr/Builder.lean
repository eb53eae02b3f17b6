/-
  Building expressions.  Every builder takes any arguments and gives the node the size that a
  conformable expression has; whether the arguments conform is found out by the compiler.  A builder
  that has to count the elements of its arguments ends in a breach where they cannot be counted.
-/
import BlockAdmm.Expr.Basic

namespace BlockAdmm.Expr

variable {R : Type}

/-- `sumSize sizes`: the size with the most elements, of several the last; one by one for none. -/
def sumSize (sizes : List Size) : Size :=
  match sizes with
  | [] => (1, 1)
  | s :: rest => rest.foldl (fun best t => if best.1 * best.2 ≤ t.1 * t.2 then t else best) s

/-- `sum args`: the sum, in which an argument of one element may stand for all elements. -/
def sum (args : List (Expr R)) : Outcome (Expr R) := do
  limit (args.all fun e => isCount e.dim)
  let s := sumSize (args.map size)
  return .node .add s.1 s.2 args

/-- `productSize a b`: the size of a product, in which a factor of one element scales the other. -/
def productSize (a b : Expr R) : Size :=
  if a.dim = 1 then b.size else if b.dim = 1 then a.size else (a.m, b.n)

/-- `product a b`: the product of two arguments. -/
def product (a b : Expr R) : Outcome (Expr R) := do
  limit (isCount a.dim && (a.dim == 1 || isCount b.dim))
  return .node .multiply (productSize a b).1 (productSize a b).2 [a, b]

/-- `neg a`: the argument with its sign turned. -/
def neg (a : Expr R) : Expr R := .node .negate a.m a.n [a]

/-- `var m n id`: a variable. -/
def var (m n : Nat) (id : String) : Expr R := .node (.variable id) m n []

/-- `fill m n v`: the constant with every entry `v`. -/
def fill (m n : Nat) (v : R) : Expr R := .node (.constant ⟨m, n, .scalar v⟩) m n []

/-- `data m n key`: the constant of the data under a name. -/
def data (m n : Nat) (key : String) : Expr R := .node (.constant ⟨m, n, .data key⟩) m n []

/-- `image d a`: the column that the described map makes of the argument. -/
def image (d : MapDesc R) (a : Expr R) : Outcome (Expr R) := do
  return .node (.linearMap d) (← d.size).1 1 [a]

/-- `reshape a m n`: the elements of the argument in another shape. -/
def reshape (a : Expr R) (m n : Nat) : Expr R := .node .reshape m n [a]

/-- `isZero a`: the constraint that the argument is zero. -/
def isZero (a : Expr R) : Expr R := .node .zeroCone a.m a.n [a]

/-- `term f alpha args`: the objective term `alpha * f` of the arguments. -/
def term (f : TermKind) (alpha : R) (args : List (Expr R)) : Expr R :=
  .node (.term ⟨f, alpha, false⟩) 1 1 args

/-- `epigraph f alpha a bound`: the objective term that keeps `alpha * f a` below the bound. -/
def epigraph (f : TermKind) (alpha : R) (a bound : Expr R) : Expr R :=
  .node (.term ⟨f, alpha, true⟩) 1 1 [a, bound]

end BlockAdmm.Expr
