/-
  The affine compiler: an expression becomes `A x + b`, where `x` holds the variables by name and the
  result stands under the name of a row.  The value of an expression is read column by column.

  A node is compiled under an operator `l`, which stands for all that is done with its value further
  up; compiling adds `l` times the value to the form under construction.  So a variable adds `l` to
  the block of its name, a constant adds `l` of its entries to `b`, and every other node passes an
  operator on to its arguments.  With `C` a constant, `vec (C X) = (I ⊗ C) vec X` and
  `vec (X C) = (Cᵀ ⊗ I) vec X`.
-/
import BlockAdmm.Compile
import BlockAdmm.Expr.Builder

namespace BlockAdmm

namespace Affine

open Scalar Compile

variable {R : Type}

/-- `changeForm f`: another form under construction, if `f` has one. -/
def changeForm (f : AffineForm R → Outcome (AffineForm R)) : Compile R Unit := do
  let form ← f (← get).form
  modify fun s => { s with form := form }

/-- `shareMap l`: the map with marks, for use at several places. -/
def shareMap (l : LinearMap R) : Compile R (LinearMap R) := do
  let (l', next) := l.share (← get).nextMark
  modify fun s => { s with nextMark := next }
  return l'

variable [Scalar R]

/-- `addOperator row id l`: `l` added to the block of a variable. -/
def addOperator (row id : String) (l : LinearMap R) : Compile R Unit :=
  changeForm fun f => do return { f with a := ← f.a.insertOrAdd row id l }

/-- `addOffset row v`: `v` added to the constant part. -/
def addOffset (row : String) (v : Array R) : Compile R Unit :=
  changeForm fun f => do return { f with b := ← f.b.insertOrAdd row v }

/-- `ones k`: the map that repeats one element `k` times. -/
def ones (k : Nat) : Outcome (LinearMap R) := do return .ofDense (← Dense.fill k 1 1)

/-- `leftFactor c size e`: the map that multiplies the value of `e` by the constant `c` from the left;
    a factor of one element scales. -/
def leftFactor (c : Constant R) (size : Size) (e : Expr R) : Compile R (LinearMap R) := do
  if (← elementsOf size) == 1 then
    return .ofScalar (← e.elements) (← firstEntry c)
  else
    if c.n != e.m then refuse (.factorSize c.size e.size)
    (LinearMap.identity e.n).tensor (← constantMap c)

/-- `rightFactor c size e`: the map that multiplies the value of `e` by the constant `c` from the
    right. -/
def rightFactor (c : Constant R) (size : Size) (e : Expr R) : Compile R (LinearMap R) := do
  if (← elementsOf size) == 1 then
    return .ofScalar (← e.elements) (← firstEntry c)
  else
    if e.n != c.m then refuse (.factorSize e.size c.size)
    (← (← constantMap c).transpose).tensor (.identity e.m)

/-- `checkProduct size op`: a product must yield as many elements as its node has. -/
def checkProduct (size : Size) (op : LinearMap R) : Compile R Unit := do
  limit op.isSized
  if op.m != size.1 * size.2 then refuse (.productSize size op.m)

mutual

/-- `compile row e l`: adds `l` times the value of `e` to the form at a row. -/
def compile (row : String) : Expr R → LinearMap R → Compile R Unit
  | .node kind m n args, l => do
    if l.n != (← elementsOf (m, n)) then refuse (.operatorWidth kind.tag (m, n) l.n)
    note ⟨.trace, fun _ => "affine " ++ row ++ " " ++ kind.tag.name ++ ": " ++ l.describe⟩
    match kind, args with
    | .add, [] => refuse (.noArguments .add)
    | .add, args => compileSum row (m, n) args (← shareMap l)
    | .variable id, _ => addOperator row id l
    | .constant c, _ =>
      let v := (← dense c).data
      if v.size != l.n then refuse (.constantSize c.size l.n)
      addOffset row (← l.apply v)
    | .linearMap d, [e] =>
      let op ← describedMap d
      limit op.isSized
      if op.size != (m * n, ← e.elements) then refuse (.mapSize op.size e.size)
      compile row e (← l.mul op)
    | .reshape, [e] => compile row e l
    | .negate, [e] => compile row e l.neg
    | .multiply, [a, b] =>
      match a.kind, b.kind with
      | .constant c, _ =>
        let op ← leftFactor c a.size b
        checkProduct (m, n) op
        compile row b (← l.mul op)
      | _, .constant c =>
        let op ← rightFactor c b.size a
        checkProduct (m, n) op
        compile row a (← l.mul op)
      | _, _ => refuse (.noConstantFactor .multiply)
    | .multiply, _ => refuse (.factorCount .multiply)
    | .zeroCone, _ => refuse (.notAffine .zeroCone)
    | .term _, _ => refuse (.notAffine .term)
    | kind, args => refuse (.argumentCount kind.tag args.length)

/-- `compileSum row size es l`: adds `l` times each addend of a sum of the given size; a constant of
    one element stands for all elements. -/
def compileSum (row : String) (size : Size) : List (Expr R) → LinearMap R → Compile R Unit
  | [], _ => return ()
  | e :: es, l => do
    let d ← e.elements
    if d == size.1 * size.2 then compile row e l
    else if d == 1 && e.isConstant then compile row e (← l.mul (← ones (size.1 * size.2)))
    else refuse (.addendSize size e.size)
    compileSum row size es l

end

/-- `build e row`: the affine form of an expression at a row; the constant part of the row is there
    even if it is zero. -/
def build (e : Expr R) (row : String) : Compile R (AffineForm R) := do
  modify fun s => { s with form := AffineForm.zero }
  let d ← e.elements
  compile row e (.identity d)
  let form := (← get).form
  if form.b.contains row then return form
  room d
  return { form with b := form.b.insert row (Vec.zero d) }

/-- `singleArgument e`: the argument of a node that has one. -/
def singleArgument (e : Expr R) : Compile R (Expr R) :=
  match e.args with
  | [a] => pure a
  | args => refuse (.argumentCount e.tag args.length)

/-- `buildConstraint total ci`: the form of a constraint, under its number, added to the others. -/
def buildConstraint (total : AffineForm R) (ci : Expr R × Nat) : Compile R (AffineForm R) := do
  if ci.1.tag != .zeroCone then refuse (.notZeroCone ci.1.tag)
  let form ← build (← singleArgument ci.1) (toString ci.2)
  let a ← total.a.add form.a
  let b ← total.b.addScaled 1 form.b
  return ⟨a, b⟩

/-- `buildConstraints p`: the form whose rows are the constraints of a problem. -/
def buildConstraints (p : Problem R) : Compile R (AffineForm R) :=
  p.constraints.zipIdx.foldlM buildConstraint AffineForm.zero

end Affine

end BlockAdmm
