/-
  The arguments of objective terms.

  An argument is an affine map `H x + g` of the variables of its term, kept as one linear map for each
  variable.  Where `H` is a diagonal of the whole block, the term is a function of the components
  `β_i x_i + g_i` (`Scaling`), and a penalty `ρ` on `x_i` is a penalty `ρ / β_i²` on the component.
-/
import BlockAdmm.Affine
import BlockAdmm.Prox.Layout

namespace BlockAdmm

/-- An argument `H x + g` of `m` rows and `n` columns. -/
structure Argument (R : Type) where
  maps : Keyed (LinearMap R)
  offset : Array R
  m : Nat
  n : Nat

/-- A componentwise argument `β x + g`. -/
structure Scaling (R : Type) where
  beta : Array R
  offset : Array R

/-- A term with its arguments, the layout of its variables and the penalty on them. -/
structure TermInput (R : Type) where
  function : TermFunction R
  args : List (Argument R)
  layout : Layout
  rho : R

namespace Argument

open Scalar

variable {R : Type}

/-- `a.dim`: the number of components. -/
def dim (a : Argument R) : Nat := a.m * a.n

/-- `row`: the name of the row under which an argument is compiled. -/
def row : String := "arg"

variable [Scalar R]

/-- `build e`: the argument that an expression describes. -/
def build (e : Expr R) : Compile R (Argument R) := do
  let form ← Affine.build e row
  return ⟨form.a.row row, ← form.b.getOrZero row e.dim, e.m, e.n⟩

/-- `addImage layout x y km`: the image of the part of `x` of one variable, added to `y`. -/
def addImage (layout : Layout) (x y : Array R) (km : String × LinearMap R) : Outcome (Array R) :=
  match layout.get? km.1 with
  | none => .ok y
  | some s => do
    let v ← km.2.apply (← Vec.slice x s.offset s.size)
    return Vec.increase y v

/-- `a.apply layout x = H x + g`. -/
def apply (a : Argument R) (layout : Layout) (x : Array R) : Outcome (Array R) :=
  a.maps.entries.foldlM (addImage layout x) a.offset

/-- `increaseAt x s v`: `x` with `v` added in an interval, as far as both reach. -/
def increaseAt (x : Array R) (s : Span) (v : Array R) : Array R :=
  Vec.build x.size fun i =>
    if s.offset ≤ i && i < s.offset + min s.size v.size then
      Vec.entry x i + Vec.entry v (i - s.offset)
    else Vec.entry x i

/-- `addBackImage layout y x km`: the image of `y` under the transpose for one variable, added in its
    interval. -/
def addBackImage (layout : Layout) (y x : Array R) (km : String × LinearMap R) :
    Outcome (Array R) :=
  match layout.get? km.1 with
  | none => .ok x
  | some s => do
    let v ← (← km.2.transpose).apply y
    return increaseAt x s v

/-- `a.transApply layout y = Hᵀ y`. -/
def transApply (a : Argument R) (layout : Layout) (y : Array R) : Outcome (Array R) := do
  room layout.n
  a.maps.entries.foldlM (addBackImage layout y) (Vec.zero layout.n)

/-- `putColumns dim h s k`: the matrix `h` with the columns of `k` in an interval. -/
def putColumns (dim : Nat) (h : Dense R) (s : Span) (k : Dense R) : Outcome (Dense R) := do
  promise (s.size == 0 || dim == 0 || (dim ≤ k.m && s.size ≤ k.n))
  return Dense.build h.m h.n fun r c =>
    if s.offset ≤ c && c < s.offset + s.size then k.entry r (c - s.offset) else h.entry r c

/-- `a.dense layout`: the matrix `H` over the flat vector of the layout. -/
def dense (a : Argument R) (layout : Layout) : Outcome (Dense R) := do
  let zero ← Dense.zero a.dim layout.n
  a.maps.entries.foldlM (fun h km =>
    match layout.get? km.1 with
    | none => .ok h
    | some s => do putColumns a.dim h s (← km.2.toDense)) zero

/-- `a.diagonal? layout`: the diagonal of `H`, if the argument is a diagonal map of the only
    variable. -/
def diagonal? (a : Argument R) (layout : Layout) : Outcome (Option (Array R)) :=
  if layout.count != 1 || a.dim != layout.n then .ok none
  else
    match a.maps.entries with
    | [(k, l)] => if (layout.get? k).isSome then l.diagonal? else .ok none
    | _ => .ok none

/-- `a.plainVariable?`: the variable, if the argument is one variable and nothing else. -/
def plainVariable? (a : Argument R) : Outcome (Option String) :=
  if a.offset.any fun v => v != 0 then .ok none
  else
    match a.maps.entries with
    | [(k, l)] => do return (← l.scalar?).bind fun alpha => if alpha == 1 then some k else none
    | _ => .ok none

end Argument

namespace Scaling

open Scalar

variable {R : Type} [Scalar R]

/-- `s.toArg v`: the components `β_i v_i + g_i`. -/
def toArg (s : Scaling R) (v : Array R) : Array R :=
  Vec.build (min v.size (min s.beta.size s.offset.size)) fun i =>
    Vec.entry s.beta i * Vec.entry v i + Vec.entry s.offset i

/-- `s.fromArg y v`: the `x` whose components are `y`; where `β_i` is zero, the entry of `v`. -/
def fromArg (s : Scaling R) (y v : Array R) : Array R :=
  Vec.build (min (min y.size v.size) (min s.beta.size s.offset.size)) fun i =>
    if Vec.entry s.beta i == 0 then Vec.entry v i
    else (Vec.entry y i - Vec.entry s.offset i) / Vec.entry s.beta i

/-- `s.rates rho`: the penalty on each component; none bounds a component that does not depend on
    `x`. -/
def rates (s : Scaling R) (rho : R) : Array R :=
  s.beta.map fun b => if b == 0 then infinity else rho / (b * b)

/-- `s.uniform?`: the common factor, if there is one and it is not zero. -/
def uniform? (s : Scaling R) : Option R :=
  if s.beta.size = 0 then none
  else
    let b₀ := Vec.entry s.beta 0
    if b₀ != 0 && s.beta.all fun b => b == b₀ then some b₀ else none

end Scaling

namespace TermInput

variable {R : Type} [Scalar R]

/-- `buildArgs es`: the arguments of a term, in order. -/
def buildArgs (es : List (Expr R)) : Compile R (List (Argument R)) := es.mapM Argument.build

/-- `build e layout rho`: the input of the term `e`. -/
def build (e : Expr R) (layout : Layout) (rho : R) : Compile R (TermInput R) := do
  match e.kind with
  | .term f => return ⟨f, ← buildArgs e.args, layout, rho⟩
  | _ => Compile.refuse (.notTerm e.tree)

omit [Scalar R] in
/-- `t.single`: the argument of a term that takes one. -/
def single (t : TermInput R) : Outcome (Argument R) :=
  match t.args with
  | [a] => .ok a
  | args => fail (.termArity t.function.kind args.length)

/-- `t.scaling`: the argument of a term as a scaling of the block. -/
def scaling (t : TermInput R) : Outcome (Scaling R) := do
  let a ← t.single
  match ← a.diagonal? t.layout with
  | some beta => return ⟨beta, a.offset⟩
  | none => fail (.notDiagonal t.function.kind)

end TermInput

end BlockAdmm
