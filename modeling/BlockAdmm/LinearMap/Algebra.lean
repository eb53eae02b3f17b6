/-
  The algebra of linear maps: transpose, scaling, sum, product and inverse.

  Each operation keeps the cheapest form that is exact.  A sum or product with an opaque map is
  opaque again and composes the functions; Kronecker products stay so where a law of the product
  allows it; a sum or product with a dense matrix is dense, and everything else is sparse.
-/
import BlockAdmm.LinearMap.Basic

namespace BlockAdmm

namespace LinearMap

open Scalar

variable {R : Type} [Scalar R]

/-- `l.transpose`: the transposed map.  An opaque map whose transpose is not known is expanded. -/
def transpose : LinearMap R → Outcome (LinearMap R)
  | .dense a _ => .ok (ofDense a.transpose)
  | .sparse a _ => do return ofSparse (← a.flip)
  | .diagonal d k => .ok (.diagonal d k)
  | .scalar n alpha k => .ok (.scalar n alpha k)
  | .kronecker a b => do return kron (← a.transpose) (← b.transpose)
  | .opaqueMap f =>
    match f.transpose? with
    | some t => .ok (.opaqueMap t)
    | none => do return ofDense (← f.toDense).transpose

/-- `scaledFn alpha f`: the function whose values are `alpha` times those of `f`. -/
def scaledFn (alpha : R) (f : ApplyFn R) : ApplyFn R where
  run x := do return (← f.run x).map fun v => v * alpha
  mark := none

/-- `sumFn f g`: the sum of two functions. -/
def sumFn (f g : ApplyFn R) : ApplyFn R where
  run x := do
    let y ← f.run x
    let z ← g.run x
    return Vec.increase y z
  mark := none

omit [Scalar R] in
/-- `composeFn f g`: first `g` and then `f`. -/
def composeFn (f g : ApplyFn R) : ApplyFn R where
  run x := do f.run (← g.run x)
  mark := none

/-- `l.scaleBy alpha`: `alpha` times the map; with `alpha` one it is the map itself. -/
def scaleBy (alpha : R) (l : LinearMap R) : LinearMap R :=
  if alpha == 1 then l
  else
    match l with
    | .dense a _ => ofDense (a.scale alpha)
    | .sparse a _ => ofSparse (a.scale alpha)
    | .diagonal d _ => ofDiagonal (Vec.scale alpha d)
    | .scalar n x _ => ofScalar n (alpha * x)
    | .kronecker a b => kron (a.scaleBy alpha) b
    | .opaqueMap f => .opaqueMap
        { m := f.m
          n := f.n
          forward := scaledFn alpha f.forward
          backward := f.backward.map (scaledFn alpha)
          name := plain alpha ++ "*" ++ f.name }

/-- `l.neg`: the map with its sign turned. -/
def neg (l : LinearMap R) : LinearMap R := l.scaleBy (-1)

/-- `l.applyFn`: the function of the map, for a composition. -/
def applyFn : LinearMap R → ApplyFn R
  | .opaqueMap f => f.forward
  | l => ⟨l.apply, none⟩

/-- `l.transposeFn?`: the function of the transpose, if it is known or the map has a form. -/
def transposeFn? : LinearMap R → Outcome (Option (ApplyFn R))
  | .opaqueMap f => .ok f.backward
  | l => do return some (← l.transpose).applyFn

/-- `both f a b`: `f` of two values that are both known. -/
def both {α : Type} (f : α → α → α) : Option α → Option α → Option α
  | some a, some b => some (f a b)
  | _, _ => none

/-- `diagonalEntries l`: the diagonal of a diagonal or scalar map. -/
def diagonalEntries : LinearMap R → Array R
  | .diagonal d _ => d
  | .scalar n alpha _ => Vec.build n fun _ => alpha
  | _ => #[]

/-- `opaqueSum a b`: the sum through the functions of the two maps. -/
def opaqueSum (a b : LinearMap R) : Outcome (LinearMap R) := do
  let ta ← a.transposeFn?
  let tb ← b.transposeFn?
  return .opaqueMap
    { m := a.m
      n := a.n
      forward := sumFn a.applyFn b.applyFn
      backward := both sumFn ta tb
      name := "(" ++ a.describe ++ " + " ++ b.describe ++ ")" }

/-- `denseSum a b`: the sum of the matrices. -/
def denseSum (a b : LinearMap R) : Outcome (LinearMap R) := do
  let da ← a.toDense
  let db ← b.toDense
  return ofDense (← Dense.addScaled 1 db da)

/-- `sparseSum a b`: the sum of the sparse matrices. -/
def sparseSum (a b : LinearMap R) : Outcome (LinearMap R) := do
  let sa ← a.toSparse
  let sb ← b.toSparse
  return ofSparse (← sa.merge sb)

/-- `add a b`: the sum of two maps of one size.  A sum of two Kronecker products with an equal
    factor keeps that factor. -/
def add (a b : LinearMap R) : Outcome (LinearMap R) := do
  promise (a.size == b.size)
  if a.m == 0 || a.n == 0 then return a
  match a, b with
  | .scalar n x _, .scalar _ y _ => return ofScalar n (x + y)
  | .opaqueMap _, _ | _, .opaqueMap _ => opaqueSum a b
  | .scalar .., .diagonal .. | .diagonal .., .scalar .. | .diagonal .., .diagonal .. =>
    return ofDiagonal (Vec.build a.n fun i =>
      Vec.entry a.diagonalEntries i + Vec.entry b.diagonalEntries i)
  | .kronecker a₁ b₁, .kronecker a₂ b₂ =>
    if equal a₁ a₂ then return kron a₁ (← add b₁ b₂)
    else if equal b₁ b₂ then return kron (← add a₁ a₂) b₁
    else sparseSum a b
  | .dense .., _ | _, .dense .. => denseSum a b
  | _, _ => sparseSum a b

/-- `opaqueProduct a b`: the product through the functions of the two maps. -/
def opaqueProduct (a b : LinearMap R) : Outcome (LinearMap R) := do
  let ta ← a.transposeFn?
  let tb ← b.transposeFn?
  return .opaqueMap
    { m := a.m
      n := b.n
      forward := composeFn a.applyFn b.applyFn
      backward := both (fun ta tb => composeFn tb ta) ta tb
      name := "(" ++ a.describe ++ " * " ++ b.describe ++ ")" }

/-- `denseProduct a b`: the product of the matrices. -/
def denseProduct (a b : LinearMap R) : Outcome (LinearMap R) := do
  let da ← a.toDense
  let db ← b.toDense
  return ofDense (← da.mulMat db)

/-- `sparseProduct a b`: the product of the sparse matrices. -/
def sparseProduct (a b : LinearMap R) : Outcome (LinearMap R) := do
  let sa ← a.toSparse
  let sb ← b.toSparse
  return ofSparse (← sa.compose sb)

/-- `mul a b`: the product of two maps that fit.  A multiple of the identity scales the other map;
    Kronecker products whose factors fit are multiplied factor by factor. -/
def mul (a b : LinearMap R) : Outcome (LinearMap R) := do
  promise (a.n == b.m)
  match a, b with
  | .scalar _ x _, _ => return b.scaleBy x
  | _, .scalar _ y _ => return a.scaleBy y
  | .opaqueMap _, _ | _, .opaqueMap _ => opaqueProduct a b
  | .diagonal x _, .diagonal y _ =>
    return ofDiagonal (Vec.build x.size fun i => Vec.entry x i * Vec.entry y i)
  | .kronecker a₁ b₁, .kronecker a₂ b₂ =>
    if a₁.n == a₂.m && b₁.n == b₂.m then return kron (← mul a₁ a₂) (← mul b₁ b₂)
    else sparseProduct a b
  | .dense .., _ | _, .dense .. => denseProduct a b
  | _, _ => sparseProduct a b

/-- `singularBound`: the magnitude up to which a pivot counts as zero. -/
def singularBound : R := 1e-12

/-- `l.inverse`: the inverse map; a map that has none is reported. -/
def inverse (l : LinearMap R) : Outcome (LinearMap R) := do
  if l.m != l.n then fail (.notSquare l.size)
  match l with
  | .scalar n alpha _ =>
    if alpha == 0 then fail .zeroScalar else return ofScalar n (1 / alpha)
  | .diagonal d _ =>
    match d.findIdx? fun v => v == 0 with
    | some i => fail (.zeroDiagonal i)
    | none => return ofDiagonal (d.map fun v => 1 / v)
  | .kronecker a b =>
    if a.m == a.n then return kron (← a.inverse) (← b.inverse)
    else denseInverse (.kronecker a b)
  | l => denseInverse l
where
  /-- the inverse of the dense matrix of the map -/
  denseInverse (l : LinearMap R) : Outcome (LinearMap R) := do
    match Lu.of? (← l.toDense) singularBound with
    | some f => return ofDense f.inverse
    | none => fail (.singularMap l.describe)

end LinearMap

end BlockAdmm
