/-
  The doubles as scalars.  Every operation is the one of IEEE 754, correctly rounded, in the order
  in which the definitions write it.
-/
import BlockAdmm.Scalar
import BlockAdmm.Decimal.Layout

namespace BlockAdmm

namespace Binary64

/-- `larger x y`: `x` where it is above `y`, and else `y`; so of two zeros the second.  A number comes
    before what is no number. -/
def larger (x y : Float) : Float :=
  if x.isNaN then y else if y.isNaN then x else if x > y then x else y

/-- `signum x`: the sign bit as `1` or `-1`; what is no number stays what it is. -/
def signum (x : Float) : Float :=
  if x.isNaN then x else if x.toBits.toNat / Decimal.pow2 63 == 1 then -1 else 1

/-- `log1p x`: the logarithm of `1 + x` without the loss of the small digits of `x`, which the
    rounding of `u = 1 + x` would cost; the quotient makes up for that rounding. -/
def log1p (x : Float) : Float :=
  let u := 1 + x
  if u == 1 then x else Float.log u * x / (u - 1)

/-- `same x y`: the same bits. -/
def same (x y : Float) : Bool := x.toBits == y.toBits

end Binary64

instance : Scalar Float where
  zero := 0.0
  one := 1.0
  natCast n := Float.ofNat n
  decLt a b := inferInstanceAs (Decidable (a < b))
  decLe a b := inferInstanceAs (Decidable (a ≤ b))
  same := Binary64.same
  abs := Float.abs
  sqrt := Float.sqrt
  exp := Float.exp
  log := Float.log
  log1p := Binary64.log1p
  larger := Binary64.larger
  signum := Binary64.signum
  isFinite := Float.isFinite
  infinity := 1.0 / 0.0
  ceilNat x := x.ceil.toUInt64.toNat
  debug x := Decimal.Style.debug.write (Decimal.Reading.of x)
  plain x := Decimal.Style.plain.write (Decimal.Reading.of x)
  scientific n x := Decimal.scientific n (Decimal.Reading.of x)

end BlockAdmm
