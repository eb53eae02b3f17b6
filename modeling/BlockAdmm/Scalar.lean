/-
  Scalars: the numbers that the solver computes with.

  Everything numerical in this library is written once, over a type `R` with `[Scalar R]`, in one
  fixed order of operations.  Two readings matter.

  * The doubles of IEEE 754 (`BlockAdmm.Scalar.Binary64`): there every operation rounds, `==` is the
    comparison in which a NaN differs from itself, and the order of operations fixes the last bit.
  * An exact ordered field with a square root: there the same definitions say what is computed.

  No law is asked for in the class.  A statement that needs laws is a statement about a reading;
  one that needs none (sizes, failures, order of effects) holds of every `R`.
-/

namespace BlockAdmm

/-- A scalar type: arithmetic, comparisons, the elementary functions that the operators use, and
    the written forms of a number.  `x == y` is the comparison of values, while `same x y` is
    identity, which holds of every `x` and itself. -/
class Scalar (R : Type) extends
    Zero R, One R, Add R, Sub R, Mul R, Div R, Neg R, NatCast R, OfScientific R, LT R, LE R, BEq R where
  /-- `<` can be tested -/
  decLt : DecidableRel (α := R) (· < ·)
  /-- `≤` can be tested -/
  decLe : DecidableRel (α := R) (· ≤ ·)
  /-- identity of two scalars, reflexive also where `==` is not -/
  same : R → R → Bool
  /-- the absolute value -/
  abs : R → R
  /-- the square root -/
  sqrt : R → R
  /-- the exponential function -/
  exp : R → R
  /-- the natural logarithm -/
  log : R → R
  /-- the logarithm of `1 + x` -/
  log1p : R → R
  /-- the larger of two scalars; of a pair that cannot be compared, the one that is a number -/
  larger : R → R → R
  /-- `1` or `-1` by the sign; the sign of `0` is positive -/
  signum : R → R
  /-- whether the scalar is an ordinary number -/
  isFinite : R → Bool
  /-- what stands for "no bound": above every ordinary number in a type that has such a scalar,
      any positive one in a type that has none -/
  infinity : R
  /-- the least natural number that is not below the scalar; for an infinite one a huge number -/
  ceilNat : R → Nat
  /-- the written form that always shows that the number is a scalar: `3.0`, `1e-7` -/
  debug : R → String
  /-- the written form without an exponent: `3`, `0.0000001` -/
  plain : R → String
  /-- the written form with an exponent and the given number of decimals: `2.71e0` -/
  scientific : Nat → R → String

namespace Scalar

variable {R : Type} [Scalar R]

instance instDecidableLt (a b : R) : Decidable (a < b) := Scalar.decLt a b

instance instDecidableLe (a b : R) : Decidable (a ≤ b) := Scalar.decLe a b

/-- `recip x` is `1 / x`. -/
def recip (x : R) : R := 1 / x

/-- `negZero`: the start of a sum that leaves every addend as it is, the negative zero included. -/
def negZero : R := -0

/-- `sumBelow f n = ((0 + f 0) + f 1) + … + f (n - 1)`: a sum by index, in the order of the index. -/
def sumBelow (f : Nat → R) : Nat → R
  | 0 => 0
  | n + 1 => sumBelow f n + f n

theorem sumBelow_zero (f : Nat → R) : sumBelow f 0 = 0 := rfl

theorem sumBelow_succ (f : Nat → R) (n : Nat) : sumBelow f (n + 1) = sumBelow f n + f n := rfl

/-- A sum depends only on the terms below the bound. -/
theorem sumBelow_congr {f g : Nat → R} {n : Nat} (h : ∀ i, i < n → f i = g i) :
    sumBelow f n = sumBelow g n := by
  induction n with
  | zero => rfl
  | succ n ih => rw [sumBelow, sumBelow, ih fun i hi => h i (by omega), h n (by omega)]

/-- `total xs`: the sum of a list from its left, starting with the negative zero; so the sum of
    nothing is the negative zero. -/
def total (xs : List R) : R := xs.foldl (· + ·) negZero

/-- `debugList xs`: the scalars between brackets, `[1.0, 2.0]`. -/
def debugList (xs : List R) : String := "[" ++ ", ".intercalate (xs.map debug) ++ "]"

end Scalar

end BlockAdmm
