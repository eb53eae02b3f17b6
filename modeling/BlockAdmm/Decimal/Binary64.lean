/-
  What a binary64 number is: a sign and a whole number times a power of two, or one of the three
  values that are no numbers.  The written forms start from this reading, never from the runtime's
  own printer, so that each digit is a matter of whole-number arithmetic.
-/

namespace BlockAdmm.Decimal

/-- `pow2 n`: the power `2ⁿ`. -/
def pow2 (n : Nat) : Nat := Nat.pow 2 n

/-- `pow10 n`: the power `10ⁿ`. -/
def pow10 (n : Nat) : Nat := Nat.pow 10 n

/-- A magnitude `mantissa * 2 ^ exponent` with `mantissa > 0`.  `narrow` says that the next double
    below is only half as far away as the next one above, which is so at a power of two. -/
structure Magnitude where
  mantissa : Nat
  exponent : Int
  narrow : Bool

/-- The value of a double. -/
inductive Reading where
  | notNumber
  | infinite (negative : Bool)
  | zero (negative : Bool)
  | finite (negative : Bool) (magnitude : Magnitude)

/-- `Reading.ofBits b`: the value behind the bits of a double, with eleven bits of exponent and 52
    of fraction.  An exponent field of zero means a subnormal number, which has no hidden bit. -/
def Reading.ofBits (b : UInt64) : Reading :=
  let w : Nat := b.toNat
  let negative := w / pow2 63 == 1
  let field : Nat := w / pow2 52 % pow2 11
  let fraction : Nat := w % pow2 52
  if field = pow2 11 - 1 then
    if fraction = 0 then .infinite negative else .notNumber
  else if field = 0 then
    if fraction = 0 then .zero negative else .finite negative ⟨fraction, -1074, false⟩
  else .finite negative ⟨pow2 52 + fraction, (field : Int) - 1075, fraction == 0 && 1 < field⟩

/-- `Reading.of x`: the value of the double `x`. -/
def Reading.of (x : Float) : Reading := Reading.ofBits x.toBits

/-- A positive fraction of whole numbers. -/
structure Ratio where
  num : Nat
  den : Nat

/-- `Ratio.scaled n e d`: the fraction `n * 2 ^ e / d`. -/
def Ratio.scaled (n : Nat) (e : Int) (d : Nat) : Ratio :=
  if 0 ≤ e then ⟨n * pow2 e.toNat, d⟩ else ⟨n, d * pow2 (-e).toNat⟩

/-- `r.perPower p`: the fraction divided by `10 ^ p`. -/
def Ratio.perPower (r : Ratio) (p : Int) : Ratio :=
  if 0 ≤ p then ⟨r.num, r.den * pow10 p.toNat⟩ else ⟨r.num * pow10 (-p).toNat, r.den⟩

/-- `r.decade`: the place of the decimal point, that is the least `p` with `r < 10 ^ p`.  The
    estimate from the lengths in bits is off by at most two places. -/
def Ratio.decade (r : Ratio) : Int :=
  let estimate : Int := ((r.num.log2 : Int) - (r.den.log2 : Int)) * 30103 / 100000
  let fits (p : Int) : Bool := let s := r.perPower p; s.num < s.den
  ([estimate - 2, estimate - 1, estimate, estimate + 1, estimate + 2].find? fits).getD (estimate + 3)

/-- `m.ratio`: the magnitude as a fraction. -/
def Magnitude.ratio (m : Magnitude) : Ratio := Ratio.scaled m.mantissa m.exponent 1

end BlockAdmm.Decimal
