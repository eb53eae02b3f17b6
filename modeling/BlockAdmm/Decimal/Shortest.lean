/-
  The shortest decimal that reads back as a given double.

  The reals that round to a double form an interval around it, which ends half way to its
  neighbours.  For one digit, two digits, … the two decimals of that many digits next to the value
  are tried; the first length with a decimal inside the interval wins, and of two the nearer one.
  If any decimal of some length lies inside, one of the two next to the value does, so no shorter
  decimal reads back.  Seventeen digits are always enough.
-/
import BlockAdmm.Decimal.Binary64

namespace BlockAdmm.Decimal

/-- Digits of a positive decimal, `0.d₁d₂…dₙ * 10 ^ point`. -/
structure Digits where
  digits : Nat
  point : Int

/-- The interval of the reals that read back as one double, and the double inside it, all in
    quarters of its last place.  The ends belong to it when the mantissa is even. -/
structure Interval where
  low : Nat
  value : Nat
  high : Nat
  exponent : Int
  closed : Bool

/-- `m.interval`: half a place to each side, or a quarter below where the next double is nearer. -/
def Magnitude.interval (m : Magnitude) : Interval where
  low := 4 * m.mantissa - (if m.narrow then 1 else 2)
  value := 4 * m.mantissa
  high := 4 * m.mantissa + 2
  exponent := m.exponent - 2
  closed := m.mantissa % 2 == 0

/-- `i.holds d p`: whether the decimal `d * 10 ^ p` lies in the interval. -/
def Interval.holds (i : Interval) (d : Nat) (p : Int) : Bool :=
  let low := (Ratio.scaled i.low i.exponent 1).perPower p
  let high := (Ratio.scaled i.high i.exponent 1).perPower p
  if i.closed then low.num ≤ d * low.den && d * high.den ≤ high.num
  else low.num < d * low.den && d * high.den < high.num

/-- `m.candidate point n`: the decimal of `n` digits that reads back as `m`, if there is one; of two
    the nearer, and of two that are equally near the larger. -/
def Magnitude.candidate (m : Magnitude) (point : Int) (n : Nat) : Option Nat :=
  let p := point - n
  let r := m.ratio.perPower p
  let below := r.num / r.den
  let above := below + 1
  let i := m.interval
  match i.holds below p, i.holds above p with
  | true, true => if 2 * r.num < (below + above) * r.den then some below else some above
  | true, false => some below
  | false, true => some above
  | false, false => none

/-- `m.shortest`: the fewest digits that read back as `m`. -/
def Magnitude.shortest (m : Magnitude) : Digits :=
  let point := m.ratio.decade
  let lengths := [1, 2, 3, 4, 5, 6, 7, 8, 9, 10, 11, 12, 13, 14, 15, 16, 17]
  match lengths.findSome? fun n => (m.candidate point n).map fun d => (d, n) with
  | some (d, n) => if d = pow10 n then ⟨1, point + 1⟩ else ⟨d, point⟩
  | none => ⟨0, 0⟩

/-- `m.rounded n`: the value rounded to `n` digits, a half going to the even neighbour. -/
def Magnitude.rounded (m : Magnitude) (n : Nat) : Digits :=
  let point := m.ratio.decade
  let r := m.ratio.perPower (point - n)
  let below := r.num / r.den
  let twice := 2 * (r.num % r.den)
  let d := if r.den < twice || (twice == r.den && below % 2 == 1) then below + 1 else below
  if d = pow10 n then ⟨pow10 (n - 1), point + 1⟩ else ⟨d, point⟩

end BlockAdmm.Decimal
