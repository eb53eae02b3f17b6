/-
  How the digits of a number are set out as text: where the point goes, when an exponent is
  written, and what stands for the values that are no numbers.
-/
import BlockAdmm.Decimal.Shortest

namespace BlockAdmm.Decimal

/-- What a written form decides beside the digits. -/
structure Style where
  /-- the places of the point, lowest and highest, that are written without an exponent; `none`
      means all of them -/
  positional : Option (Int × Int)
  /-- whether a whole number written without an exponent ends in `.0` -/
  pointZero : Bool

/-- `Style.debug`: without an exponent from `1e-4` up to `1e16`, and always with a point. -/
def Style.debug : Style := ⟨some (-3, 16), true⟩

/-- `Style.plain`: never an exponent, and a point only before a fraction. -/
def Style.plain : Style := ⟨none, false⟩

/-- `zeros n`: so many zeros. -/
def zeros (n : Nat) : String := String.ofList (List.replicate n '0')

/-- `withPoint ds point whole`: digits with the point after the first `point` of them. -/
def withPoint (ds : List Char) (point : Int) (whole : String) : String :=
  if point ≤ 0 then "0." ++ zeros (-point).toNat ++ String.ofList ds
  else
    let k := point.toNat
    if ds.length ≤ k then String.ofList ds ++ zeros (k - ds.length) ++ whole
    else String.ofList (ds.take k) ++ "." ++ String.ofList (ds.drop k)

/-- `withExponent ds point`: one digit, the others after the point, and the exponent. -/
def withExponent (ds : List Char) (point : Int) : String :=
  let mantissa := match ds with
    | [] => ""
    | [d] => String.ofList [d]
    | d :: rest => String.ofList (d :: '.' :: rest)
  mantissa ++ "e" ++ toString (point - 1)

/-- `style.digits d`: the text of a positive decimal. -/
def Style.digits (style : Style) (d : Digits) : String :=
  let ds := Nat.toDigits 10 d.digits
  let whole := if style.pointZero then ".0" else ""
  match style.positional with
  | none => withPoint ds d.point whole
  | some (lowest, highest) =>
    if lowest ≤ d.point && d.point ≤ highest then withPoint ds d.point whole
    else withExponent ds d.point

/-- `signed negative text`: the text behind its sign. -/
def signed (negative : Bool) (text : String) : String := if negative then "-" ++ text else text

/-- `style.write r`: the text of a double; its digits are the fewest that read back as it. -/
def Style.write (style : Style) : Reading → String
  | .notNumber => "NaN"
  | .infinite negative => signed negative "inf"
  | .zero negative => signed negative (if style.pointZero then "0.0" else "0")
  | .finite negative m => signed negative (style.digits m.shortest)

/-- `scientific n r`: one digit before the point and `n` after it, rounded from the exact value,
    and the exponent without padding. -/
def scientific (n : Nat) : Reading → String
  | .notNumber => "NaN"
  | .infinite negative => signed negative "inf"
  | .zero negative =>
    signed negative (withExponent ('0' :: List.replicate n '0') 1)
  | .finite negative m =>
    let d := m.rounded (n + 1)
    signed negative (withExponent (Nat.toDigits 10 d.digits) d.point)

end BlockAdmm.Decimal
