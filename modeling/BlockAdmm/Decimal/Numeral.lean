/-
  Reading numerals.

  A number is a sign, digits with at most one point among or around them, and an exponent after `e`;
  or it is one of the words for the values that are no numbers.  Upper and lower case are the same.
  Nothing may stand before, between or after, so a blank makes a text unreadable.
-/

namespace BlockAdmm.Decimal

/-- What a numeral says; a finite one says `digits * 10 ^ power`. -/
inductive Numeral where
  | notNumber
  | infinite (negative : Bool)
  | finite (negative : Bool) (digits : Nat) (power : Int)

/-- `digitsValue ds`: the number with these digits. -/
def digitsValue (ds : List Char) : Nat := ds.foldl (fun n c => 10 * n + (c.toNat - '0'.toNat)) 0

/-- `digits? cs`: the number that digits alone say, if there is at least one digit. -/
def digits? (cs : List Char) : Option Nat :=
  if !cs.isEmpty && cs.all Char.isDigit then some (digitsValue cs) else none

/-- `exponent? cs`: the exponent that ends a numeral; nothing at all says zero. -/
def exponent? : List Char → Option Int
  | [] => some 0
  | c :: cs =>
    if c != 'e' then none
    else
      match cs with
      | '-' :: ds => (digits? ds).map fun n => -(n : Int)
      | '+' :: ds => (digits? ds).map fun n => (n : Int)
      | ds => (digits? ds).map fun n => (n : Int)

/-- `unsigned? negative cs`: the numeral behind its sign, in lower case. -/
def unsigned? (negative : Bool) (cs : List Char) : Option Numeral :=
  let word := String.ofList cs
  if word = "nan" then some .notNumber
  else if word = "inf" || word = "infinity" then some (.infinite negative)
  else
    let whole := cs.takeWhile Char.isDigit
    let rest := cs.dropWhile Char.isDigit
    let afterPoint := match rest with
      | '.' :: t => t
      | _ => []
    let fraction := afterPoint.takeWhile Char.isDigit
    let tail := match rest with
      | '.' :: t => t.dropWhile Char.isDigit
      | t => t
    if whole.isEmpty && fraction.isEmpty then none
    else
      (exponent? tail).map fun e => .finite negative (digitsValue (whole ++ fraction)) (e - fraction.length)

/-- `Numeral.read s`: the numeral that a text is. -/
def Numeral.read (s : String) : Option Numeral :=
  match s.toList.map Char.toLower with
  | '-' :: cs => unsigned? true cs
  | '+' :: cs => unsigned? false cs
  | cs => unsigned? false cs

/-- `magnitude digits power`: the double nearest to `digits * 10 ^ power`.  A number that is beyond
    every double, or nearer to zero than to any other double, is known by the place of its first
    digit. -/
def magnitude (digits : Nat) (power : Int) : Float :=
  let place : Int := (Nat.toDigits 10 digits).length + power
  if digits = 0 then 0.0
  else if 310 < place then 1.0 / 0.0
  else if place < -330 then 0.0
  else Float.ofScientific digits (decide (power < 0)) power.natAbs

/-- `r.toFloat`: the double nearest to what a numeral says. -/
def Numeral.toFloat : Numeral → Float
  | .notNumber => 0.0 / 0.0
  | .infinite negative => if negative then -1.0 / 0.0 else 1.0 / 0.0
  | .finite negative digits power =>
    if negative then -magnitude digits power else magnitude digits power

/-- `readFloat s`: the double that a text says. -/
def readFloat (s : String) : Option Float := (Numeral.read s).map Numeral.toFloat

/-- `readNat limit s`: the number below `limit` that a text says in digits, perhaps after `+`. -/
def readNat (limit : Nat) (s : String) : Option Nat :=
  let digits := match s.toList with
    | '+' :: cs => digits? cs
    | cs => digits? cs
  digits.filter fun n => n < limit

end BlockAdmm.Decimal
