import Supermartingale.Number

/-!
# Doubles with a given number of places or digits

Rounding starts from the exact value of a double; only exact ties go to the even neighbour.
-/

namespace Supermartingale.Double

def units (places : Int) (q : Rat) : Nat :=
  let scaled := q * powTen places
  roundDiv .toEven scaled.num.natAbs scaled.den

def fixed (places : Nat) (x : Float) : String :=
  if x.isNaN then "nan"
  else if x.isInf then (if x < 0 then "-inf" else "inf")
  else
    let sign := if signBit x then "-" else ""
    let digits := Nat.toDigits 10 (units places (magnitude x))
    let padded := List.replicate (places + 1 - digits.length) '0' ++ digits
    let whole := padded.take (padded.length - places)
    let rest := padded.drop (padded.length - places)
    sign ++ String.ofList whole ++ (if places = 0 then "" else "." ++ String.ofList rest)

/-- The double nearest to a double that is rounded to so many places after the point; a negative
number of places rounds in front of it. -/
def round? (places : Int) (x : Float) : Option Float :=
  if x.isNaN || x.isInf || places > 323 then some x
  else if places < -308 then some (0.0 * x)
  else
    let y := Number.nearestDouble ((units places (magnitude x) : Rat) * powTen (-places))
    if y.isInf then none else some (if signBit x then -y else y)

def generalDigits : Nat := 6

/-- The general form of a double: six digits without zeros at the end, positional from `1e-4` up to
below `1e6`. -/
def general (x : Float) : String :=
  if x.isNaN then "nan"
  else if x.isInf then (if x < 0 then "-inf" else "inf")
  else
    let sign := if signBit x then "-" else ""
    if x == 0 then sign ++ "0"
    else
      let q := magnitude x
      let d := (Digits.ofQuotient .toEven generalDigits q.num.natAbs q.den).strip
      let digits := Nat.toDigits 10 d.digits
      if -4 ≤ d.exponent && d.exponent < generalDigits then
        let s := positional digits d.exponent
        sign ++ (if digits.length ≤ d.exponent.toNat + 1 && 0 ≤ d.exponent then
          String.ofList (s.toList.take (s.length - 2)) else s)
      else sign ++ scientific digits d.exponent

end Supermartingale.Double
