import Supermartingale.Number

/-!
# Binary approximations with a stated precision

A decimal in a polynomial is held as the nearest binary value with a given number of bits. Operations are exact and
then rounded to the larger precision, so an approximation is an exact rational together with its precision.
-/

namespace Supermartingale

/-- The value nearest to `q` with a mantissa of `bits` bits; ties go to the even mantissa. -/
def roundBits (bits : Nat) (q : Rat) : Rat :=
  let n := q.num.natAbs
  let d := q.den
  if n = 0 then 0
  else
    let unit := binaryExponent n d - bits + 1
    let (a, b) := scaleTwo n d unit
    let mantissa := (roundDiv .toEven a b : Rat) * Double.powTwo unit
    if q.num < 0 then -mantissa else mantissa

structure Approx where
  value : Rat
  precision : Nat
deriving DecidableEq

namespace Approx

/-- The bits that `digits` decimal digits need: each takes 3.3219280948873626 of them, and one
digit is kept in reserve. -/
def bitsOfDigits (digits : Nat) : Nat := roundDiv .toEven ((digits + 1) * 33219280948873626) (Nat.pow 10 16)

def digitsOfBits (bits : Nat) : Nat := max 1 (roundDiv .toEven (bits * Nat.pow 10 16) 33219280948873626 - 1)

def standard : Nat := 53

def ofRat (precision : Nat) (q : Rat) : Approx := ⟨roundBits precision q, precision⟩

/-- The approximation of a numeral. -/
def ofNumeral (x : Numeral) : Approx :=
  let q := x.value
  let whole := if !x.pointed && q.den = 1 then digitCount q.num.natAbs else 0
  let digits := max 15 (max x.significant whole)
  ofRat (bitsOfDigits digits) q

def lift (f : Rat → Rat → Rat) (x y : Approx) : Approx :=
  let precision := max x.precision y.precision
  ofRat precision (f x.value y.value)

def add (x y : Approx) : Approx := lift (· + ·) x y

def mul (x y : Approx) : Approx := lift (· * ·) x y

def div (x y : Approx) : Approx := lift (· / ·) x y

def neg (x : Approx) : Approx := { x with value := -x.value }

def twosWithin : Nat → Nat → Nat
  | 0, _ => 0
  | fuel + 1, n => if n % 2 = 0 then twosWithin fuel (n / 2) + 1 else 0

/-- The odd mantissa of the magnitude of a binary fraction that is not zero, and its power of
two. -/
def mantissa (q : Rat) : Nat × Int :=
  let n := q.num.natAbs
  let twos := twosWithin n.log2 n
  (n / Nat.pow 2 twos, (twos : Int) - (q.den.log2 : Int))

def cut (bits : Nat) (m : Nat × Int) : Nat × Int :=
  let surplus := m.1.log2 + 1 - bits
  (m.1 / Nat.pow 2 surplus, m.2 + surplus)

/-- The product of `acc` and the power `m ^ k`, by squaring; every intermediate mantissa is cut
down to `bits` bits. -/
def powerWithin (bits : Nat) : Nat → Nat → Nat × Int → Nat × Int → Nat × Int
  | 0, _, _, acc => acc
  | fuel + 1, k, m, acc =>
    let acc := if k % 2 = 1 then cut bits (acc.1 * m.1, acc.2 + m.2) else acc
    if k ≤ 1 then acc
    else powerWithin bits fuel (k / 2) (cut bits (m.1 * m.1, m.2 + m.2)) acc

/-- A natural power at a precision. -/
def powAt (precision : Nat) (q : Rat) (k : Nat) : Rat :=
  if q = 0 || k ≤ 2 then roundBits precision (q ^ k)
  else
    let m := mantissa q
    if (m.1.log2 + 1) * k < 1000 then roundBits precision (q ^ k)
    else
      let bits := precision + 4 * (k.log2 + 1) + 4
      let p := powerWithin bits (k.log2 + 1) k m (1, 0)
      let magnitude := (p.1 : Rat) * Double.powTwo p.2
      roundBits precision (if q < 0 && k % 2 = 1 then -magnitude else magnitude)

/-- The power to the negative of a natural number that is not zero: the power is found with five
more bits and then inverted. -/
def invPow (x : Approx) (k : Nat) : Approx :=
  if k = 1 then ofRat x.precision (1 / x.value)
  else ofRat x.precision (1 / powAt (x.precision + 5) x.value k)

def inverse (x : Approx) : Approx := ofRat x.precision (1 / x.value)

/-- The significant digits of the magnitude of a value that is not zero, as many as the precision
carries; a tie goes away from zero. -/
def digits (x : Approx) : Digits :=
  Digits.ofQuotient .awayFromZero (digitsOfBits x.precision) x.value.num.natAbs x.value.den

/-- Drops the zeros at the end of a text with a point; behind a bare point one zero is left. -/
def trimZeros (cs : List Char) : List Char :=
  let kept := (cs.reverse.dropWhile (· == '0')).reverse
  if kept.getLast? == some '.' then kept ++ ['0'] else kept

/-- The text of an approximation with `count` digits. -/
def layout (trim : Bool) (count : Nat) (d : Digits) : String :=
  let digits := Nat.toDigits 10 d.digits
  let least : Int := min (-((count / 3 : Nat) : Int)) (-5)
  let fixed := least < d.exponent && d.exponent < (count : Int)
  let body :=
    if fixed && d.exponent < 0 then
      '0' :: '.' :: (List.replicate ((-d.exponent).toNat - 1) '0' ++ digits)
    else
      let split := if fixed then d.exponent.toNat + 1 else 1
      digits.take split ++ '.' :: digits.drop split
  let body := String.ofList (if trim then trimZeros body else body)
  if fixed || d.exponent = 0 then body
  else if d.exponent < 0 then body ++ "e" ++ toString d.exponent
  else body ++ "e+" ++ toString d.exponent

def render (trim : Bool) (x : Approx) : String :=
  if x.value.num = 0 then "0.0"
  else
    (if x.value.num < 0 then "-" else "") ++ layout trim (digitsOfBits x.precision) x.digits

def text (x : Approx) : String := x.render false

end Approx

end Supermartingale
