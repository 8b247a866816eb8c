import Supermartingale.Number.Approx

/-!
# Powers of binary approximations

A power with a whole exponent is a product, and one with half a whole number as exponent goes
through the square root. Every other power is the exponential of the exponent times the logarithm.
-/

namespace Supermartingale.Logarithm

/-! ## Natural logarithms -/

def places : Nat := 200

def fixed (q : Rat) : Int := Int.fdiv (q.num * Int.pow 2 places) q.den

def times (x y : Int) : Int := Int.fdiv (x * y) (Int.pow 2 places)

/-- The sum of `power / k + power * square / (k + 2) + …` over `terms` terms. -/
def series (square : Int) : Nat → Nat → Int → Int
  | 0, _, _ => 0
  | terms + 1, k, power => Int.fdiv power k + series square terms (k + 2) (times power square)

def twiceArtanh (z : Int) : Int := 2 * series (times z z) 80 1 z

def logTwo : Int := twiceArtanh (fixed (1 / 3))

def scale (q : Rat) : Int :=
  let guess : Int := (q.num.natAbs.log2 : Int) - (q.den.log2 : Int)
  let scaled := q / Double.powTwo guess
  if scaled < 2 / 3 then guess - 1 else if 4 / 3 ≤ scaled then guess + 1 else guess

def ofPositive (q : Rat) : Int :=
  let k := scale q
  let m := q / Double.powTwo k
  twiceArtanh (fixed ((m - 1) / (m + 1))) + k * logTwo

def approx (precision : Nat) (q : Rat) : Approx :=
  Approx.ofRat precision ((ofPositive q : Rat) / (Nat.pow 2 places : Rat))

end Supermartingale.Logarithm

/-! ## Exponentials and angles -/

namespace Supermartingale.Exponential

open Logarithm (places fixed times)

def ofFixed (x : Int) : Rat := (x : Rat) / (Nat.pow 2 places : Rat)

def one : Int := Int.pow 2 places

/-- The sum of `power / k! + power * x / (k + 1)! + …` over `terms` terms, where `power` stands for
the quotient of the first term. -/
def series (x : Int) : Nat → Nat → Int → Int
  | 0, _, _ => 0
  | terms + 1, k, power => power + series x terms (k + 1) (Int.fdiv (times power x) (k + 1))

/-- The exponential of a rational, as a fixed point number and the power of two that scales it. -/
def parts (q : Rat) : Int × Int :=
  let k := (q / ofFixed Logarithm.logTwo + 1 / 2).floor
  let r := fixed q - k * Logarithm.logTwo
  (series r 80 0 one, k)

def approx (precision : Nat) (q : Rat) : Approx :=
  let (m, k) := parts q
  Approx.ofRat precision (ofFixed m * Double.powTwo k)

/-- The sum of the alternating series `power / k - power * square / (k + 2) + …`. -/
def arctanSeries (square : Int) : Nat → Nat → Int → Int
  | 0, _, _ => 0
  | terms + 1, k, power => Int.fdiv power k - arctanSeries square terms (k + 2) (times power square)

def arctanInverse (n : Nat) : Int :=
  let x := fixed (1 / (n : Rat))
  arctanSeries (times x x) 100 1 x

def pi : Int := 16 * arctanInverse 5 - 4 * arctanInverse 239

/-- The alternating sum `power - power * square / ((k + 1) * (k + 2)) + …`. -/
def circleSeries (square : Int) : Nat → Nat → Int → Int
  | 0, _, _ => 0
  | terms + 1, k, power =>
    power - circleSeries square terms (k + 2)
      (Int.fdiv (times power square) ((k + 1) * (k + 2)))

def wind (q : Rat) : Int :=
  let turns := (q / ofFixed (2 * pi) + 1 / 2).floor
  fixed q - turns * (2 * pi)

def cosine (q : Rat) : Rat :=
  let x := wind q
  ofFixed (circleSeries (times x x) 80 0 one)

def sine (q : Rat) : Rat :=
  let x := wind q
  ofFixed (circleSeries (times x x) 80 1 x)

end Supermartingale.Exponential

/-! ## Powers of binary approximations -/

namespace Supermartingale

namespace Approx

def sqrtAt (precision : Nat) (q : Rat) : Rat :=
  -- A root to some more bits than the precision; a bit below them tells that it is not exact.
  let shift := precision + 8 + q.den.log2
  let scaled := q.num.natAbs * Nat.pow 2 (2 * shift) / q.den
  let root := floorRoot 2 scaled
  let exact := root * root = scaled && (q.num.natAbs * Nat.pow 2 (2 * shift)) % q.den = 0
  let value := if exact then (root : Rat) else (root : Rat) + 1 / 4
  roundBits precision (value / (Nat.pow 2 shift : Rat))

def powInt (precision : Nat) (q : Rat) (k : Int) : Rat :=
  match k with
  | .ofNat k => powAt precision q k
  | .negSucc k => (invPow ⟨q, precision⟩ (k + 1)).value

def powReal (precision : Nat) (b e : Rat) : Rat :=
  if e.den = 1 then powInt precision b e.num
  else if e.den = 2 then
    if e.num = 1 then sqrtAt precision b
    else if e.num = -1 then roundBits precision (1 / sqrtAt (precision + 10) b)
    else powInt precision (sqrtAt (precision + 10) b) e.num
  else if b = 0 then 0
  else
    let logarithm := (Logarithm.approx (precision + 10) b).value
    (Exponential.approx precision (e * logarithm)).value

def powComplex (precision : Nat) (b e : Rat) : Rat × Rat :=
  let guard := precision + 10
  if e.den = 2 then
    let root := sqrtAt guard (-b)
    let size := powInt precision root e.num
    match e.num % 4 with
    | 1 => (0, size)
    | _ => (0, -size)
  else
    let logarithm := (Logarithm.approx guard (-b)).value
    let half := roundBits guard (Exponential.ofFixed Exponential.pi)
    let re := roundBits guard (logarithm * e)
    let angle := roundBits guard (half * e)
    if re = 0 then
      (roundBits precision (Exponential.cosine angle), roundBits precision (Exponential.sine angle))
    else
      let size := (Exponential.approx (precision + 4) re).value
      let c := roundBits (precision + 4) (Exponential.cosine angle)
      let s := roundBits (precision + 4) (Exponential.sine angle)
      (roundBits precision (size * c), roundBits precision (size * s))

end Approx

end Supermartingale
