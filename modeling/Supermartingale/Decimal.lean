/-!
# Decimal digits of exact values

Everything that is printed starts from an exact quotient of natural numbers.
-/

namespace Supermartingale

inductive Tie where
  | toEven
  | awayFromZero
deriving DecidableEq, Repr

def roundDiv (tie : Tie) (n d : Nat) : Nat :=
  let below := n / d
  let rest := n % d
  if 2 * rest < d then below
  else if d < 2 * rest then below + 1
  else match tie with
    | .toEven => below + below % 2
    | .awayFromZero => below + 1

def digitCount (n : Nat) : Nat := (Nat.toDigits 10 n).length

def digitLimit : Nat := 4300

def isWritable (n : Nat) : Bool := n < Nat.pow 10 digitLimit

/-- `n` times ten to the power `k`, as a quotient whose denominator is a power of ten. -/
def scaleTen (n : Nat) (k : Int) : Nat × Nat :=
  match k with
  | .ofNat k => (n * Nat.pow 10 k, 1)
  | .negSucc k => (n, Nat.pow 10 (k + 1))

def leadingExponent (n d : Nat) : Int :=
  let guess : Int := (digitCount n : Int) - (digitCount d : Int)
  let (scaled, unit) := scaleTen d guess
  if scaled ≤ n * unit then guess else guess - 1

/-- Significant digits with the exponent of ten of the leading one: `⟨125, 0⟩` is 1.25. -/
structure Digits where
  digits : Nat
  exponent : Int
deriving DecidableEq, Repr

namespace Digits

/-- The positive quotient `n / d` rounded to `count` significant digits. -/
def ofQuotient (tie : Tie) (count n d : Nat) : Digits :=
  let exponent := leadingExponent n d
  let (scaled, unit) := scaleTen n ((count : Int) - 1 - exponent)
  let rounded := roundDiv tie scaled (unit * d)
  if rounded = Nat.pow 10 count then ⟨Nat.pow 10 (count - 1), exponent + 1⟩ else ⟨rounded, exponent⟩

def strip (d : Digits) : Digits :=
  let kept := (Nat.toDigits 10 d.digits).reverse.dropWhile (· == '0')
  let value := kept.reverse.foldl (fun n c => 10 * n + (c.toNat - '0'.toNat)) 0
  ⟨value, d.exponent⟩

end Digits

/-! ## Reading numerals -/

def digitsValue (cs : List Char) : Nat := cs.foldl (fun n c => 10 * n + (c.toNat - '0'.toNat)) 0

/-- An unsigned numeral: the digits written, as one number, the power of ten that scales them,
how many digits are significant, and whether a point was written. -/
structure Numeral where
  digits : Nat
  scale : Int
  significant : Nat
  pointed : Bool
deriving DecidableEq, Repr

namespace Numeral

def value (x : Numeral) : Rat :=
  match x.scale with
  | .ofNat k => ((x.digits * Nat.pow 10 k : Nat) : Rat)
  | .negSucc k => (x.digits : Rat) / (Nat.pow 10 (k + 1) : Rat)

/-- The numeral with integer part `whole`, digits `fraction` after the point and exponent `power`.
-/
def make (whole fraction : List Char) (power : Int) (pointed : Bool) : Numeral :=
  let written := whole ++ fraction
  { digits := digitsValue written
    scale := power - fraction.length
    significant := max 1 (written.dropWhile (· == '0')).length
    pointed := pointed }

end Numeral

def readExponent : List Char → Option (Int × List Char)
  | c :: rest =>
    if c == 'e' || c == 'E' then
      let (negative, rest) := match rest with
        | '-' :: r => (true, r)
        | '+' :: r => (false, r)
        | r => (false, r)
      let digits := rest.takeWhile Char.isDigit
      if digits.isEmpty then none
      else
        let value : Int := digitsValue digits
        some (if negative then -value else value, rest.dropWhile Char.isDigit)
    else none
  | [] => none

/-- The longest numeral at the start of a text: digits with an optional point among them (at
least one digit) and an optional exponent. -/
def readNumeral (cs : List Char) : Option (Numeral × Bool × List Char) :=
  let whole := cs.takeWhile Char.isDigit
  let rest := cs.dropWhile Char.isDigit
  let (fraction, pointed, rest) := match rest with
    | '.' :: r =>
      let fraction := r.takeWhile Char.isDigit
      if whole.isEmpty && fraction.isEmpty then ([], false, rest)
      else (fraction, true, r.dropWhile Char.isDigit)
    | r => ([], false, r)
  if whole.isEmpty && fraction.isEmpty then none
  else match readExponent rest with
    | some (power, rest) => some (Numeral.make whole fraction power pointed, true, rest)
    | none => some (Numeral.make whole fraction 0 pointed, false, rest)

end Supermartingale

/-! ## Shortest texts -/

namespace Supermartingale.Double

/-- Mantissa and binary exponent of a finite double, sign left aside. -/
structure Parts where
  mantissa : Nat
  exponent : Int
deriving DecidableEq, Repr

def parts (x : Float) : Parts :=
  let bits := x.toBits.toNat
  let field : Nat := bits / Nat.pow 2 52 % Nat.pow 2 11
  let fraction : Nat := bits % Nat.pow 2 52
  if field = 0 then ⟨fraction, -1074⟩ else ⟨Nat.pow 2 52 + fraction, (field : Int) - 1075⟩

def signBit (x : Float) : Bool := x.toBits.toNat / Nat.pow 2 63 = 1

def powTwo (k : Int) : Rat :=
  match k with
  | .ofNat k => (Nat.pow 2 k : Rat)
  | .negSucc k => 1 / (Nat.pow 2 (k + 1) : Rat)

def magnitude (x : Float) : Rat :=
  let p := parts x
  (p.mantissa : Rat) * powTwo p.exponent

def value (x : Float) : Rat :=
  if signBit x then -(magnitude x) else magnitude x

/-- The reals that round to a positive double lie between these bounds. -/
def bounds (p : Parts) : Rat × Rat :=
  let half := powTwo (p.exponent - 1)
  let centre := (p.mantissa : Rat) * powTwo p.exponent
  let below := if p.mantissa = Nat.pow 2 52 && p.exponent > -1074 then half / 2 else half
  (centre - below, centre + half)

def powTen (k : Int) : Rat :=
  match k with
  | .ofNat k => (Nat.pow 10 k : Rat)
  | .negSucc k => 1 / (Nat.pow 10 (k + 1) : Rat)

/-- The nearer of the two decimals of `count` digits next to the double, of those that lie in its
interval; a tie goes to the even one. -/
def candidate (p : Parts) (count : Nat) : Option Digits :=
  let centre := (p.mantissa : Rat) * powTwo p.exponent
  let (low, high) := bounds p
  let closed := p.mantissa % 2 = 0
  let inside (v : Rat) : Bool :=
    if closed then decide (low ≤ v) && decide (v ≤ high) else decide (low < v) && decide (v < high)
  let exponent := leadingExponent centre.num.natAbs centre.den
  let unit := powTen (exponent - count + 1)
  let floor := (centre / unit).floor.toNat
  let lower := (floor : Rat) * unit
  let upper := ((floor + 1 : Nat) : Rat) * unit
  let fit (digits : Nat) : Digits :=
    if digits = Nat.pow 10 count then ⟨Nat.pow 10 (count - 1), exponent + 1⟩ else ⟨digits, exponent⟩
  let down := centre - lower
  let up := upper - centre
  match inside lower, inside upper with
  | true, true =>
    if down < up then some (fit floor)
    else if up < down then some (fit (floor + 1))
    else some (fit (floor + floor % 2))
  | true, false => some (fit floor)
  | false, true => some (fit (floor + 1))
  | false, false => none

/-- The fewest digits that read back as the positive double `x`. Seventeen always do. -/
def shortest (x : Float) : Digits :=
  let p := parts x
  match (List.range 17).findSome? (fun k => candidate p (k + 1)) with
  | some d => d.strip
  | none => ⟨0, 0⟩

def positional (digits : List Char) (e : Int) : String :=
  let count := digits.length
  if e < 0 then
    "0." ++ String.ofList (List.replicate ((-e).toNat - 1) '0' ++ digits)
  else
    let whole := e.toNat + 1
    if count ≤ whole then
      String.ofList (digits ++ List.replicate (whole - count) '0') ++ ".0"
    else
      String.ofList (digits.take whole) ++ "." ++ String.ofList (digits.drop whole)

def exponentText (e : Int) : String :=
  let digits := toString e.natAbs
  let padded := if digits.length < 2 then "0" ++ digits else digits
  (if e < 0 then "e-" else "e+") ++ padded

def scientific (digits : List Char) (exponent : Int) : String :=
  let mantissa := match digits with
    | [] => ""
    | [c] => String.ofList [c]
    | c :: rest => String.ofList [c] ++ "." ++ String.ofList rest
  mantissa ++ exponentText exponent

/-- The text of a double: the fewest digits that read back, positional from `1e-4` up to below
`1e16`, always with a point or an exponent. -/
def text (x : Float) : String :=
  if x.isNaN then "nan"
  else if x.isInf then (if x < 0 then "-inf" else "inf")
  else
    let sign := if signBit x then "-" else ""
    if x == 0 then sign ++ "0.0"
    else
      let d := shortest x
      let digits := Nat.toDigits 10 d.digits
      if -4 ≤ d.exponent && d.exponent < 16 then sign ++ positional digits d.exponent
      else sign ++ scientific digits d.exponent

end Supermartingale.Double
