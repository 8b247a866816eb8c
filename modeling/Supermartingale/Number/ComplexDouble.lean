import Supermartingale.Number

/-!
# Points of the complex plane

A pair of doubles as real and imaginary part. A quotient is scaled by the larger part of the
divisor, and a power goes through the polar form.
-/

namespace Supermartingale

structure ComplexDouble where
  re : Float
  im : Float

namespace ComplexDouble

instance : Inhabited ComplexDouble := ⟨⟨0.0, 0.0⟩⟩

def ofDouble (x : Float) : ComplexDouble := ⟨x, 0.0⟩

def add (a b : ComplexDouble) : ComplexDouble := ⟨a.re + b.re, a.im + b.im⟩

def sub (a b : ComplexDouble) : ComplexDouble := ⟨a.re - b.re, a.im - b.im⟩

def neg (a : ComplexDouble) : ComplexDouble := ⟨-a.re, -a.im⟩

def mul (a b : ComplexDouble) : ComplexDouble := ⟨a.re * b.re - a.im * b.im, a.re * b.im + a.im * b.re⟩

def isZero (a : ComplexDouble) : Bool := a.re == 0 && a.im == 0

def div (a b : ComplexDouble) : ComplexDouble :=
  if b.re.abs >= b.im.abs then
    let ratio := b.im / b.re
    let denominator := b.re + b.im * ratio
    ⟨(a.re + a.im * ratio) / denominator, (a.im - a.re * ratio) / denominator⟩
  else
    let ratio := b.re / b.im
    let denominator := b.re * ratio + b.im
    ⟨(a.re * ratio + a.im) / denominator, (a.im * ratio - a.re) / denominator⟩

/-- The distance from zero, without overflow on the way: the larger part times the root of one plus
a ratio. -/
def abs (a : ComplexDouble) : Float :=
  let x := a.re.abs
  let y := a.im.abs
  if x.isInf || y.isInf then 1.0 / 0.0
  else if x.isNaN || y.isNaN then 0.0 / 0.0
  else
    let p := Double.value x
    let q := Double.value y
    if q == 0 then x else if p == 0 then y
    else Number.nearestDouble (root (p * p + q * q))
where
  root (s : Rat) : Rat :=
    let shift := 120 + s.den.log2
    let n := s.num.natAbs * Nat.pow 2 (2 * shift) / s.den
    (floorRoot 2 n : Rat) / (Nat.pow 2 shift : Rat)

def pow (a b : ComplexDouble) : ComplexDouble :=
  if b.isZero then ⟨1.0, 0.0⟩
  else if a.isZero then ⟨0.0, 0.0⟩
  else
    let distance := a.abs
    let angle := Float.atan2 a.im a.re
    let size := Float.pow distance b.re
    let phase := angle * b.re
    if b.im == 0 then ⟨size * Float.cos phase, size * Float.sin phase⟩
    else
      let size := size / Float.exp (angle * b.im)
      let phase := phase + b.im * Float.log distance
      ⟨size * Float.cos phase, size * Float.sin phase⟩

def powNat (p : ComplexDouble) (fuel k : Nat) (r : ComplexDouble) : ComplexDouble :=
  match fuel with
  | 0 => r
  | fuel + 1 =>
    if k = 0 then r
    else (p.mul p).powNat fuel (k / 2) (if k % 2 = 1 then r.mul p else r)

def smallExponent? (limit : Float) (b : ComplexDouble) : Option Int :=
  if b.im == 0 && b.re == b.re.floor && b.re.abs <= limit then
    some (if b.re < 0 then -(b.re.abs.toUInt64.toNat : Int) else (b.re.toUInt64.toNat : Int))
  else none

/-- The quotient with the reciprocal of the scaled divisor; a divisor of zero gives infinite or
undefined parts. -/
def divByReciprocal (a b : ComplexDouble) : ComplexDouble :=
  if b.re.abs >= b.im.abs then
    if b.isZero then ⟨a.re / b.re.abs, a.im / b.re.abs⟩
    else
      let ratio := b.im / b.re
      let scale := 1.0 / (b.re + b.im * ratio)
      ⟨(a.re + a.im * ratio) * scale, (a.im - a.re * ratio) * scale⟩
  else
    let ratio := b.re / b.im
    let scale := 1.0 / (b.im + b.re * ratio)
    ⟨(a.re * ratio + a.im) * scale, (a.im * ratio - a.re) * scale⟩

def signedLike (x y : Float) : Float := if Double.signBit y then -x.abs else x.abs

def sqrt (a : ComplexDouble) : ComplexDouble :=
  if a.im == 0 then
    if a.re < 0 then ⟨0.0, signedLike (-a.re).sqrt a.im⟩
    else ⟨a.re.sqrt.abs, signedLike 0.0 a.im⟩
  else if a.re == 0 then
    let r := (0.5 * a.im.abs).sqrt
    ⟨r, signedLike r a.im⟩
  else
    let d := a.abs
    if a.re > 0 then
      let r := (0.5 * (d + a.re)).sqrt
      ⟨r, signedLike (0.5 * (a.im / r)) a.im⟩
    else
      let s := (0.5 * (d - a.re)).sqrt
      ⟨(0.5 * (a.im / s)).abs, signedLike s a.im⟩

def exp (a : ComplexDouble) : ComplexDouble :=
  let size := Float.exp a.re
  ⟨size * Float.cos a.im, size * Float.sin a.im⟩

/-- The power through the logarithm. -/
def powByLogarithm (a b : ComplexDouble) : ComplexDouble :=
  if b.isZero then ⟨1.0, 0.0⟩
  else if a.isZero then
    if b.re > 0 && b.im == 0 then ⟨0.0, 0.0⟩ else ⟨0.0 / 0.0, 0.0 / 0.0⟩
  else match b.smallExponent? 99.0 with
    | some k =>
      if k = 1 then a
      else if k = 2 then a.mul a
      else if k = 3 then a.mul (a.mul a)
      else
        let r := a.powNat 7 k.natAbs ⟨1.0, 0.0⟩
        if k < 0 then (ofDouble 1.0).divByReciprocal r else r
    | none => (b.mul ⟨Float.log a.abs, Float.atan2 a.im a.re⟩).exp

def partText (x : Float) : String :=
  let s := Double.text x
  if s.toList.drop (s.length - 2) == ['.', '0'] then String.ofList (s.toList.take (s.length - 2)) else s

/-- The text of a complex number. A real part that is a positive zero is left out. -/
def text (a : ComplexDouble) : String :=
  let im := partText a.im
  if a.re == 0 && !Double.signBit a.re then im ++ "j"
  else "(" ++ partText a.re ++ (if im.toList.head? == some '-' then "" else "+") ++ im ++ "j)"

end ComplexDouble

end Supermartingale
