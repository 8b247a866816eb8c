import Supermartingale.Error
import Supermartingale.Number.ComplexDouble

/-!
# Quantities

What a formula over a grid evaluates to: a number, or an array with a number for every point. In arrays a division by
zero is infinite or undefined and whole numbers have a fixed width; between numbers as they are written it is an
error, and whole numbers are as large as needed.
-/

namespace Supermartingale

/-! ## Whole numbers of fixed width -/

structure Word where
  unsigned : Bool
  value : Int
deriving DecidableEq, Repr

namespace Word

def modulus : Int := 18446744073709551616

def range (unsigned : Bool) : Int × Int :=
  if unsigned then (0, modulus) else (-(modulus / 2), modulus / 2)

def fits (unsigned : Bool) (n : Int) : Bool :=
  let (low, high) := range unsigned
  low ≤ n && n < high

def wrap (unsigned : Bool) (n : Int) : Word :=
  ⟨unsigned, if unsigned then n % modulus else (n + modulus / 2) % modulus - modulus / 2⟩

def ofInt? (n : Int) : Option Word :=
  if fits false n then some ⟨false, n⟩ else if fits true n then some ⟨true, n⟩ else none

def neg (w : Word) : Word := wrap w.unsigned (-w.value)

def abs (w : Word) : Word := wrap w.unsigned w.value.natAbs

def powNat (w : Word) (fuel k : Nat) (r : Word) : Word :=
  match fuel with
  | 0 => r
  | fuel + 1 =>
    if k = 0 then r
    else (wrap w.unsigned (w.value * w.value)).powNat fuel (k / 2)
      (if k % 2 = 1 then wrap w.unsigned (r.value * w.value) else r)

def pow (w : Word) (k : Nat) : Word := w.powNat 64 k ⟨w.unsigned, 1⟩

def toDouble (w : Word) : Float := Number.nearestDouble w.value

end Word

end Supermartingale

namespace Supermartingale.Plot

inductive Quantity where
  | nothing
  | whole (n : Int)
  | plain (x : Float)
  | complex (z : ComplexDouble)
  | word (w : Word)
  | entry (x : Float)
  | point (z : ComplexDouble)
  | array (xs : List Float)
  | points (zs : List ComplexDouble)

namespace Quantity

/-! ## Doubles -/

def remainderTowardZero (a b : Float) : Float :=
  if a.isNaN || b.isNaN || a.isInf || b == 0 then 0.0 / 0.0
  else if b.isInf then a
  else
    let x := Double.magnitude a
    let y := Double.magnitude b
    let r := Number.nearestDouble (x - (((x / y).floor : Int) : Rat) * y)
    if Double.signBit a then -r else r

def withSign (x y : Float) : Float :=
  if Double.signBit x == Double.signBit y then x else -x

/-- Quotient and remainder of a division that goes down; the remainder has the divisor's sign. -/
def floorDivide (a b : Float) : Float × Float :=
  let rest := remainderTowardZero a b
  if b == 0 then (a / b, rest)
  else
    let quotient := (a - rest) / b
    let (quotient, rest) :=
      if rest == 0 then (quotient, withSign 0.0 b)
      else if (b < 0) != (rest < 0) then (quotient - 1.0, rest + b)
      else (quotient, rest)
    let snapped :=
      if quotient == 0 then withSign 0.0 (a / b)
      else
        let down := quotient.floor
        if quotient - down > 0.5 then down + 1.0 else down
    (snapped, rest)

/-- The power of an entry of an array. A few exponents are computed without one. -/
def powerOf (exponent x : Float) : Float :=
  if exponent == 1.0 then x
  else if exponent == 2.0 then x * x
  else if exponent == -1.0 then 1.0 / x
  else if exponent == 0.0 then 1.0
  else if exponent == 0.5 then Float.sqrt x
  else Float.pow x exponent

/-! ## Operations -/

def zipLists {α β γ : Type} (f : α → β → γ) (xs : List α) (ys : List β) : Except Error (List γ) :=
  match xs, ys with
  | [x], ys => .ok (ys.map (f x))
  | xs, [y] => .ok (xs.map (fun x => f x y))
  | xs, ys => if xs.length = ys.length then .ok (List.zipWith f xs ys) else .error .shapesDiffer

def zipArrays (f : Float → Float → Float) (xs ys : List Float) : Except Error Quantity := do
  return .array (← zipLists f xs ys)

def toDouble : Quantity → Except Error Float
  | whole n => liftFault (Number.int n).toDouble
  | plain x => .ok x
  | word w => .ok w.toDouble
  | entry x => .ok x
  | _ => .error .misapplied

def toComplex : Quantity → Except Error ComplexDouble
  | complex z => .ok z
  | point z => .ok z
  | a => do return .ofDouble (← a.toDouble)

def ofNumber : Number → Quantity
  | .int n => whole n
  | .double x => plain x

def written? : Quantity → Option Number
  | whole n => some (.int n)
  | plain x => some (.double x)
  | _ => none

def isWritten : Quantity → Bool
  | complex _ => true
  | a => a.written?.isSome

def isComplex : Quantity → Bool
  | complex _ => true
  | point _ => true
  | points _ => true
  | _ => false

/-- An operation, by its rules for numbers as they are written, for words of one sort, and for
entries of arrays. -/
structure Operation where
  written : Number → Number → Except Error Quantity
  writtenComplex : Option (ComplexDouble → ComplexDouble → Except Error ComplexDouble)
  words : Word → Word → Except Error Quantity
  entries : Float → Float → Float
  points : Option (ComplexDouble → ComplexDouble → ComplexDouble)

def combineDoubles (f : Float → Float → Float) (a b : Quantity) : Except Error Quantity :=
  match a, b with
  | array xs, array ys => zipArrays f xs ys
  | array xs, b => do
    let y ← b.toDouble
    return .array (xs.map (fun x => f x y))
  | a, array ys => do
    let x ← a.toDouble
    return .array (ys.map (f x))
  | a, b => do return .entry (f (← a.toDouble) (← b.toDouble))

def complexList? : Quantity → Option (List ComplexDouble)
  | array xs => some (xs.map .ofDouble)
  | points zs => some zs
  | _ => none

def combineComplex (f : ComplexDouble → ComplexDouble → ComplexDouble) (a b : Quantity) : Except Error Quantity :=
  match a.complexList?, b.complexList? with
  | some xs, some ys => do return .points (← zipLists f xs ys)
  | some xs, none => do
    let y ← b.toComplex
    return .points (xs.map (fun x => f x y))
  | none, some ys => do
    let x ← a.toComplex
    return .points (ys.map (f x))
  | none, none => do return .point (f (← a.toComplex) (← b.toComplex))

/-- Two words of one sort: a whole number as it is written takes the sort of the other one, which it
has to fit. -/
def words? (a b : Quantity) : Except Error (Option (Word × Word)) :=
  match a, b with
  | word v, word w => .ok (if v.unsigned == w.unsigned then some (v, w) else none)
  | word w, whole n =>
    if Word.fits w.unsigned n then .ok (some (w, ⟨w.unsigned, n⟩)) else .error .numberTooLarge
  | whole n, word w =>
    if Word.fits w.unsigned n then .ok (some (⟨w.unsigned, n⟩, w)) else .error .numberTooLarge
  | _, _ => .ok none

def combine (o : Operation) (a b : Quantity) : Except Error Quantity :=
  match a.written?, b.written? with
  | some x, some y => o.written x y
  | _, _ =>
    match a, b with
    | nothing, _ => .error .misapplied
    | _, nothing => .error .misapplied
    | a, b =>
      if a.isWritten && b.isWritten then
        match o.writtenComplex with
        | some f => do return .complex (← f (← a.toComplex) (← b.toComplex))
        | none => .error .misapplied
      else if a.isComplex || b.isComplex then
        match o.points with
        | some f => combineComplex f a b
        | none => .error .misapplied
      else do
        match ← words? a b with
        | some (v, w) => o.words v w
        | none => combineDoubles o.entries a b

def Operation.uniform (onNumbers : Number → Number → Except Number.Fault Number)
    (onWhole : Int → Int → Int) (onDoubles : Float → Float → Float)
    (onComplex : ComplexDouble → ComplexDouble → ComplexDouble) : Operation where
  written x y := do return ofNumber (← liftFault (onNumbers x y))
  writtenComplex := some (fun x y => .ok (onComplex x y))
  words v w := .ok (.word (Word.wrap v.unsigned (onWhole v.value w.value)))
  entries := onDoubles
  points := some onComplex

def add : Quantity → Quantity → Except Error Quantity := combine (.uniform Number.add (· + ·) (· + ·) ComplexDouble.add)

def sub : Quantity → Quantity → Except Error Quantity := combine (.uniform Number.sub (· - ·) (· - ·) ComplexDouble.sub)

def mul : Quantity → Quantity → Except Error Quantity := combine (.uniform Number.mul (· * ·) (· * ·) ComplexDouble.mul)

def div : Quantity → Quantity → Except Error Quantity :=
  combine {
    written := fun x y => do return ofNumber (← liftFault (x.div y))
    writtenComplex := some (fun x y => if y.isZero then .error .zeroDivisor else .ok (x.div y))
    words := fun v w => .ok (.entry (v.toDouble / w.toDouble))
    entries := (· / ·)
    points := some ComplexDouble.divByReciprocal }

def divideWritten (x y : Number) : Except Error (Number × Number) :=
  match x, y with
  | .int a, .int b =>
    if b = 0 then .error .zeroDivisor else .ok (.int (Int.fdiv a b), .int (Int.fmod a b))
  | x, y => do
    let a ← liftFault x.toDouble
    let b ← liftFault y.toDouble
    if b == 0 then throw .zeroDivisor
    let (q, r) := floorDivide a b
    return (.double q, .double r)

/-- One of the two parts of a division that goes down. -/
def divided (part : {α : Type} → α × α → α) : Quantity → Quantity → Except Error Quantity :=
  combine {
    written := fun x y => do return ofNumber (part (← divideWritten x y))
    writtenComplex := none
    words := fun v w => .ok (.word (Word.wrap v.unsigned (if w.value = 0 then 0
      else part (Int.fdiv v.value w.value, Int.fmod v.value w.value))))
    entries := fun x y => part (floorDivide x y)
    points := none }

def quotient : Quantity → Quantity → Except Error Quantity := divided Prod.fst

def remainder : Quantity → Quantity → Except Error Quantity := divided Prod.snd

/-- The power of complex numbers as they are written. Small whole exponents are computed by
multiplication. -/
def powComplex (x y : ComplexDouble) : Except Error ComplexDouble :=
  let r := match y.smallExponent? 100.0 with
    | some k =>
      let p := x.powNat 7 k.natAbs ⟨1.0, 0.0⟩
      if k ≤ 0 then (ComplexDouble.ofDouble 1.0).div p else p
    | none => x.pow y
  if x.isZero && (y.re < 0 || y.im != 0) then .error .zeroDivisor
  else if (r.re.isInf || r.im.isInf) && !(x.re.isInf || x.im.isInf || y.re.isInf || y.im.isInf) then
    .error .numberTooLarge
  else .ok r

/-- The power of written numbers: one of whole numbers is whole unless the exponent is negative, and
one of a negative number with a fraction as exponent is complex. -/
def powWritten (x y : Number) : Except Error Quantity :=
  match x, y with
  | .int a, .int (.ofNat k) => .ok (whole (Int.pow a k))
  | x, y => do
    let a ← liftFault x.toDouble
    let b ← liftFault y.toDouble
    if a == 0 && b < 0 then throw .zeroDivisor
    if a < 0 && !a.isInf && !b.isInf && !b.isNaN && b != b.floor then
      return .complex (← powComplex (.ofDouble a) (.ofDouble b))
    let r := Float.pow a b
    if r.isInf && !a.isInf && !b.isInf then throw .numberTooLarge
    return plain r

def powerOfPoint (exponent : Float) (z : ComplexDouble) : ComplexDouble :=
  if exponent == 1.0 then z
  else if exponent == 2.0 then z.mul z
  else if exponent == -1.0 then (ComplexDouble.ofDouble 1.0).div z
  else if exponent == 0.0 then ⟨1.0, 0.0⟩
  else if exponent == 0.5 then z.sqrt
  else z.powByLogarithm (.ofDouble exponent)

def pow (a b : Quantity) : Except Error Quantity :=
  match a, b.toDouble with
  | array xs, .ok y => .ok (.array (xs.map (powerOf y)))
  | points zs, .ok y => .ok (.points (zs.map (powerOfPoint y)))
  | a, _ =>
    combine {
      written := powWritten
      writtenComplex := some powComplex
      words := fun v w =>
        if w.value < 0 then .error .negativeWordPower else .ok (.word (v.pow w.value.natAbs))
      entries := Float.pow
      points := some ComplexDouble.powByLogarithm } a b

def xorWhole (m n : Int) : Int :=
  let bits (k : Int) : Nat := match k with
    | .ofNat k => k
    | .negSucc k => k
  let r : Int := Nat.xor (bits m) (bits n)
  if (m < 0) == (n < 0) then r else -r - 1

def xor (a b : Quantity) : Except Error Quantity := do
  match a, b with
  | whole m, whole n => return whole (xorWhole m n)
  | a, b =>
    match ← words? a b with
    | some (v, w) => return .word (Word.wrap v.unsigned (xorWhole v.value w.value))
    | none => throw .misapplied

def neg : Quantity → Except Error Quantity
  | nothing => .error .misapplied
  | whole n => .ok (whole (-n))
  | plain x => .ok (plain (-x))
  | complex z => .ok (complex z.neg)
  | word w => .ok (word w.neg)
  | entry x => .ok (entry (-x))
  | point z => .ok (point z.neg)
  | array xs => .ok (array (xs.map (fun x => -x)))
  | points zs => .ok (points (zs.map ComplexDouble.neg))

/-- The magnitude, which is computed like an entry of an array; only a whole number that is too large
for that stays as it is. -/
def abs : Quantity → Except Error Quantity
  | nothing => .error .misapplied
  | whole n => .ok (match Word.ofInt? n with
    | some w => word w.abs
    | none => whole n.natAbs)
  | plain x => .ok (entry x.abs)
  | complex z => .ok (entry z.abs)
  | word w => .ok (word w.abs)
  | entry x => .ok (entry x.abs)
  | point z => .ok (entry z.abs)
  | array xs => .ok (array (xs.map Float.abs))
  | points zs => .ok (array (zs.map ComplexDouble.abs))

/-- The square root, which is always computed like an entry of an array. -/
def sqrt : Quantity → Except Error Quantity
  | nothing => .error .misapplied
  | whole n => match Word.ofInt? n with
    | some w => .ok (entry w.toDouble.sqrt)
    | none => .error .misapplied
  | complex z => .ok (point z.sqrt)
  | point z => .ok (point z.sqrt)
  | array xs => .ok (array (xs.map Float.sqrt))
  | points zs => .ok (points (zs.map ComplexDouble.sqrt))
  | a => do return entry (Float.sqrt (← a.toDouble))

/-- Divides a quantity in place: an array of doubles cannot become one of complex numbers. -/
def divInPlace (a b : Quantity) : Except Error Quantity :=
  match a with
  | array _ => if b.isComplex then .error .misapplied else a.div b
  | a => a.div b

inductive Shown where
  | single (s : String)
  | several (ss : List String)
deriving DecidableEq, Repr

def shown : Quantity → Except Error Shown
  | nothing => .ok (.single "None")
  | whole n =>
    if (Number.int n).isWritable then .ok (.single (toString n)) else .error .numeralTooLong
  | plain x => .ok (.single (Double.text x))
  | complex z => .ok (.single z.text)
  | word w => .ok (.single (toString w.value))
  | entry x => .ok (.single (Double.text x))
  | point z => .ok (.single z.text)
  | array xs => .ok (.several (xs.map Double.text))
  | points zs => .ok (.several (zs.map ComplexDouble.text))

end Quantity

end Supermartingale.Plot
