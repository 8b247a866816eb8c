import Supermartingale.Number.ComplexDouble
import Supermartingale.Symbolic

/-!
# Arithmetic of numbers, and the operations of the algebra

Two exact numbers are combined exactly. Beside an approximation an exact number is rounded to its
precision first, and the result is rounded again; an approximation that comes out as zero is the
exact zero.
-/

namespace Supermartingale.Symbolic

/-! ## Estimates -/

def estimateConstant : Constant → Option ComplexDouble
  | .euler => some (.ofDouble 2.718281828459045)
  | .pi => some (.ofDouble 3.141592653589793)
  | .imaginary => some ⟨0.0, 1.0⟩
  | .goldenRatio => some (.ofDouble 1.618033988749895)
  | .eulerGamma => some (.ofDouble 0.5772156649015329)
  | .catalan => some (.ofDouble 0.915965594177219)
  | .tribonacci => some (.ofDouble 1.8392867552141612)
  | _ => none

def estimateApplication (f : String) (xs : List ComplexDouble) : Option ComplexDouble :=
  match f, xs with
  | "exp", [x] => some x.exp
  | "Abs", [x] => some (.ofDouble x.abs)
  | _, _ => none

mutual

def estimate : Symbolic → Option ComplexDouble
  | .exact q => some (.ofDouble (Number.nearestDouble q))
  | .approx a => some (.ofDouble (Number.nearestDouble a.value))
  | .constant c => estimateConstant c
  | .name _ => none
  | .sum xs => (estimates xs).map (List.foldl ComplexDouble.add (.ofDouble 0.0))
  | .product xs => (estimates xs).map (List.foldl ComplexDouble.mul (.ofDouble 1.0))
  | .power b e =>
    match estimate b, estimate e with
    | some x, some y => some (x.pow y)
    | _, _ => none
  | .apply f xs => (estimates xs).bind (estimateApplication f)

def estimates : List Symbolic → Option (List ComplexDouble)
  | [] => some []
  | x :: xs =>
    match estimate x, estimates xs with
    | some y, some ys => some (y :: ys)
    | _, _ => none

end

def negligible (part whole : Float) : Bool := part.abs <= 1.0e-12 * whole.abs

def isReal? : Symbolic → Option Bool
  | .exact _ => some true
  | .approx _ => some true
  | .constant .undefined => none
  | .constant .unbounded => some false
  | .constant .imaginary => some false
  | .constant _ => some true
  | .apply "Abs" _ => some true
  | x => (estimate x).map (fun z => negligible z.im z.abs)

def signOfRat (q : Rat) : Ordering :=
  if q < 0 then .lt else if 0 < q then .gt else .eq

/-- The sign of a real expression, an infinity counting as real; none if it is not known. -/
def sign? : Symbolic → Option Ordering
  | .exact q => some (signOfRat q)
  | .approx a => some (signOfRat a.value)
  | .constant .infinity => some .gt
  | .constant .negInfinity => some .lt
  | x =>
    match estimate x with
    | some z =>
      if !negligible z.im z.abs then none
      else if z.re > 0 then some .gt
      else if z.re < 0 then some .lt
      else none
    | none => none

def isPositive (x : Symbolic) : Bool := sign? x == some .gt

def isNegative (x : Symbolic) : Bool := sign? x == some .lt

def isNonnegative (x : Symbolic) : Bool :=
  match x with
  | .apply "Abs" _ => true
  | x => match sign? x with
    | some .gt => true
    | some .eq => true
    | _ => false

def isNonzero (x : Symbolic) : Bool :=
  match x with
  | .exact q => q != 0
  | .approx a => a.value != 0
  | .constant .undefined => false
  | .constant _ => true
  | x => match estimate x with
    | some z => z.abs > 1.0e-12
    | none => false

/-- Whether a power with this negative number as exponent stands below a fraction bar: the leading
number of the exponent is negative. -/
def hasNegativeLead (e : Symbolic) : Bool := isNegative (coefficientOf e).1

/-! ## Operations -/

/-- An approximation as a result; zero is exact. -/
def settled (a : Approx) : Symbolic :=
  if a.value.num = 0 then zero else .approx a

def isInfinite : Symbolic → Bool
  | .constant .infinity => true
  | .constant .negInfinity => true
  | .constant .unbounded => true
  | _ => false

def isUndefined : Symbolic → Bool
  | .constant .undefined => true
  | _ => false

def isUnbounded : Symbolic → Bool
  | .constant .unbounded => true
  | _ => false

def addNumbers (x y : Symbolic) : Symbolic :=
  match x, y with
  | .exact p, .exact q => .exact (p + q)
  | .exact p, .approx b => settled (Approx.add (.ofRat b.precision p) b)
  | .approx a, .exact q => settled (a.add (.ofRat a.precision q))
  | .approx a, .approx b => settled (a.add b)
  | .constant .infinity, .constant .negInfinity => undefined
  | .constant .negInfinity, .constant .infinity => undefined
  | .constant .undefined, _ => undefined
  | _, .constant .undefined => undefined
  | .constant .unbounded, y => if isInfinite y then undefined else unbounded
  | x, .constant .unbounded => if isInfinite x then undefined else unbounded
  | .constant c, _ => .constant c
  | _, .constant c => .constant c
  | _, _ => undefined

def infiniteTimes (positive : Bool) (y : Symbolic) : Symbolic :=
  match sign? y with
  | some .gt => if positive then infinity else negInfinity
  | some .lt => if positive then negInfinity else infinity
  | _ => undefined

def mulNumbers (x y : Symbolic) : Symbolic :=
  match x, y with
  | .exact p, .exact q => .exact (p * q)
  | .exact p, .approx b => settled (Approx.mul (.ofRat b.precision p) b)
  | .approx a, .exact q => settled (a.mul (.ofRat a.precision q))
  | .approx a, .approx b => settled (a.mul b)
  | .constant .undefined, _ => undefined
  | _, .constant .undefined => undefined
  | .constant .unbounded, y => if y.isZero then undefined else unbounded
  | x, .constant .unbounded => if x.isZero then undefined else unbounded
  | .constant .infinity, y => infiniteTimes true y
  | x, .constant .infinity => infiniteTimes true x
  | .constant .negInfinity, y => infiniteTimes false y
  | x, .constant .negInfinity => infiniteTimes false x
  | _, _ => undefined

def negNumber : Symbolic → Symbolic
  | .exact q => .exact (-q)
  | .approx a => .approx a.neg
  | .constant .infinity => negInfinity
  | .constant .negInfinity => infinity
  | x => x

def magnitude : Symbolic → Symbolic
  | .exact q => .exact (if q < 0 then -q else q)
  | .approx a => .approx (if a.value < 0 then a.neg else a)
  | x => x

structure Operations where
  sum : List Symbolic → Symbolic
  product : List Symbolic → Symbolic
  power : Symbolic → Symbolic → Symbolic

def isFinite (x : Symbolic) : Bool := x.value?.isSome

def wholePower (q : Rat) (n : Int) : Rat :=
  if 0 ≤ n then q ^ n.natAbs else 1 / q ^ n.natAbs

/-- The operations that compute with finite numbers only and leave everything else as it stands. -/
def Operations.ground : Operations where
  sum xs := if xs.all isFinite then xs.foldl addNumbers zero else rawSum xs
  product xs := if xs.all isFinite then xs.foldl mulNumbers one else rawProduct xs
  power b e :=
    match b, e.integer? with
    | .exact q, some n => .exact (wholePower q n)
    | .approx a, some n => settled ⟨Approx.powInt a.precision a.value n, a.precision⟩
    | b, _ => .power b e

/-- Base and exponent of an expression: of a power its own, of the exponential function the number
it is a power of, and an expression is its own first power. -/
def baseExponent (ops : Operations) : Symbolic → Symbolic × Symbolic
  | .power b e =>
    match b with
    | .exact q =>
      if q.num = 1 && q.den ≠ 1 then (.exact (q.den : Rat), ops.product [minusOne, e]) else (b, e)
    | _ => (b, e)
  | .apply "exp" [x] => (.constant .euler, x)
  | x => (x, one)

/-- The negative of an expression. -/
def negated (ops : Operations) (x : Symbolic) : Symbolic :=
  match x with
  | .product (c :: rest) =>
    if c.isNumber then
      let d := negNumber c
      if d.isExactOne then rawProduct rest else .product (d :: rest)
    else if isUnbounded c then x
    else .product (minusOne :: c :: rest)
  | .sum _ => ops.product [minusOne, x]
  | x => if x.isNumber || isUnbounded x then negNumber x else .product [minusOne, x]

def keepCoefficient (ops : Operations) (c x : Symbolic) : Symbolic :=
  if x.isExactOne then c
  else if c.isExactOne then x
  else match c, x with
    | .exact q, x =>
      if q = -1 then negated ops x
      else match x with
        | .sum _ => .product [c, x]
        | .product (d :: rest) =>
          if d.isNumber then
            let m := mulNumbers d c
            if m.value? == some 1 then rawProduct rest else .product (m :: rest)
          else .product (c :: d :: rest)
        | x => ops.product [c, x]
    | c, .sum xs => .product [c, .sum xs]
    | c, .product (d :: rest) =>
      if d.isNumber then
        let m := mulNumbers d c
        if m.value? == some 1 then rawProduct rest else .product (m :: rest)
      else .product (c :: d :: rest)
    | c, x => ops.product [c, x]

end Supermartingale.Symbolic
