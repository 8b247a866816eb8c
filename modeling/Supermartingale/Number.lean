import Supermartingale.Decimal

/-!
# Numbers as they are given

A numeral without point and exponent is an integer of any size, any other is a double. Arithmetic stays in the
integers as long as both sides are integers.
-/

namespace Supermartingale

def floorRoot (degree n : Nat) : Nat :=
  if degree = 0 then 0
  else (List.range (n.log2 / degree + 2)).reverse.foldl (fun acc k =>
    let candidate := acc + Nat.pow 2 k
    if Nat.pow candidate degree ≤ n then candidate else acc) 0

/-- A quotient divided by two to the power `k`. -/
def scaleTwo (n d : Nat) : Int → Nat × Nat
  | .ofNat k => (n, d * Nat.pow 2 k)
  | .negSucc k => (n * Nat.pow 2 (k + 1), d)

def binaryExponent (n d : Nat) : Int :=
  let guess : Int := (n.log2 : Int) - (d.log2 : Int)
  let (a, b) := scaleTwo n d guess
  if a < b then guess - 1 else guess

inductive Number where
  | int (n : Int)
  | double (x : Float)

instance : Inhabited Number := ⟨.int 0⟩

namespace Number

def isWritable : Number → Bool
  | int n => Supermartingale.isWritable n.natAbs
  | double _ => true

/-- The double nearest to a rational number; ties go to the even mantissa. -/
def nearestDouble (q : Rat) : Float :=
  let n := q.num.natAbs
  let d := q.den
  let sign : Float := if q.num < 0 then -1.0 else 1.0
  if n = 0 then 0.0
  else
    let unit := max (binaryExponent n d - 52) (-1074)
    let (a, b) := scaleTwo n d unit
    let mantissa := roundDiv .toEven a b
    let (mantissa, unit) := if mantissa = Nat.pow 2 53 then (Nat.pow 2 52, unit + 1) else (mantissa, unit)
    if unit > 971 then sign * (1.0 / 0.0)
    else
      let field := if mantissa < Nat.pow 2 52 then 0 else (unit + 1075).toNat
      let bits := field * Nat.pow 2 52 + mantissa % Nat.pow 2 52
      sign * Float.ofBits bits.toUInt64

/-- The double that an integer becomes beside a double; none if it is too large. -/
def intToDouble? (n : Int) : Option Float :=
  let x := nearestDouble n
  if x.isInf then none else some x

def text : Number → String
  | .int n => toString n
  | .double x => Double.text x

def listText (xs : List Number) : String := "[" ++ String.intercalate ", " (xs.map text) ++ "]"

/-- Reads a double: a signed numeral, or one of the names of infinity and the undefined value. -/
def readDouble? (s : String) : Option Float :=
  let cs := s.toList
  let (negative, cs) := match cs with
    | '-' :: r => (true, r)
    | '+' :: r => (false, r)
    | r => (false, r)
  let signed (x : Float) : Float := if negative then -x else x
  let lower := String.ofList (cs.map Char.toLower)
  if lower == "inf" || lower == "infinity" then some (signed (1.0 / 0.0))
  else if lower == "nan" then some (0.0 / 0.0)
  else match readNumeral cs with
    | some (numeral, _, []) => some (signed (nearestDouble numeral.value))
    | _ => none

def ofText? (s : String) : Option Number :=
  let cs := s.toList
  let (negative, digits) := match cs with
    | '-' :: r => (true, r)
    | r => (false, r)
  if !digits.isEmpty && digits.all Char.isDigit then
    let n : Int := digitsValue digits
    some (.int (if negative then -n else n))
  else (readDouble? s).map .double

def value? : Number → Option Rat
  | .int n => some n
  | .double x => if x.isNaN || x.isInf then none else some (Double.value x)

def same : Number → Number → Bool
  | .int a, .int b => a == b
  | .double a, .double b => a == b
  | .int a, .double b => !b.isNaN && !b.isInf && decide ((a : Rat) = Double.value b)
  | .double a, .int b => !a.isNaN && !a.isInf && decide (Double.value a = (b : Rat))

def less : Number → Number → Bool
  | .int a, .int b => decide (a < b)
  | .double a, .double b => a < b
  | .int a, .double b =>
    if b.isNaN then false else if b.isInf then b > 0 else decide ((a : Rat) < Double.value b)
  | .double a, .int b =>
    if a.isNaN then false else if a.isInf then a < 0 else decide (Double.value a < (b : Rat))

def isZero (x : Number) : Bool := x.same (.int 0)

def isOne (x : Number) : Bool := x.same (.int 1)

def neg : Number → Number
  | .int n => .int (-n)
  | .double x => .double (-x)

inductive Fault where
  | tooLarge
  | divisionByZero
deriving DecidableEq, Repr

def toDouble : Number → Except Fault Float
  | .int n => match intToDouble? n with
    | some x => .ok x
    | none => .error .tooLarge
  | .double x => .ok x

/-- An operation done on integers when both sides are integers and on doubles otherwise. -/
def combine (onInts : Int → Int → Int) (onDoubles : Float → Float → Float) :
    Number → Number → Except Fault Number
  | .int a, .int b => .ok (.int (onInts a b))
  | a, b => do
    let x ← a.toDouble
    let y ← b.toDouble
    return .double (onDoubles x y)

def add : Number → Number → Except Fault Number := combine (· + ·) (· + ·)

def sub : Number → Number → Except Fault Number := combine (· - ·) (· - ·)

def mul : Number → Number → Except Fault Number := combine (· * ·) (· * ·)

/-- Division always gives a double; of two integers it is the double nearest to the quotient, with
the sign that the two signs give also to a zero. -/
def div : Number → Number → Except Fault Number
  | .int a, .int b =>
    if b = 0 then .error .divisionByZero
    else
      let q := nearestDouble ((a : Rat) / (b : Rat))
      if q.isInf then .error .tooLarge
      else .ok (.double (if a = 0 && b < 0 then -q else q))
  | a, b => do
    let x ← a.toDouble
    let y ← b.toDouble
    if y == 0 then .error .divisionByZero else return .double (x / y)

/-- A natural power. A double power that leaves the range of finite doubles is too large. -/
def pow (x : Number) (k : Nat) : Except Fault Number :=
  match x with
  | .int n => .ok (.int (Int.pow n k))
  | .double x =>
    let y := Float.pow x (Float.ofNat k)
    if y.isInf && !x.isInf then .error .tooLarge else .ok (.double y)

end Number

end Supermartingale
