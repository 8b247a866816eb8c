import Supermartingale.Symbolic.Power
import Supermartingale.Symbolic.Product

/-!
# Sums

Numbers are added up in the order in which they stand, sums inside of the sum are opened, and like terms are added up.
The number stands first, and the terms stand in their order.
-/

namespace Supermartingale.Symbolic

/-! ## Sums -/

/-- What has been gathered of a sum: the number, and the other terms with the numbers in front of
them, the last one first. -/
structure Gathered where
  number : Symbolic := zero
  terms : List (Symbolic × Symbolic) := []

/-- Gathers one term; none if the sum is undefined. -/
def gatherTerm (ops : Operations) (g : Gathered) (x : Symbolic) : Option (Gathered × List Symbolic) :=
  let other (c s : Symbolic) : Option (Gathered × List Symbolic) := some ({ g with terms := (s, c) :: g.terms }, [])
  match x with
  | .sum xs => some (g, xs)
  | .product _ =>
    let (c, s) := coefficientOf x
    other c s
  | .power b e =>
    let unevaluated := b.isNumber &&
      (match e with
        | .exact q => q.den = 1 || q < 0
        | _ => false)
    if unevaluated then some (g, [ops.power b e]) else other one x
  | x =>
    if x.isNumber || isUnbounded x then
      let n := addNumbers g.number x
      if isUndefined n then none else some ({ g with number := n }, [])
    else other one x

def gatherTerms (ops : Operations) :
    List Symbolic → Gathered → List Symbolic → Option (Gathered × List Symbolic)
  | [], g, later => some (g, later.reverse)
  | x :: xs, g, later =>
    match gatherTerm ops g x with
    | some (g, more) => gatherTerms ops xs g (more.reverse ++ later)
    | none => none

def gatherWithin (ops : Operations) : Nat → List Symbolic → Gathered → Option Gathered
  | 0, _, g => some g
  | fuel + 1, xs, g =>
    match gatherTerms ops xs g [] with
    | some (g, []) => some g
    | some (g, later) => gatherWithin ops fuel later g
    | none => none

/-- Adds the numbers of neighbours that are like terms, from the left; `s` and `c` are the term and
the number so far. -/
def addLike (s c : Symbolic) : List (Symbolic × Symbolic) → Option (List (Symbolic × Symbolic))
  | [] => some [(s, c)]
  | (t, d) :: rest =>
    if s.same t then
      let n := addNumbers c d
      if isUndefined n then none else addLike s n rest
    else (addLike t d rest).map ((s, c) :: ·)

def weighted (ops : Operations) (s c : Symbolic) : Option Symbolic :=
  if c.isZero then none
  else if c.isExactOne then some s
  else match s with
    | .product xs => some (.product (c :: xs))
    | .sum _ => some (.product [c, s])
    | s => some (ops.product [c, s])

def absorbed (number x : Symbolic) : Bool :=
  match number with
  | .constant .infinity => isReal? x == some true
  | .constant .negInfinity => isReal? x == some true
  | .constant .unbounded => !isInfinite x && (isReal? x).isSome && x.isConstant
  | _ => false

def gatherSum (ops : Operations) (xs : List Symbolic) : Symbolic :=
  match gatherWithin ops (sizes xs + 1) xs {} with
  | none => undefined
  | some g =>
    let like :=
      match Sort.sort (fun t u => order t.1 u.1 != .gt) g.terms.reverse with
      | [] => some []
      | (s, c) :: rest => addLike s c rest
    match like with
    | none => undefined
    | some terms =>
      let kept := (terms.filterMap (fun (s, c) => weighted ops s c)).filter
        (fun x => !absorbed g.number x)
      let kept := sorted kept
      rawSum (if g.number.isExactZero then kept else g.number :: kept)

def addUp (ops : Operations) (xs : List Symbolic) : Symbolic :=
  match xs.filter (fun x => !x.isExactZero) with
  | [] => zero
  | [x] => x
  | [.exact q, .product ys] => .sum [.exact q, .product ys]
  | [.product ys, .exact q] => .sum [.exact q, .product ys]
  | xs => gatherSum ops xs

/-! ## Canonical forms -/

def operations : Nat → Operations
  | 0 => Operations.ground
  | level + 1 =>
    let below := operations level
    ⟨addUp below, multiply below, raise below⟩

def depth : Nat := 60

def standard : Operations := operations depth

def addAll (xs : List Symbolic) : Symbolic := standard.sum xs

def mulAll (xs : List Symbolic) : Symbolic := standard.product xs

def add (x y : Symbolic) : Symbolic := addAll [x, y]

def mul (x y : Symbolic) : Symbolic := mulAll [x, y]

def pow (b e : Symbolic) : Symbolic := standard.power b e

def neg (x : Symbolic) : Symbolic := negated standard x

def sub (x y : Symbolic) : Symbolic := add x (neg y)

/-- The quotient of two expressions. -/
def div (x y : Symbolic) : Symbolic :=
  match x, y with
  | .exact p, .exact q =>
    if q = 0 then (if p = 0 then undefined else unbounded) else .exact (p / q)
  | .approx a, .approx b => if b.value = 0 then mul x (pow y minusOne) else settled (a.div b)
  | .approx a, .exact q =>
    if q = 0 then mul x (pow y minusOne) else settled (a.div (.ofRat a.precision q))
  | x, y => if x.isExactOne then pow y minusOne else mul x (pow y minusOne)

def parts (x : Symbolic) : Symbolic × Symbolic := baseExponent standard x

def abs (x : Symbolic) : Symbolic :=
  match x with
  | .constant .undefined => undefined
  | .constant .unbounded => infinity
  | .constant .imaginary => one
  | .product xs =>
    let known := xs.filter (fun x => (sign? x).isSome)
    let unknown := xs.filter (fun x => !(sign? x).isSome)
    let outside := mulAll (known.map (fun x => if isNegative x then neg x else x))
    if unknown.isEmpty then outside else mul outside (.apply "Abs" [mulAll unknown])
  | .apply "Abs" _ => x
  | x => match sign? x with
    | some .lt => neg x
    | some _ => x
    | none => .apply "Abs" [x]

/-! ## Elementary functions

The logarithm, the circular and the hyperbolic functions at arguments where their values are known,
and at approximations. Odd functions give their sign to the outside and even ones lose it. Anywhere
else an application stays as it is. -/

def approximately (f : Float → Float) (a : Approx) : Symbolic :=
  settled (.ofRat a.precision (Double.value (f (Number.nearestDouble a.value))))

def halfTurns? : Symbolic → Option Rat
  | .exact q => if q = 0 then some 0 else none
  | .constant .pi => some 1
  | .product [.exact q, .constant .pi] => some q
  | _ => none

def hasMinus : Symbolic → Bool
  | .exact q => q < 0
  | .product (.exact q :: _) => q < 0
  | .product (.approx a :: _) => a.value < 0
  | _ => false

def rootOver (n d : Nat) : Symbolic := mul (pow (.exact (n : Rat)) half) (.exact (1 / (d : Rat)))

def sineWithinQuarter? (q : Rat) : Option Symbolic :=
  if q = 0 then some zero
  else if q = 1 / 6 then some half
  else if q = 1 / 4 then some (rootOver 2 2)
  else if q = 1 / 3 then some (rootOver 3 2)
  else if q = 1 / 2 then some one
  else none

def sineOfTurns? (q : Rat) : Option Symbolic :=
  let q := q - 2 * ((q / 2).floor : Int)
  if q ≤ 1 / 2 then sineWithinQuarter? q
  else if q ≤ 1 then sineWithinQuarter? (1 - q)
  else if q ≤ 3 / 2 then (sineWithinQuarter? (q - 1)).map neg
  else (sineWithinQuarter? (2 - q)).map neg

/-- A function whose value at the opposite argument is its value with a sign or without one. -/
def symmetric (sign : Symbolic → Symbolic) (f : String) (onDoubles : Float → Float)
    (known? : Symbolic → Option Symbolic) (x : Symbolic) : Symbolic :=
  match x, known? x with
  | _, some y => y
  | .approx a, none => approximately onDoubles a
  | .constant .undefined, none => undefined
  | x, none => if hasMinus x then sign (.apply f [neg x]) else .apply f [x]

def odd := symmetric neg

def even := symmetric id

def atZero? (y : Symbolic) (x : Symbolic) : Option Symbolic := if x.isZero then some y else none

def sin : Symbolic → Symbolic := odd "sin" Float.sin (fun x => (halfTurns? x).bind sineOfTurns?)

def cos : Symbolic → Symbolic := even "cos" Float.cos (fun x => (halfTurns? x).bind (fun q => sineOfTurns? (q + 1 / 2)))

def tan : Symbolic → Symbolic :=
  odd "tan" Float.tan (fun x => (halfTurns? x).bind (fun q => do
    let s ← sineOfTurns? q
    let c ← sineOfTurns? (q + 1 / 2)
    return if c.isZero then unbounded else div s c))

def log (x : Symbolic) : Symbolic :=
  match x with
  | .exact q =>
    if q = 0 then unbounded
    else if q = 1 then zero
    else if q < 0 then
      add (if q = -1 then zero else .apply "log" [.exact (-q)]) (mul (.constant .pi) imaginary)
    else if q.num = 1 then neg (.apply "log" [.exact (q.den : Rat)])
    else .apply "log" [x]
  | .approx a => if 0 < a.value then approximately Float.log a else .apply "log" [x]
  | .constant .euler => one
  | .constant .infinity => infinity
  | .constant .negInfinity => infinity
  | .constant .unbounded => unbounded
  | .constant .undefined => undefined
  | .constant .imaginary => mulAll [half, .constant .pi, imaginary]
  | .apply "exp" [y] => if (sign? y).isSome then y else .apply "log" [x]
  | x => .apply "log" [x]

def signum (x : Symbolic) : Symbolic :=
  match sign? x with
  | some .gt => one
  | some .eq => zero
  | some .lt => minusOne
  | none => .apply "sign" [x]

def elementary : List (String × (Symbolic → Symbolic)) := [
  ("log", log),
  ("ln", log),
  ("sin", sin),
  ("cos", cos),
  ("tan", tan),
  ("asin", odd "asin" Float.asin (fun x =>
    if x.isZero then some zero else if x.isExactOne then some (mul half (.constant .pi)) else none)),
  ("acos", fun x =>
    if x.isZero then mul half (.constant .pi)
    else if x.isExactOne then zero
    else match x with
      | .exact q => if q = -1 then .constant .pi else .apply "acos" [x]
      | .approx a => approximately Float.acos a
      | x => .apply "acos" [x]),
  ("atan", odd "atan" Float.atan (fun x =>
    if x.isZero then some zero else if x.isExactOne then some (mul (.exact (1 / 4)) (.constant .pi))
    else none)),
  ("sinh", odd "sinh" Float.sinh (atZero? zero)),
  ("cosh", even "cosh" Float.cosh (atZero? one)),
  ("tanh", odd "tanh" Float.tanh (atZero? zero)),
  ("sign", signum)]

end Supermartingale.Symbolic
