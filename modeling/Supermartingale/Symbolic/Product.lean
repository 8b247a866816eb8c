import Supermartingale.Symbolic.Operations

/-!
# Products

The factors of a product are gathered: numbers are multiplied in the order in which they stand,
products inside of the product are opened, and powers of the same base are brought together by
adding their exponents.
-/

namespace Supermartingale.Symbolic

structure Factors where
  number : Symbolic := one
  powers : List (Symbolic × Symbolic) := []
  /-- Powers of numbers with exponents that are no rationals, the last one first. -/
  numeric : List (Symbolic × Symbolic) := []
  roots : List (Symbolic × List Rat) := []
  turns : Rat := 0

namespace Factors

def times (f : Factors) (x : Symbolic) : Factors := { f with number := mulNumbers f.number x }

def root (f : Factors) (b : Symbolic) (e : Rat) : Factors :=
  if f.roots.any (fun (c, _) => c.same b) then
    { f with roots := f.roots.map (fun (c, es) => if c.same b then (c, es ++ [e]) else (c, es)) }
  else { f with roots := f.roots ++ [(b, [e])] }

/-- Gathers a power of a number. The second part is what it leaves to be gathered behind all other
factors. -/
def gatherNumeric (ops : Operations) (f : Factors) (b e : Symbolic) : Factors × List Symbolic :=
  match e with
  | .exact q =>
    if q.den = 1 then (f.times (ops.power b e), [])
    else if q < 0 then (f, [ops.power b e])
    else
      let (f, b) := if isNegative b then ({ f with turns := f.turns + q }, negNumber b) else (f, b)
      (if b.isExactOne then f else f.root b q, [])
  | e =>
    if isPositive b then ({ f with numeric := (b, e) :: f.numeric }, [])
    else ({ f with powers := (b, e) :: f.powers }, [])

def gather (ops : Operations) (f : Factors) (x : Symbolic) : Option (Factors × List Symbolic) :=
  match x with
  | .product xs => some (f, xs)
  | .constant .imaginary => some ({ f with turns := f.turns + 1 / 2 }, [])
  | .power _ _ =>
    let (b, e) := baseExponent ops x
    if b.isNumber then
      let (g, later) := f.gatherNumeric ops b e
      if isUndefined g.number then none else some (g, later)
    else some ({ f with powers := (b, e) :: f.powers }, [])
  | x =>
    if x.isNumber || isUnbounded x then
      let g := f.times x
      if isUndefined g.number then none else some (g, [])
    else
      let (b, e) := baseExponent ops x
      some ({ f with powers := (b, e) :: f.powers }, [])

def gatherAll (ops : Operations) :
    List Symbolic → Factors → List Symbolic → Option (Factors × List Symbolic)
  | [], f, later => some (f, later.reverse)
  | x :: xs, f, later =>
    match f.gather ops x with
    | some (f, more) => gatherAll ops xs f (more.reverse ++ later)
    | none => none

def gatherWithin (ops : Operations) : Nat → List Symbolic → Factors → Option Factors
  | 0, _, f => some f
  | fuel + 1, xs, f =>
    match gatherAll ops xs f [] with
    | some (f, []) => some f
    | some (f, later) => gatherWithin ops fuel later f
    | none => none

end Factors

/-! ## Bringing powers together -/

def appendEntry {α : Type} (k : Symbolic) (v : α) : List (Symbolic × List α) → List (Symbolic × List α)
  | [] => [(k, [v])]
  | (l, vs) :: rest => if l.same k then (l, vs ++ [v]) :: rest else (l, vs) :: appendEntry k v rest

def grouped {α : Type} (xs : List (Symbolic × α)) : List (Symbolic × List α) :=
  xs.foldl (fun acc (k, v) => appendEntry k v acc) []

/-- Powers with the exponents of every base added up; exponents that differ in a number only are
one exponent. -/
def mergePowers (ops : Operations) (powers : List (Symbolic × Symbolic)) : List (Symbolic × Symbolic) :=
  (grouped powers).flatMap (fun (b, es) =>
    let byUnit := grouped (es.map (fun e =>
      let (c, t) := coefficientOf e
      (t, c)))
    byUnit.map (fun (t, cs) => (b, ops.product [ops.sum cs, t])))

/-- The factors that powers are, with the number that they leave in front. -/
def settlePowers (ops : Operations) :
    List (Symbolic × Symbolic) → Symbolic → Option (List Symbolic × Symbolic × List (Symbolic × Symbolic) × Bool)
  | [], number => some ([], number, [], false)
  | (b, e) :: rest, number =>
    if e.isZero then
      let infinite := match b with
        | .sum xs => xs.any isInfinite
        | .product xs => xs.any isInfinite
        | _ => false
      if infinite then none else settlePowers ops rest number
    else if e.isExactOne then
      if b.isNumber then settlePowers ops rest (mulNumbers number b)
      else (settlePowers ops rest number).map (fun (xs, n, ps, changed) => (b :: xs, n, (b, e) :: ps, changed))
    else
      let p := ops.power b e
      let (c, f) := if p.isPower && !b.isPower then baseExponent ops p else (b, e)
      (settlePowers ops rest number).map (fun (xs, n, ps, changed) => (p :: xs, n, (c, f) :: ps, changed || !c.same b))

def sharesBase (powers : List (Symbolic × Symbolic)) : Bool := (grouped powers).length != powers.length

/-- The factors that powers are; where bases change and then meet, they are brought together once
more. -/
def powerFactors (ops : Operations) (powers : List (Symbolic × Symbolic)) (number : Symbolic) :
    Option (List Symbolic × Symbolic) :=
  match settlePowers ops (mergePowers ops powers) number with
  | none => none
  | some (xs, n, ps, changed) =>
    if changed && sharesBase ps then
      (settlePowers ops (mergePowers ops ps) n).map (fun (xs, n, _, _) => (xs, n))
    else some (xs, n)

def numericFactors (ops : Operations) (powers : List (Symbolic × Symbolic)) : List Symbolic :=
  (grouped ((mergePowers ops powers).map (fun (b, e) => (e, b)))).filterMap (fun (e, bs) =>
    if e.isZero then none else some (ops.power (ops.product bs) e))

/-! ## Roots of numbers -/

def wholePart (ops : Operations) (b : Symbolic) (e : Rat) : Symbolic × Rat :=
  if e.den < e.num.natAbs && 0 ≤ e.num then
    let whole := e.floor
    (ops.power b (.exact whole), e - whole)
  else (one, e)

def mergeRoots (ops : Operations) (roots : List (Symbolic × List Rat)) (number : Symbolic) :
    Symbolic × List (Symbolic × Rat) :=
  let byExponent := grouped (roots.map (fun (b, es) => (Symbolic.exact (es.foldl (· + ·) 0), b)))
  byExponent.foldl (fun (n, acc) (e, bs) =>
    let b := ops.product bs
    match e with
    | .exact q =>
      if q.den = 1 then (mulNumbers n (ops.power b e), acc)
      else
        let (c, q) := wholePart ops b q
        (mulNumbers n c, acc ++ [(b, q)])
    | _ => (n, acc)) (number, [])

def gcdRat (p q : Rat) : Rat := mkRat (Nat.gcd p.num.natAbs q.num.natAbs) (Nat.lcm p.den q.den)

/-- Takes the common divisor of a base out of the other bases: what is left of the base, the number
in front, the other roots, and the roots of common divisors. -/
def shareRoots (ops : Operations) (e : Rat) :
    Rat → Symbolic → List (Symbolic × Rat) → Rat × Symbolic × List (Symbolic × Rat) × List (Symbolic × Rat)
  | b, n, [] => (b, n, [], [])
  | b, n, (c, f) :: rest =>
    match c with
    | .exact q =>
      let g := gcdRat b q
      if b = 1 || g = 1 then
        let (b, n, rest, grown) := shareRoots ops e b n rest
        (b, n, (c, f) :: rest, grown)
      else
        let s := e + f
        let (n, grown) :=
          if s.den = 1 then (mulNumbers n (ops.power (.exact g) (.exact s)), [])
          else
            let (m, s) := wholePart ops (.exact g) s
            (mulNumbers n m, [(Symbolic.exact g, s)])
        let (b, n, rest, more) := shareRoots ops e (b / g) n rest
        (b, n, (.exact (q / g), f) :: rest, grown ++ more)
    | c =>
      let (b, n, rest, grown) := shareRoots ops e b n rest
      (b, n, (c, f) :: rest, grown)

/-- Evaluates roots one after the other, `fuel` bounding their number. -/
def settleRoots (ops : Operations) :
    Nat → List (Symbolic × Rat) → Symbolic → List (Symbolic × Symbolic) → Symbolic × List (Symbolic × Symbolic)
  | 0, _, n, acc => (n, acc)
  | _ + 1, [], n, acc => (n, acc)
  | fuel + 1, (b, e) :: rest, n, acc =>
    if b.isExactOne then settleRoots ops fuel rest n acc
    else
      let (b, n, rest) := match b with
        | .exact q =>
          let (q, n, others, grown) := shareRoots ops e q n rest
          (Symbolic.exact q, n, others ++ grown)
        | b => (b, n, rest)
      if b.isExactOne then settleRoots ops fuel rest n acc
      else
        let (n, acc) := (factorsOf (ops.power b (.exact e))).foldl (fun (n, acc) x =>
          match x with
          | .power c f => (n, acc ++ [(f, c)])
          | x => if x.isNumber then (mulNumbers n x, acc) else (n, acc ++ [(one, x)])) (n, acc)
        settleRoots ops fuel rest n acc

/-- What minus one to some power adds to the roots: the sign of the number, the imaginary unit, or
a root of minus one, which joins a root of the same exponent. -/
def settleTurns (turns : Rat) (number : Symbolic) (roots : List (Symbolic × Symbolic)) :
    Symbolic × List Symbolic × List (Symbolic × Symbolic) :=
  if turns = 0 then (number, [], roots)
  else
    let whole := turns.floor
    let rest := turns - whole
    let number := if whole % 2 = 1 then negNumber number else number
    if rest = 0 then (number, [], roots)
    else if rest = 1 / 2 then (number, [imaginary], roots)
    else
      match roots.findIdx? (fun (e, b) => e.same (.exact rest) && isPositive b) with
      | some i => (number, [], roots.mapIdx (fun j (e, b) => if j = i then (e, negNumber b) else (e, b)))
      | none => (number, [.power minusOne (.exact rest)], roots)

/-! ## Products -/

/-- What an infinite number in front does to the other factors: those with a known sign are absorbed
by it. -/
def absorbSigns : List Symbolic → Symbolic → Symbolic × List Symbolic
  | [], n => (n, [])
  | x :: xs, n =>
    match sign? x with
    | some .gt => absorbSigns xs n
    | some .lt => absorbSigns xs (negNumber n)
    | _ =>
      let (n, xs) := absorbSigns xs n
      (n, x :: xs)

def distribute (ops : Operations) (c : Symbolic) (xs : List Symbolic) : Symbolic :=
  ops.sum (xs.map (fun x => ops.product [c, x]))

def assemble (ops : Operations) (number : Symbolic) (factors : List Symbolic) : Symbolic :=
  let (number, factors) := match number with
    | .constant .infinity => absorbSigns factors number
    | .constant .negInfinity => absorbSigns factors number
    | .constant .unbounded => (number, factors.filter (fun x => !(x.isNonzero && (isReal? x).isSome)))
    | _ => (number, factors)
  if number.isZero then number
  else
    let number := (factors.filter isNumber).foldl mulNumbers number
    let factors := sorted (factors.filter (fun x => !x.isNumber))
    if number.isExactOne then rawProduct factors
    else match number, factors with
      | .exact _, [.sum xs] => distribute ops number xs
      | .approx _, [.sum xs] => distribute ops number xs
      | _, _ => rawProduct (number :: factors)

def gatherProduct (ops : Operations) (xs : List Symbolic) : Symbolic :=
  match Factors.gatherWithin ops (sizes xs + 1) xs {} with
  | none => undefined
  | some f =>
    match powerFactors ops f.powers.reverse f.number with
    | none => undefined
    | some (powers, number) =>
      let numeric := numericFactors ops f.numeric.reverse
      let (number, roots) := mergeRoots ops f.roots number
      let (number, roots) := settleRoots ops (roots.length * roots.length + 16) roots number []
      let merged := (grouped roots).map (fun (e, bs) => (e, ops.product bs))
      let (number, turned, merged) := settleTurns f.turns number merged
      let rooted := merged.map (fun (e, b) => ops.power b e)
      assemble ops number (powers ++ numeric ++ turned ++ rooted)

/-- The product of a rational and another expression, in the two cases that need no gathering: the
number in front of a product changes, and every term of a sum is multiplied. -/
def scaled? (ops : Operations) (q : Rat) (x : Symbolic) : Option Symbolic :=
  let (r, body) := coefficientOf x
  let a := mulNumbers (.exact q) r
  match body with
  | .product xs => some (rawProduct (if a.isExactOne then xs else a :: xs))
  | .sum _ =>
    if a.isExactOne then some body
    else
      let (c, rest) := constantPartOf body
      let terms := sorted ((termsOf rest).map (keepCoefficient ops a))
      let n := mulNumbers a c
      some (rawSum (if n.isZero then terms else n :: terms))
  | _ => none

def multiply (ops : Operations) (xs : List Symbolic) : Symbolic :=
  match xs.filter (fun x => !x.isExactOne) with
  | [] => one
  | [x] => x
  | [x, .exact q] =>
    if q = 0 then gatherProduct ops [.exact q, x]
    else (scaled? ops q x).getD (gatherProduct ops [.exact q, x])
  | [.exact q, x] =>
    if q = 0 then gatherProduct ops [.exact q, x]
    else (scaled? ops q x).getD (gatherProduct ops [.exact q, x])
  | xs => gatherProduct ops xs

end Supermartingale.Symbolic
