import Supermartingale.Symbolic.Operations

/-!
# Powers

A power is evaluated as far as its base and exponent allow. Powers of rationals with whole exponents
are rational, roots of integers are taken out as far as they are whole, and a power of an
approximation is an approximation.
-/

namespace Supermartingale.Symbolic

/-! ## Integers -/

def root? (degree n : Nat) : Option Nat :=
  let r := floorRoot degree n
  if Nat.pow r degree = n then some r else none

def divideOut (p : Nat) : Nat → Nat → Nat × Nat
  | 0, n => (0, n)
  | fuel + 1, n =>
    if 1 < p && 0 < n && n % p = 0 then
      let (k, m) := divideOut p fuel (n / p)
      (k + 1, m)
    else (0, n)

/-- The factors of `n` from `p` on: primes below a bound with their exponents, and what is left. -/
def factorsFrom : Nat → Nat → Nat → List (Nat × Nat)
  | 0, _, n => if n ≤ 1 then [] else [(n, 1)]
  | fuel + 1, p, n =>
    if n ≤ 1 then []
    else if n < p * p then [(n, 1)]
    else
      let (k, m) := divideOut p n.log2 n
      if k = 0 then factorsFrom fuel (p + 1) n else (p, k) :: factorsFrom fuel (p + 1) m

def factorBound : Nat := 32768

/-- The factors of a natural number, with their exponents. -/
def factors (n : Nat) : List (Nat × Nat) :=
  let primes := factorsFrom factorBound 2 n
  let common := primes.foldl (fun g (_, k) => Nat.gcd g k) 0
  if common > 1 then
    [(primes.foldl (fun acc (p, k) => acc * Nat.pow p (k / common)) 1, common)]
  else primes

/-- What the roots of prime factors give: a whole number, roots of smaller degree, and the factors
that remain under the root. -/
def splitRoots (ops : Operations) (e : Rat) (fs : List (Nat × Nat)) : Nat × List Symbolic × List (Nat × Nat) :=
  fs.foldl (fun (whole, roots, rest) (p, k) =>
    let k := k * e.num.natAbs
    let whole := whole * Nat.pow p (k / e.den)
    let m := k % e.den
    let g := Nat.gcd m e.den
    if m = 0 then (whole, roots, rest)
    else if g ≠ 1 then
      (whole, roots ++ [ops.power (.exact (p : Rat)) (.exact (mkRat (m / g) (e.den / g)))], rest)
    else (whole, roots, rest ++ [(p, m)])) (1, [], [])

/-- The power of a positive integer with a positive fractional exponent; none if nothing can be
taken out of the root. -/
def rootOfPositive (ops : Operations) (n : Nat) (e : Rat) : Option Symbolic :=
  match root? e.den n with
  | some r => some (.exact (Nat.pow r e.num.natAbs : Nat))
  | none =>
    let (whole, roots, rest) := splitRoots ops e (factors n)
    let common : Nat := rest.foldl (fun g (_, k) => Nat.gcd g k) 0
    let radicand : Nat := rest.foldl (fun acc (p, k) => acc * Nat.pow p (k / max 1 common)) 1
    if radicand = n && whole = 1 && roots.isEmpty then none
    else
      let root := if rest.isEmpty then one
        else ops.power (.exact (radicand : Rat)) (.exact (mkRat common e.den))
      some (ops.product (ops.product (.exact (whole : Rat) :: roots) :: [root]))

def powerOfMinusOne (ops : Operations) (e : Symbolic) : Option Symbolic :=
  match e with
  | .exact q =>
    if q.den = 1 then some (if q.num % 2 = 0 then one else minusOne)
    else if q = 1 / 2 then some imaginary
    else if q.den = 2 then some (ops.power imaginary (.exact q.num))
    else
      let whole := q.floor
      if whole = 0 then none
      else some (ops.product [ops.power minusOne (.exact whole), ops.power minusOne (.exact (q - whole))])
  | .approx a => some (ops.power (.approx ⟨-1, Approx.standard⟩) (.approx a))
  | .constant .infinity => some undefined
  | .constant .negInfinity => some undefined
  | _ => none

def powerOfZero (ops : Operations) (e : Symbolic) : Option Symbolic :=
  match sign? e with
  | some .gt => some zero
  | some .lt => some unbounded
  | some .eq => some one
  | none =>
    if isReal? e == some false then some undefined
    else
      let (c, rest) := coefficientOf e
      if isNegative c then some (ops.power unbounded rest)
      else if c.isExactOne then none
      else some (ops.power zero rest)

/-! ## Numbers -/

def powerOfApprox (ops : Operations) (a : Approx) (e : Symbolic) : Option Symbolic :=
  let general (x : Rat) (precision : Nat) : Symbolic :=
    if 0 ≤ a.value || x.den = 1 then settled ⟨Approx.powReal precision a.value x, precision⟩
    else
      let (re, im) := Approx.powComplex precision a.value x
      ops.sum [settled ⟨re, precision⟩, ops.product [settled ⟨im, precision⟩, imaginary]]
  if a.value = 0 then
    match sign? e with
    | some .gt => some (.approx a)
    | some .lt => some unbounded
    | _ => none
  else match e with
    | .exact q =>
      if q.den = 1 then some (settled ⟨Approx.powInt a.precision a.value q.num, a.precision⟩)
      else if q.num = 1 && q.den % 2 = 1 && a.value < 0 then
        some (ops.product [.power minusOne e, ops.power (.approx a.neg) e])
      else some (general (roundBits a.precision q) a.precision)
    | .approx x => some (general x.value (max a.precision x.precision))
    | _ => none

def powerOfFraction (ops : Operations) (b : Rat) (e : Symbolic) : Option Symbolic :=
  let top : Symbolic := .exact b.num
  let bottom : Symbolic := .exact (b.den : Rat)
  match e with
  | .exact q =>
    if q.den = 1 then
      if 0 ≤ q.num then some (.exact (b ^ q.num.natAbs)) else some (.exact (1 / b ^ q.num.natAbs))
    else if q < 0 then
      let inverse : Symbolic := .exact (1 / b)
      if b < 0 then
        some (ops.product [ops.power minusOne e, ops.power (negNumber inverse) (.exact (-q))])
      else some (ops.power inverse (.exact (-q)))
    else
      let whole := q.floor
      let (rest, divisor) :=
        if whole = 0 then (1 - q, (b.den : Rat))
        else ((whole + 1 : Int) - q, ((b.den : Rat)) ^ (whole + 1).natAbs)
      let below := ops.product [ops.power bottom (.exact rest), .exact (1 / divisor)]
      if b.num = 1 then some below
      else some (ops.product [ops.product [ops.power top e, ops.power bottom (.exact rest)], .exact (1 / divisor)])
  | .approx x => some (ops.power (.approx (.ofRat x.precision b)) e)
  | .constant .infinity =>
    if 1 < b then some infinity
    else if b < -1 then some (ops.sum [infinity, ops.product [infinity, imaginary]])
    else some zero
  | .constant .negInfinity => some (ops.power (.exact (1 / b)) infinity)
  | _ => none

def powerOfInteger (ops : Operations) (n : Int) (e : Symbolic) : Option Symbolic :=
  match e with
  | .exact q =>
    if q.den = 1 then
      let p : Rat := Int.pow n q.num.natAbs
      some (.exact (if 0 ≤ q.num then p else 1 / p))
    else if q = 1 / 2 && n < 0 then
      some (ops.product [imaginary, ops.power (.exact (-n : Int)) e])
    else if q < 0 then
      if n < 0 then
        some (ops.product [ops.power minusOne e, ops.power (.exact (1 / (-n : Int) : Rat)) (.exact (-q))])
      else some (ops.power (.exact (1 / (n : Rat))) (.exact (-q)))
    else match rootOfPositive ops n.natAbs q with
      | some r => some (if n < 0 then ops.product [r, ops.power minusOne e] else r)
      | none => none
  | .approx x => some (ops.power (.approx (.ofRat x.precision n)) e)
  | .constant .infinity =>
    if 1 < n then some infinity else some (ops.sum [infinity, ops.product [imaginary, infinity]])
  | .constant .negInfinity => some (ops.power (.exact (1 / (n : Rat))) infinity)
  | _ => none

def powerOfRational (ops : Operations) (b : Rat) (e : Symbolic) : Option Symbolic :=
  if b = 0 then powerOfZero ops e
  else if b = -1 then powerOfMinusOne ops e
  else if b.den = 1 then powerOfInteger ops b.num e
  else powerOfFraction ops b e

def turnsOf? (x : Symbolic) : Option Rat :=
  match x with
  | .product [.exact q, .constant .pi, .constant .imaginary] => some q
  | .product [.constant .pi, .constant .imaginary] => some 1
  | _ => none

def exponential (ops : Operations) (x : Symbolic) : Symbolic :=
  let plain : Symbolic := .apply "exp" [x]
  match x with
  | .exact q => if q = 0 then one else if q = 1 then .constant .euler else plain
  | .approx a => if a.value = 0 then one else .approx (Exponential.approx a.precision a.value)
  | .constant .undefined => undefined
  | .constant .unbounded => undefined
  | .constant .infinity => infinity
  | .constant .negInfinity => zero
  | x =>
    match turnsOf? x with
    | none => plain
    | some q =>
      if q.den ≤ 2 then
        match (2 * q).num % 4 with
        | 0 => one
        | 1 => imaginary
        | 2 => minusOne
        | _ => negated ops imaginary
      else
        let turns := q - 2 * ((q / 2).floor : Int)
        let turns := if 1 < turns then turns - 2 else turns
        .apply "exp" [ops.product [.exact turns, .constant .pi, imaginary]]

def powerOfConstant (ops : Operations) (c : Constant) (e : Symbolic) : Option Symbolic :=
  match c with
  | .euler => some (exponential ops e)
  | .infinity =>
    match sign? e with
    | some .gt => some infinity
    | some .lt => some zero
    | _ => none
  | .negInfinity =>
    match e with
    | .constant _ => some undefined
    | .exact q =>
      if q.den = 1 && 0 < q then some (if q.num % 2 = 1 then negInfinity else infinity)
      else if q < 0 then some zero
      else some (ops.product [ops.power minusOne e, infinity])
    | _ => none
  | .unbounded =>
    match e with
    | .constant .unbounded => some undefined
    | e =>
      if !e.isNumber then none
      else match sign? e with
        | some .gt => some unbounded
        | some .lt => some zero
        | _ => some undefined
  | .imaginary =>
    match e with
    | .exact q =>
      if q.den = 1 then
        some (match q.num % 4 with
          | 0 => one
          | 1 => imaginary
          | 2 => minusOne
          | _ => negated ops imaginary)
      else
        let turns := (q / 2).floor
        let rest := q - 2 * (turns : Int)
        let root : Symbolic := .power imaginary (.exact rest)
        some (if turns % 2 = 1 then .product [minusOne, root] else root)
    | _ => none
  | _ => none

/-! ## Products, powers and sums -/

/-- Separates the factors of a base that may be separated under an exponent. -/
def separate (ops : Operations) (xs : List Symbolic) (e : Symbolic) : Symbolic :=
  let complex := xs.filter (fun x => isReal? x == some false && !x.same imaginary)
  let rest := xs.filter (fun x => isReal? x != some false)
  let units := xs.filter (fun x => x.same imaginary)
  let positive := rest.filter isNonnegative
  let negative := rest.filter isNegative
  let unknown := rest.filter (fun x => !isNonnegative x && !isNegative x)
  let other := complex ++ units ++ unknown
  let isWhole : Bool := match e with
    | .exact q => q.den == 1
    | _ => false
  let (apart, other) :=
    if isWhole then (positive ++ negative ++ other, [])
    else match negative with
      | [] => (positive, other)
      | [n] =>
        if other.isEmpty then (positive, [n])
        else if n.isNumber && !n.same minusOne then (positive ++ [negNumber n], other ++ [minusOne])
        else (positive, other ++ [n])
      | n :: ns =>
        let (o, ns) := if other.isEmpty && n.isNumber then (n, ns) else (one, n :: ns)
        let o := if ns.length % 2 = 1 then negNumber o else o
        (positive ++ ns.map (negated ops), if o.isExactOne then other else other ++ [o])
  let isRoot (x : Symbolic) : Bool := match x with
    | .power b (.exact _) => b.isConstant
    | _ => false
  let (roots, apart) := match e with
    | .exact _ => (apart.filter isRoot, apart.filter (fun x => !isRoot x))
    | _ => ([], apart)
  let first := ops.product (roots.map (fun x => ops.power x e))
  let second := if apart.isEmpty then first
    else ops.product [first, ops.product (apart.map (fun x => .power x e))]
  if other.isEmpty then second
  else ops.product [second, .power (ops.product other) e]

def powerOfProduct (ops : Operations) (xs : List Symbolic) (e : Symbolic) : Option Symbolic :=
  match e with
  | .exact q =>
    if q.den = 1 then some (ops.product (xs.map (fun x => .power x e)))
    else some (separate ops xs e)
  | .approx _ => some (separate ops xs e)
  | _ => none

/-- The power of a power: the exponents are multiplied, if the outer one is whole or the inner one
lies between minus one and one. -/
def powerOfPower (ops : Operations) (b x e : Symbolic) : Option Symbolic :=
  let joined := some (ops.power b (ops.product [x, e]))
  match e.integer? with
  | some _ => joined
  | none =>
    match x with
    | .exact q =>
      let b := if q.den = 1 && q.num % 2 = 0 && isReal? b == some true then
          (if isNegative b then negated ops b else b) else b
      if (-1 < q && q < 1) || isNonnegative b then some (ops.power b (ops.product [x, e]))
      else none
    | .approx a =>
      if (-1 < a.value && a.value < 1) || isNonnegative b then joined else none
    | x => if isNonnegative b && isReal? x == some true then joined else none

def complexParts? : Symbolic → Option (Rat × Rat)
  | .sum [.exact r, .constant .imaginary] => some (r, 1)
  | .sum [.exact r, .product [.exact i, .constant .imaginary]] => some (r, i)
  | _ => none

/-- The power of a sum. -/
def powerOfSum (ops : Operations) (xs : List Symbolic) (e : Symbolic) : Option Symbolic :=
  if e.rational?.isSome && areConstant xs then
    match complexParts? (.sum xs), e with
    | some (r, i), .exact q =>
      if q = -1 then
        let conjugate := ops.sum [.exact r, ops.product [.exact (-i), imaginary]]
        some (.product [.exact (1 / (r * r + i * i)), conjugate])
      else none
    | _, _ => none
  else match e.value? with
    | none => none
    | some v =>
      if v = 1 || v = -1 then none
      else
        let parts := xs.map coefficientOf
        if !parts.any (fun (c, _) => c.isApprox) then none
        else
          let largest := parts.foldl (fun (acc : Option Symbolic) (c, _) =>
            let m := magnitude c
            match acc, m.value? with
            | some a, some y => if (a.value?.getD 0) ≤ y then some m else some a
            | none, _ => some m
            | acc, none => acc) none
          match largest with
          | none => none
          | some big =>
            let size := big.value?.getD 0
            if size ≤ 0 || size = 1 then none
            else
              let scaled := parts.map (fun (c, m) =>
                let d := match c.value? with
                  | some y =>
                    if y = size then one
                    else if y = -size then minusOne
                    else quotient c big
                  | none => c
                ops.product [d, m])
              some (ops.product [ops.power big e, ops.power (ops.sum scaled) e])
where
  quotient (c d : Symbolic) : Symbolic :=
    match c, d with
    | .exact p, .exact q => .exact (p / q)
    | .approx a, .approx b => settled (a.div b)
    | .approx a, .exact q => settled (a.div (.ofRat a.precision q))
    | .exact p, .approx b => mulNumbers (.exact p) (settled b.inverse)
    | c, _ => c

def evaluated? (ops : Operations) (b e : Symbolic) : Option Symbolic :=
  match b with
  | .exact q => powerOfRational ops q e
  | .approx a => powerOfApprox ops a e
  | .constant c => powerOfConstant ops c e
  | .name _ => none
  | .sum xs => powerOfSum ops xs e
  | .product xs => powerOfProduct ops xs e
  | .power c x =>
    let (c, x) := baseExponent ops (.power c x)
    powerOfPower ops c x e
  | .apply "exp" [x] => powerOfPower ops (.constant .euler) x e
  | .apply _ _ => none

def leadsNegative (b : Symbolic) : Bool :=
  match b with
  | .product (c :: _) => b.isConstant && c.isNumber && isNegative c
  | b => b.isNumber && isNegative b

def towardInfinity? (b : Symbolic) : Option Symbolic :=
  match b with
  | .exact q =>
    if 1 < q then some infinity else if -1 < q && q < 1 then some zero
    else if q < -1 then some unbounded else none
  | .approx a =>
    if 1 < a.value then some infinity else if -1 < a.value && a.value < 1 then some zero
    else if a.value < -1 then some unbounded else none
  | .constant .infinity => some infinity
  | .constant .negInfinity => some undefined
  | b => match estimate b with
    | some z =>
      if !negligible z.im z.abs then none
      else if z.re > 1 then some infinity
      else if z.re > -1 && z.re < 1 then some zero
      else if z.re < -1 then some unbounded
      else none
    | none => none

def raise (ops : Operations) (b e : Symbolic) : Symbolic :=
  let limit := match e with
    | .constant .infinity => towardInfinity? b
    | _ => none
  match limit with
  | some r => r
  | none =>
    if isUnbounded e then undefined
    else if e.isExactZero then one
    else if e.isExactOne then b
    else if e.value? == some (-1) && b.isZero then unbounded
    else
      match e.integer?, leadsNegative b with
      | some n, true =>
        if n % 2 = 0 then settle (negated ops b)
        else negated ops (ops.power (negated ops b) e)
      | _, _ => settle b
where
  settle (b : Symbolic) : Symbolic :=
    if isUndefined b || isUndefined e then undefined
    else if b.isExactOne then (if isInfinite e then undefined else one)
    else (evaluated? ops b e).getD (.power b e)

end Supermartingale.Symbolic
