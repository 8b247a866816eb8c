import Supermartingale.Symbolic.Text

/-!
# Multiplying out

Expanding an expression multiplies out products of sums and whole powers of sums, and separates the
factors of a base and the terms of an exponent where that is allowed.
-/

namespace Supermartingale.Symbolic

/-! ## Multinomial coefficients -/

def binomials (n : Nat) : List (List Nat × Nat) :=
  let inner := (List.range (n / 2)).foldl (fun (a, acc) i =>
    let k := i + 1
    let a := a * (n - k + 1) / k
    let pair := if k = n - k then [([k, n - k], a)] else [([k, n - k], a), ([n - k, k], a)]
    (a, acc ++ pair)) (1, [])
  ([0, n], 1) :: ([n, 0], 1) :: inner.2

def factorial : Nat → Nat
  | 0 => 1
  | n + 1 => (n + 1) * factorial n

/-- All vectors of `m` exponents with sum `n`, ordered by the last exponent, then by the one before
it, and so on. -/
def exponentVectors : Nat → Nat → List (List Nat)
  | 0, n => if n = 0 then [[]] else []
  | m + 1, n => (List.range (n + 1)).flatMap (fun last => (exponentVectors m (n - last)).map (· ++ [last]))

def multinomials (m n : Nat) : List (List Nat × Nat) :=
  if m = 2 then binomials n
  else (exponentVectors m n).map (fun v => (v, factorial n / v.foldl (fun acc k => acc * factorial k) 1))

/-! ## Powers of sums -/

def complexPower (r i : Rat) : Nat → Rat × Rat
  | 0 => (1, 0)
  | n + 1 =>
    let (c, d) := complexPower r i n
    (r * c - i * d, i * c + r * d)

def multinomialPower (xs : List Symbolic) (n : Nat) : Symbolic :=
  match complexParts? (.sum xs) with
  | some (r, i) =>
    let (c, d) := complexPower r i n
    add (.exact c) (mul (.exact d) imaginary)
  | none =>
    addAll ((multinomials xs.length n).map (fun (v, c) =>
      mulAll (.exact (c : Rat) :: (xs.zip v).filterMap (fun (x, k) =>
        if k = 0 then none else some (pow x (.exact (k : Rat)))))))

/-- A power of a sum with an exponent above one, multiplied out; a fractional exponent keeps a root
of the sum. -/
def sumPower (xs : List Symbolic) (q : Rat) : Symbolic :=
  if q.den = 1 then multinomialPower xs q.num.natAbs
  else
    let whole := q.floor
    let root := pow (.sum xs) (.exact (q - whole))
    let base := pow (.sum xs) (.exact whole)
    let base := match base with
      | .power (.sum ys) (.exact n) => if 1 < n then multinomialPower ys n.num.natAbs else base
      | base => base
    addAll ((termsOf base).map (fun x => mul x root))

/-- Multiplies out a power of a sum. -/
def expandPowerOfSum (x : Symbolic) : Symbolic :=
  match x with
  | .power (.sum xs) (.exact q) =>
    if 1 < q then sumPower xs q
    else if q < -1 then
      match pow (.sum xs) (.exact (-q)) with
      | .power (.sum ys) (.exact p) => if 1 < p then pow (sumPower ys p) minusOne else x
      | y => pow y minusOne
    else x
  | .power b (.sum es) =>
    if !b.isNumber then x
    else
      let (c, rest) := es.foldl (fun (c, rest) e =>
        if e.isNumber then (mul c (pow b e), rest) else (c, add rest e)) (one, zero)
      mul c (pow b rest)
  | x => x

/-! ## Products of sums -/

def fraction (x : Symbolic) : Symbolic × Symbolic :=
  let (above, below) := (factorsOf x).foldl (fun (above, below) f =>
    match f with
    | .power _ _ => split f above below
    | .apply "exp" _ => split f above below
    | .exact q =>
      if q.den = 1 then (above ++ [f], below)
      else (if q.num = 1 then above else above ++ [.exact q.num], below ++ [.exact (q.den : Rat)])
    | f => (above ++ [f], below)) (([] : List Symbolic), ([] : List Symbolic))
  (mulAll above, mulAll below)
where
  split (f : Symbolic) (above below : List Symbolic) : List Symbolic × List Symbolic :=
    let (b, e) := parts f
    match sign? e with
    | some .lt => (above, below ++ [if e.same minusOne then b else pow b (neg e)])
    | some _ => (above ++ [f], below)
    | none =>
      match e with
      | .product (c :: _) =>
        if c.isNumber && isNegative c then (above, below ++ [pow b (neg e)]) else (above ++ [f], below)
      | _ => (above ++ [f], below)

def crossTerms : Nat → List (List Symbolic) → List Symbolic
  | 0, _ => []
  | _ + 1, [] => []
  | _ + 1, [xs] => xs
  | fuel + 1, sums =>
    let k := sums.length / 2
    let left := crossTerms fuel (sums.take k)
    let right := crossTerms fuel (sums.drop k)
    termsOf (addAll (left.flatMap (fun a => right.map (fun b => mul a b))))

def holdsSum : Symbolic → Bool
  | .product xs => xs.any isSum
  | _ => false

/-- Multiplies out a product of sums. -/
def expandProduct : Nat → Symbolic → Symbolic
  | 0, x => x
  | fuel + 1, x =>
    if !x.isProduct then x
    else
      let (n, d) := fraction x
      let (n, d) := if d.isProduct then (expandProduct fuel n, expandProduct fuel d) else (n, d)
      match div n d with
      | .product xs =>
        let sums := xs.filterMap (fun x => match x with
          | .sum ys => some ys
          | _ => none)
        if sums.isEmpty then .product xs
        else
          let plain := mulAll (xs.filter (fun x => !x.isSum))
          let terms := crossTerms (sums.length + 1) sums
          addAll (terms.map (fun t =>
            let y := mul plain t
            if holdsSum y then expandProduct fuel y else y))
      | y => y

def expandBase (x : Symbolic) : Symbolic :=
  match x with
  | .power (.product xs) e => separate standard xs e
  | x => x

def haveOneSign (es : List Symbolic) : Bool := es.all isNonnegative || es.all (fun e => isNegative e || e.isZero)

def expandExponent (x : Symbolic) : Symbolic :=
  match x with
  | .power b (.sum es) =>
    if isNonzero b || haveOneSign es then mulAll (es.map (fun e => pow b e)) else x
  | .apply "exp" [.sum es] => mulAll (es.map (exponential standard))
  | x => x

/-! ## Expanding -/

def rebuild (x : Symbolic) (parts : List Symbolic) : Symbolic :=
  match x, parts with
  | .sum _, xs => addAll xs
  | .product _, xs => mulAll xs
  | .power _ _, [b, e] => pow b e
  | .apply "exp" _, [y] => exponential standard y
  | .apply "Abs" _, [y] => abs y
  | .apply f _, xs => .apply f xs
  | x, _ => x

mutual

/-- Applies a rule to all parts of an expression and then to the expression itself. -/
def applyRule (rule : Symbolic → Symbolic) (x : Symbolic) : Symbolic × Bool :=
  let (y, hit) : Symbolic × Bool := match x with
    | .sum xs =>
      let (ys, hit) := applyRuleAll rule xs
      (if hit then rebuild x ys else x, hit)
    | .product xs =>
      let (ys, hit) := applyRuleAll rule xs
      (if hit then rebuild x ys else x, hit)
    | .power b e =>
      let (b', hit) := applyRule rule b
      let (e', hit') := applyRule rule e
      (if hit || hit' then rebuild x [b', e'] else x, hit || hit')
    | .apply _ xs =>
      let (ys, hit) := applyRuleAll rule xs
      (if hit then rebuild x ys else x, hit)
    | x => (x, false)
  let z := rule y
  if z.same y then (y, hit) else (z, true)

def applyRuleAll (rule : Symbolic → Symbolic) (xs : List Symbolic) : List Symbolic × Bool :=
  match xs with
  | [] => ([], false)
  | x :: xs =>
    let (y, hit) := applyRule rule x
    let (ys, hits) := applyRuleAll rule xs
    (y :: ys, hit || hits)

end

def rounds : Nat := 100

def expandPowers (x : Symbolic) : Symbolic := (applyRule expandPowerOfSum x).1

def expandProducts (x : Symbolic) : Symbolic := (applyRule (expandProduct rounds) x).1

def expandWithin : Nat → Symbolic → Symbolic
  | 0, x => x
  | fuel + 1, x =>
    let y := expandProducts (expandPowers x)
    if y.same x then x else expandWithin fuel y

def expand (x : Symbolic) : Symbolic :=
  let x := expandProducts (expandPowers x)
  let x := (applyRule expandBase x).1
  let x := (applyRule expandExponent x).1
  expandWithin rounds x

/-! ## Generators

An expression that is multiplied out is a polynomial over generators: its unknowns, and everything
else that is neither a rational nor an approximation nor the imaginary unit. -/

/-- A term of a polynomial: the numbers in front of it, and the powers of generators. -/
structure PolynomialTerm where
  numbers : List Symbolic := []
  powers : List (Symbolic × Nat) := []

def isCoefficient : Symbolic → Bool
  | .exact _ => true
  | .approx _ => true
  | .constant .imaginary => true
  | _ => false

def generatorPower (x : Symbolic) : Symbolic × Nat :=
  let (b, k) := decompose x
  if k < 0 then (pow b minusOne, k.natAbs) else (b, k.natAbs)

def addPower (g : Symbolic) (k : Nat) : List (Symbolic × Nat) → List (Symbolic × Nat)
  | [] => [(g, k)]
  | (h, n) :: rest => if h.same g then (h, n + k) :: rest else (h, n) :: addPower g k rest

namespace PolynomialTerm

def coefficient (t : PolynomialTerm) : Symbolic := mulAll t.numbers

def times (t u : PolynomialTerm) : PolynomialTerm :=
  ⟨t.numbers ++ u.numbers, u.powers.foldl (fun ps (g, k) => addPower g k ps) t.powers⟩

def ofFactor (x : Symbolic) : PolynomialTerm :=
  if isCoefficient x then ⟨[x], []⟩ else ⟨[], [generatorPower x]⟩

def cross (ts us : List PolynomialTerm) : List PolynomialTerm := ts.flatMap (fun t => us.map t.times)

def power (ts : List PolynomialTerm) : Nat → List PolynomialTerm
  | 0 => [{}]
  | n + 1 => cross (power ts n) ts

end PolynomialTerm

def isCompound (x : Symbolic) : Bool := x.isSum || x.isProduct || x.isPower || isCoefficient x

mutual

/-- The terms of an expression. What is still a product of sums or a power of one is multiplied
out. -/
def termsIn : Symbolic → List PolynomialTerm
  | .sum xs => allTerms xs
  | .product xs => productTerms [{}] xs
  | .power b (.exact q) =>
    if q.den = 1 && 0 < q.num && isCompound b then PolynomialTerm.power (termsIn b) q.num.natAbs
    else [.ofFactor (.power b (.exact q))]
  | x => [.ofFactor x]

def allTerms : List Symbolic → List PolynomialTerm
  | [] => []
  | x :: xs => termsIn x ++ allTerms xs

def productTerms (ts : List PolynomialTerm) : List Symbolic → List PolynomialTerm
  | [] => ts
  | x :: xs => productTerms (PolynomialTerm.cross ts (termsIn x)) xs

end

def hasPowerOfSum (x : Symbolic) : Bool :=
  (factorsOf x).any (fun f => match f with
    | .power (.sum _) (.exact q) => q.den = 1 && 0 < q
    | _ => false)

def expandRest : Nat → Symbolic → Symbolic
  | 0, x => x
  | fuel + 1, x =>
    if (termsOf x).any hasPowerOfSum then expandRest fuel (expandPowers x)
    else if (termsOf x).any holdsSum then expandRest fuel (expandProducts x)
    else x

def polynomialTerms (x : Symbolic) : List PolynomialTerm := termsIn (expandRest rounds (expand x))

def atPrecision (precision : Nat) (x : Symbolic) : Symbolic :=
  let number (x : Symbolic) : Symbolic := match x with
    | .exact q => if q = 0 then x else .approx (.ofRat precision q)
    | .approx a => .approx (.ofRat precision a.value)
    | x => x
  let part (x : Symbolic) : Symbolic := match x with
    | .constant .imaginary => mul (.approx ⟨1, precision⟩) imaginary
    | .product [c, .constant .imaginary] => mul (number c) imaginary
    | x => number x
  addAll ((termsOf x).map part)

end Supermartingale.Symbolic
