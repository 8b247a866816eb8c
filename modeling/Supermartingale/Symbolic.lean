import Supermartingale.Number.Power
import Supermartingale.Sort

/-!
# Symbolic expressions

A symbolic expression is a number, a named constant, an unknown, or a sum, product, power or
application of such. Numbers are exact rationals or binary approximations.
-/

namespace Supermartingale

abbrev Symbolic.NameTable := List (Char × List String)

def Symbolic.NameTable.has (table : NameTable) (s : String) : Bool :=
  match s.toList with
  | [] => false
  | c :: _ => table.any (fun (first, names) => first == c && names.contains s)

def Symbolic.expressionKinds : NameTable :=
  [('A', ["Abs", "Add", "AlgebraicNumber", "AtomicExpr"]),
    ('C', ["CRootOf", "Chi", "Ci", "ComplexRootOf"]),
    ('D', ["Derivative", "DiracDelta", "Dummy"]),
    ('E', ["E1", "Ei", "Expr"]),
    ('F', ["FallingFactorial", "Float"]),
    ('G', ["GroebnerBasis"]),
    ('H', ["Heaviside"]),
    ('I', ["Id", "Integer", "Integral"]),
    ('K', ["KroneckerDelta"]),
    ('L', ["LambertW", "LeviCivita", "Li", "Limit"]),
    ('M', ["Max", "Min", "Mod", "Mul"]),
    ('N', ["Number", "NumberSymbol"]),
    ('O', ["O", "Order"]),
    ('P', ["Piecewise", "Poly", "Pow", "Product", "PurePoly"]),
    ('R', ["Rational", "RealNumber", "Rem", "RisingFactorial", "RootOf", "RootSum"]),
    ('S', ["Shi", "Si", "SingularityFunction", "Subs", "Sum", "Symbol"]),
    ('T', ["TableForm"]),
    ('U', ["UnevaluatedExpr"]),
    ('W', ["Wild"]),
    ('Y', ["Ynm", "Ynm_c"]),
    ('Z', ["Znm"]),
    ('a', ["acos", "acosh", "acot", "acoth", "acsc", "acsch", "adjoint", "airyai", "airyaiprime",
      "airybi", "airybiprime", "andre", "appellf1", "arg", "asec", "asech", "asin", "asinh",
      "assoc_laguerre", "assoc_legendre", "atan", "atan2", "atanh"]),
    ('b', ["bell", "bernoulli", "besseli", "besselj", "besselk", "bessely", "beta", "betainc",
      "betainc_regularized", "binomial"]),
    ('c', ["carmichael", "catalan", "ceiling", "chebyshevt", "chebyshevt_root", "chebyshevu",
      "chebyshevu_root", "conjugate", "cos", "cosh", "cot", "coth", "csc", "csch"]),
    ('d', ["digamma", "dirichlet_eta", "divisor_sigma"]),
    ('e', ["elliptic_e", "elliptic_f", "elliptic_k", "elliptic_pi", "erf", "erf2", "erf2inv",
      "erfc", "erfcinv", "erfi", "erfinv", "euler", "exp", "exp_polar", "expint"]),
    ('f', ["factorial", "factorial2", "ff", "fibonacci", "floor", "frac", "fresnelc", "fresnels"]),
    ('g', ["gamma", "gegenbauer", "genocchi"]),
    ('h', ["hankel1", "hankel2", "harmonic", "hermite", "hermite_prob", "hn1", "hn2", "hyper"]),
    ('i', ["im"]),
    ('j', ["jacobi", "jn"]),
    ('l', ["laguerre", "legendre", "lerchphi", "li", "ln", "log", "loggamma", "lowergamma", "lucas"]),
    ('m', ["marcumq", "mathieuc", "mathieucprime", "mathieus", "mathieusprime", "meijerg", "mobius",
      "motzkin", "multigamma"]),
    ('p', ["partition", "periodic_argument", "polar_lift", "polygamma", "polylog", "primenu",
      "primeomega", "principal_branch"]),
    ('r', ["re", "reduced_totient", "rf", "riemann_xi"]),
    ('s', ["sec", "sech", "sign", "sin", "sinc", "sinh", "stieltjes", "subfactorial"]),
    ('t', ["tan", "tanh", "totient", "transpose", "tribonacci", "trigamma"]),
    ('u', ["udivisor_sigma", "unbranched_argument", "uppergamma"]),
    ('y', ["yn"]),
    ('z', ["zeta"])]

/-! ## Expressions -/

inductive Constant where
  | undefined
  | unbounded
  | infinity
  | negInfinity
  | euler
  | pi
  | imaginary
  | goldenRatio
  | eulerGamma
  | catalan
  | tribonacci
deriving DecidableEq, Repr

inductive Symbolic where
  | exact (q : Rat)
  | approx (a : Approx)
  | constant (c : Constant)
  | name (s : String)
  | sum (terms : List Symbolic)
  | product (factors : List Symbolic)
  | power (base exponent : Symbolic)
  | apply (f : String) (arguments : List Symbolic)

namespace Constant

def text : Constant → String
  | undefined => "nan"
  | unbounded => "zoo"
  | infinity => "oo"
  | negInfinity => "-oo"
  | euler => "E"
  | pi => "pi"
  | imaginary => "I"
  | goldenRatio => "GoldenRatio"
  | eulerGamma => "EulerGamma"
  | catalan => "Catalan"
  | tribonacci => "TribonacciConstant"

def sort : Constant → String
  | undefined => "NaN"
  | unbounded => "ComplexInfinity"
  | infinity => "Infinity"
  | negInfinity => "NegativeInfinity"
  | euler => "Exp1"
  | pi => "Pi"
  | imaginary => "ImaginaryUnit"
  | goldenRatio => "GoldenRatio"
  | eulerGamma => "EulerGamma"
  | catalan => "Catalan"
  | tribonacci => "TribonacciConstant"

def isNumeric : Constant → Bool
  | undefined => true
  | infinity => true
  | negInfinity => true
  | _ => false

end Constant

namespace Symbolic

instance : Inhabited Symbolic := ⟨.exact 0⟩

def zero : Symbolic := .exact 0

def one : Symbolic := .exact 1

def minusOne : Symbolic := .exact (-1)

def half : Symbolic := .exact (1 / 2)

def undefined : Symbolic := .constant .undefined

def unbounded : Symbolic := .constant .unbounded

def infinity : Symbolic := .constant .infinity

def negInfinity : Symbolic := .constant .negInfinity

def imaginary : Symbolic := .constant .imaginary

/-! ## Order -/

/-- The rank of the kind of an expression: numbers stand before constants, constants before
unknowns, then powers, products and sums, and applications last. -/
def rank : Symbolic → Nat
  | .exact q =>
    if q = 0 then 0 else if q = 1 then 1 else if q = 1 / 2 then 2 else if q = -1 then 5
    else if q.den = 1 then 7 else 8
  | .approx _ => 9
  | .constant .infinity => 3
  | .constant .undefined => 4
  | .constant .negInfinity => 6
  | .constant .euler => 10
  | .constant .pi => 11
  | .constant .imaginary => 12
  | .constant _ => 100
  | .name _ => 13
  | .power _ _ => 16
  | .product _ => 17
  | .sum _ => 18
  | .apply f _ =>
    match f with
    | "Abs" => 21
    | "RisingFactorial" => 45
    | "FallingFactorial" => 46
    | "factorial" => 47
    | "binomial" => 48
    | _ => 100

def kindWord : Symbolic → String
  | .constant c => c.sort
  | .apply f _ => f
  | _ => ""

def orderApprox (a b : Approx) : Ordering :=
  let parts (x : Approx) : Nat × Nat × Int :=
    if x.value = 0 then (0, 0, 0)
    else
      let m := Approx.mantissa x.value
      (if x.value < 0 then 1 else 0, m.1, m.2)
  let (s, m, e) := parts a
  let (t, n, f) := parts b
  (compare s t).then ((compare m n).then ((compare e f).then (compare a.precision b.precision)))

mutual

/-- The order in which expressions stand in sums and products. -/
def order (x y : Symbolic) : Ordering :=
  match x, y with
  | .name a, .name b => compare a b
  | .power a b, .power c d => (order a c).then (order b d)
  | .product xs, .product ys => (compare xs.length ys.length).then (orderParts xs ys)
  | .sum xs, .sum ys => (compare xs.length ys.length).then (orderParts xs ys)
  | .exact p, .exact q =>
    (compare (rank (.exact p)) (rank (.exact q))).then
      ((compare p.num q.num).then (compare p.den q.den))
  | .approx a, .approx b => orderApprox a b
  | .apply f xs, .apply g ys =>
    (compare (rank (.apply f xs)) (rank (.apply g ys))).then ((compare f g).then
      ((compare xs.length ys.length).then (orderParts xs ys)))
  | x, y => (compare (rank x) (rank y)).then (compare (kindWord x) (kindWord y))

def orderParts (xs ys : List Symbolic) : Ordering :=
  match xs, ys with
  | x :: xs, y :: ys => (order x y).then (orderParts xs ys)
  | _, _ => .eq

end

def same (x y : Symbolic) : Bool := order x y == .eq

instance : BEq Symbolic := ⟨same⟩

def sorted (xs : List Symbolic) : List Symbolic := Sort.sort (fun x y => order x y != .gt) xs

/-! ## Views -/

def isNumber : Symbolic → Bool
  | .exact _ => true
  | .approx _ => true
  | .constant c => c.isNumeric
  | _ => false

def value? : Symbolic → Option Rat
  | .exact q => some q
  | .approx a => some a.value
  | _ => none

def isZero (x : Symbolic) : Bool := x.value? == some 0

def isExactOne : Symbolic → Bool
  | .exact q => q == 1
  | _ => false

def isExactZero : Symbolic → Bool
  | .exact q => q == 0
  | _ => false

def rational? : Symbolic → Option Rat
  | .exact q => some q
  | _ => none

def integer? : Symbolic → Option Int
  | .exact q => if q.den = 1 then some q.num else none
  | _ => none

def isSum : Symbolic → Bool
  | .sum _ => true
  | _ => false

def isProduct : Symbolic → Bool
  | .product _ => true
  | _ => false

def isPower : Symbolic → Bool
  | .power _ _ => true
  | _ => false

def isApprox : Symbolic → Bool
  | .approx _ => true
  | _ => false

def termsOf : Symbolic → List Symbolic
  | .sum xs => xs
  | x => [x]

def factorsOf : Symbolic → List Symbolic
  | .product xs => xs
  | x => [x]

def rawSum : List Symbolic → Symbolic
  | [] => zero
  | [x] => x
  | xs => .sum xs

def rawProduct : List Symbolic → Symbolic
  | [] => one
  | [x] => x
  | xs => .product xs

def coefficientOf (x : Symbolic) : Symbolic × Symbolic :=
  match x with
  | .product (c :: rest) => if c.isNumber then (c, rawProduct rest) else (one, x)
  | x => if x.isNumber && !x.isZero then (x, one) else (one, x)

def rationalCoefficientOf (x : Symbolic) : Rat × Symbolic :=
  match x with
  | .product (.exact q :: rest) => (q, rawProduct rest)
  | .product (.approx a :: rest) =>
    if a.value < 0 then (-1, .product (.approx a.neg :: rest)) else (1, x)
  | .exact q => if q = 0 then (1, x) else (q, one)
  | x => (1, x)

def constantPartOf (x : Symbolic) : Symbolic × Symbolic :=
  match x with
  | .sum (c :: rest) => if c.isNumber then (c, rawSum rest) else (zero, x)
  | x => if x.isNumber then (x, zero) else (zero, x)

mutual

/-- Whether an expression has no unknowns; a function that is not known is one. -/
def isConstant : Symbolic → Bool
  | .exact _ => true
  | .approx _ => true
  | .constant _ => true
  | .name _ => false
  | .sum xs => areConstant xs
  | .product xs => areConstant xs
  | .power b e => isConstant b && isConstant e
  | .apply f xs => expressionKinds.has f && areConstant xs

def areConstant : List Symbolic → Bool
  | [] => true
  | x :: xs => isConstant x && areConstant xs

end

mutual

def size : Symbolic → Nat
  | .sum xs => sizes xs + 1
  | .product xs => sizes xs + 1
  | .power b e => size b + size e + 1
  | .apply _ xs => sizes xs + 1
  | _ => 1

def sizes : List Symbolic → Nat
  | [] => 0
  | x :: xs => size x + sizes xs

end

mutual

def widest : Symbolic → Option Nat
  | .approx a => some a.precision
  | .sum xs => widestOf xs
  | .product xs => widestOf xs
  | _ => none

def widestOf : List Symbolic → Option Nat
  | [] => none
  | x :: xs =>
    match widest x, widestOf xs with
    | some p, some q => some (max p q)
    | some p, none => some p
    | none, q => q

end

mutual

def isWritable : Symbolic → Bool
  | .exact q => Supermartingale.isWritable q.num.natAbs && Supermartingale.isWritable q.den
  | .sum xs => areWritable xs
  | .product xs => areWritable xs
  | .power b e => isWritable b && isWritable e
  | .apply _ xs => areWritable xs
  | _ => true

def areWritable : List Symbolic → Bool
  | [] => true
  | x :: xs => isWritable x && areWritable xs

end

end Symbolic

end Supermartingale
