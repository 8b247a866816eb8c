import Supermartingale.Polynomial.Expression
import Supermartingale.Symbolic.Names

/-!
# Expansion of polynomial expressions

An expression over unknowns and integers that is built with sums, products, quotients by numbers and natural powers is
multiplied out into a sum of terms, each a rational times a product of powers. Like products are collected, and a term
whose coefficient cancels disappears.
-/

namespace Supermartingale

/-- A product of powers of names, sorted by the names, no name twice and no power zero. -/
abbrev PowerProduct := List (String × Nat)

namespace PowerProduct

def order : PowerProduct → PowerProduct → Ordering
  | [], [] => .eq
  | [], _ :: _ => .lt
  | _ :: _, [] => .gt
  | (a, x) :: s, (b, y) :: t =>
    match compare a b with
    | .eq => (compare x y).then (order s t)
    | o => o

/-- A product that starts with a power of `a` and goes on with `s`, times another one; `rest`
multiplies by `s`. -/
def mulFrom (a : String) (x : Nat) (s : PowerProduct) (rest : PowerProduct → PowerProduct) :
    PowerProduct → PowerProduct
  | [] => (a, x) :: s
  | (b, y) :: t =>
    match compare a b with
    | .lt => (a, x) :: rest ((b, y) :: t)
    | .gt => (b, y) :: mulFrom a x s rest t
    | .eq => (a, x + y) :: rest t

def mul : PowerProduct → PowerProduct → PowerProduct
  | [], t => t
  | (a, x) :: s, t => mulFrom a x s (mul s) t

end PowerProduct

/-- A sum of terms, sorted by their products, no product twice and no coefficient zero. -/
abbrev Expansion := List (PowerProduct × Rat)

namespace Expansion

def ofRat (c : Rat) : Expansion :=
  if c = 0 then [] else [([], c)]

def ofName (s : String) : Expansion := [([(s, 1)], 1)]

/-- Adds the coefficients of neighbours with the same product, from the left; `p` and `a` are
the product and the coefficient gathered so far. -/
def gather (p : PowerProduct) (a : Rat) : List (PowerProduct × Rat) → Expansion
  | [] => if a = 0 then [] else [(p, a)]
  | (q, b) :: rest =>
    if p.order q = .eq then gather p (a + b) rest
    else if a = 0 then gather q b rest
    else (p, a) :: gather q b rest

def collect (terms : List (PowerProduct × Rat)) : Expansion :=
  match Sort.sort (fun t u => t.1.order u.1 != .gt) terms with
  | [] => []
  | (p, a) :: rest => gather p a rest

def add (s t : Expansion) : Expansion := collect (s ++ t)

def mul (s t : Expansion) : Expansion := collect (s.flatMap (fun (p, a) => t.map (fun (q, b) => (p.mul q, a * b))))

def neg (s : Expansion) : Expansion := s.map (fun (p, c) => (p, -c))

def scale (c : Rat) (s : Expansion) : Expansion :=
  if c = 0 then [] else s.map (fun (p, d) => (p, c * d))

def number? : Expansion → Option Rat
  | [] => some 0
  | [([], c)] => some c
  | _ => none

def pow (s : Expansion) : Nat → Expansion
  | 0 => ofRat 1
  | k + 1 => mul s (pow s k)

def natural? (s : Expansion) : Option Nat :=
  match number? s with
  | some c => if c.den = 1 && 0 ≤ c.num then some c.num.natAbs else none
  | none => none

/-- Multiplies out an expression; none if it is not built in the way of polynomials with rational
coefficients. -/
def ofExpression? : Expression → Option Expansion
  | .whole n => some (ofRat n)
  | .name s =>
    match Symbolic.meaningOf s with
    | .unknown => if Token.literals.contains s then none else some (ofName s)
    | _ => none
  | .pos e => ofExpression? e
  | .neg e => (ofExpression? e).map neg
  | .add l r =>
    match ofExpression? l, ofExpression? r with
    | some x, some y => some (add x y)
    | _, _ => none
  | .sub l r =>
    match ofExpression? l, ofExpression? r with
    | some x, some y => some (add x (neg y))
    | _, _ => none
  | .mul l r =>
    match ofExpression? l, ofExpression? r with
    | some x, some y => some (mul x y)
    | _, _ => none
  | .div l r =>
    match ofExpression? l, (ofExpression? r).bind number? with
    | some x, some c => if c = 0 then none else some (scale (1 / c) x)
    | _, _ => none
  | .pow l r =>
    match ofExpression? l, (ofExpression? r).bind natural? with
    | some x, some k => some (pow x k)
    | _, _ => none
  | _ => none

def isWritable (s : Expansion) : Bool :=
  s.all (fun (p, c) => p.all (fun (_, k) => Supermartingale.isWritable k) && Symbolic.isWritable (.exact c))

end Expansion

end Supermartingale
