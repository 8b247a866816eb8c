import Mathlib.Algebra.Algebra.Hom
import Mathlib.Algebra.Algebra.Rat
import Mathlib.Data.Real.Basic
import Supermartingale.Polynomial.Equation
import Supermartingale.Proofs.Sort

/-!
# The value of a polynomial

Expressions, expansions and lists of monomials have a value at every valuation of their names. A coefficient counts
for the number that is written for it: rounding happens when an approximation is written.
-/

namespace Supermartingale

/-- The real numbers are an algebra over the rationals, by one and the same instance wherever values are taken. -/
instance charZeroReal : CharZero ℝ := IsStrictOrderedRing.toCharZero

variable {R : Type*} [CommRing R] [Algebra ℚ R]

namespace Expression

/-- The number that an expression without names spells; a name counts for zero. -/
def number : Expression → ℚ
  | .whole n => n
  | .decimal x => x.value
  | .neg e => -e.number
  | .pos e => e.number
  | .add l r => l.number + r.number
  | .sub l r => l.number - r.number
  | .mul l r => l.number * r.number
  | .div l r => r.number⁻¹ * l.number
  | .pow l r => l.number ^ r.number.num.natAbs
  | _ => 0

/-- The value of an expression. A divisor and an exponent count for the numbers they spell. -/
def eval (ρ : String → R) : Expression → R
  | .whole n => n
  | .decimal x => algebraMap ℚ R x.value
  | .name s => ρ s
  | .neg e => -e.eval ρ
  | .pos e => e.eval ρ
  | .add l r => l.eval ρ + r.eval ρ
  | .sub l r => l.eval ρ - r.eval ρ
  | .mul l r => l.eval ρ * r.eval ρ
  | .div l r => r.number⁻¹ • l.eval ρ
  | .pow l r => l.eval ρ ^ r.number.num.natAbs
  | _ => 0

/-- Whether an expression is built in the way of polynomials: sums, products, quotients by numerals
that are not zero, and powers with whole numerals, over names that are unknowns. -/
def isPolynomial : Expression → Bool
  | .whole _ | .decimal _ => true
  | .name s => Symbolic.meaningOf s = .unknown && !Token.literals.contains s
  | .neg e | .pos e => e.isPolynomial
  | .add l r | .sub l r | .mul l r => l.isPolynomial && r.isPolynomial
  | .div l (.whole d) => l.isPolynomial && d != 0
  | .pow l (.whole _) => l.isPolynomial
  | _ => false

def isExact : Expression → Bool
  | .decimal _ => false
  | .neg e | .pos e => e.isExact
  | .add l r | .sub l r | .mul l r | .div l r | .pow l r => l.isExact && r.isExact
  | _ => true

theorem number_eq_eval (e : Expression) : e.number = e.eval (fun _ => (0 : ℚ)) := by
  induction e with
  | neg e ih | pos e ih => simp only [number, eval, ih]
  | add l r ihl ihr | sub l r ihl ihr | mul l r ihl ihr => simp only [number, eval, ihl, ihr]
  | div l r ihl _ => simp only [number, eval, ihl, smul_eq_mul]
  | pow l r ihl _ => simp only [number, eval, ihl]
  | decimal x => simp [number, eval]
  | _ => rfl

theorem map_eval {S : Type*} [CommRing S] [Algebra ℚ S] (φ : R →ₐ[ℚ] S) (ρ : String → R)
    (e : Expression) : φ (e.eval ρ) = e.eval (fun s => φ (ρ s)) := by
  induction e with
  | neg e ih | pos e ih => simp only [eval, map_neg, ih]
  | add l r ihl ihr | sub l r ihl ihr | mul l r ihl ihr =>
    simp only [eval, map_add, map_sub, map_mul, ihl, ihr]
  | div l r ihl _ => simp only [eval, map_smul, ihl]
  | pow l r ihl _ => simp only [eval, map_pow, ihl]
  | _ => simp [eval]

/-- The number that a text spells, zero if it is no expression. -/
def spelled (s : String) : ℚ := (read s).elim 0 number

end Expression

/-! ## Coefficients, monomials, polynomials -/

def Scalar.written : Scalar → ℚ
  | .given (.int n) => n
  | .given (.double x) => Expression.spelled (Double.text x)
  | .exact q => q
  | .approx a => Expression.spelled a.text
  | .symbolic x => Expression.spelled x.text

/-- The natural number that an exponent is; powers of a polynomial are natural. -/
def Number.exponent : Number → ℕ
  | .int n => n.toNat
  | .double _ => 0

def Monomial.powersValue {R : Type*} [CommRing R] (ρ : String → R) (powers : List (String × Number)) : R :=
  (powers.map (fun (v, p) => ρ v ^ p.exponent)).prod

def Monomial.eval (ρ : String → R) (m : Monomial) : R := m.coefficient.written • Monomial.powersValue ρ m.powers

def Equation.eval (ρ : String → R) (e : Equation) : R := (e.monomials.map (Monomial.eval ρ)).sum

/-- The value of a monomial where every power of every name has a value of its own. -/
def Monomial.evalPowers (values : String → ℕ → R) (m : Monomial) : R :=
  m.coefficient.written • (m.powers.map (fun (v, p) => values v p.exponent)).prod

/-- The value of a polynomial where every power of every name has a value of its own. -/
def Equation.evalPowers (values : String → ℕ → R) (e : Equation) : R :=
  (e.monomials.map (Monomial.evalPowers values)).sum

theorem Equation.evalPowers_eq_eval (ρ : String → R) (e : Equation) :
    e.evalPowers (fun s n => ρ s ^ n) = e.eval ρ := rfl

namespace Monomial

theorem exponent_of_isZero {p : Number} (zero : p.isZero) : p.exponent = 0 := by
  cases p with
  | int n =>
    have : n = 0 := by simpa [Number.isZero, Number.same] using zero
    rw [this]
    rfl
  | double x => rfl

theorem powersValue_filter {R : Type*} [CommRing R] (ρ : String → R) (powers : List (String × Number)) :
    powersValue ρ (powers.filter (fun (_, p) => !p.isZero)) = powersValue ρ powers := by
  induction powers with
  | nil => rfl
  | cons head powers ih =>
    obtain ⟨v, p⟩ := head
    simp only [powersValue, List.map_cons, List.prod_cons, List.filter_cons] at ih ⊢
    cases zero : p.isZero with
    | true => simpa [exponent_of_isZero zero] using ih
    | false => simpa using congrArg (ρ v ^ p.exponent * ·) ih

theorem eval_canonical (ρ : String → R) (c : Scalar) (powers : List (String × Number))
    (vanishes : c.isZero → c.written = 0) : (canonical c powers).eval ρ = c.written • powersValue ρ powers := by
  unfold canonical
  split
  · rename_i zero
    rw [vanishes zero, zero_smul]
    simp [eval, Scalar.zero, Scalar.written]
  · have sorting := Sort.sort_perm (fun a b => decide (a.1 ≤ b.1))
      (powers.filter (fun (_, p) => !p.isZero))
    rw [eval, ← powersValue_filter ρ powers]
    exact congrArg (c.written • ·) (sorting.map _).prod_eq

end Monomial

end Supermartingale
