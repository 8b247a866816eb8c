import Mathlib
import Supermartingale.Proofs.Except
import Supermartingale.Proofs.Inequality.Negation

/-!
# Like terms

The canonical form of a monomial does not depend on the order in which its powers are given, so like terms are found by
comparing names and powers position by position. No part of Mathlib alone has the lemmas on equal doubles.
-/

namespace Supermartingale

open List Scalar

/-! ## Equal powers -/

namespace Number

variable {x y : Number}

end Number

/-! ## Canonical monomials -/

namespace Monomial

/-- The power that a name has; the power of a missing name is zero. -/
def power : List (String × Number) → String → Number
  | [], _ => .int 0
  | (w, p) :: powers, v => if v = w then p else power powers v

/-- The names increase, no power is zero, and only the zero monomial has the coefficient zero. -/
structure IsCanonical (m : Monomial) : Prop where
  increasing : m.powers.Pairwise fun a b => a.1 < b.1
  nonzero : ∀ v ∈ m.powers, v.2.isZero = false
  bare : m.isZero → m = ⟨zero, []⟩

variable {powers more s t : List (String × Number)} {c d : Scalar} {v : String} {p : Number} {m n : Monomial}

theorem IsCanonical.distinct (h : m.IsCanonical) : (m.powers.map Prod.fst).Nodup :=
  pairwise_map.mpr (h.increasing.imp ne_of_lt)

end Monomial

/-! ## Sums -/

/-- The rational number that a coefficient is, zero if it is none. -/
def Scalar.rational (c : Scalar) : ℚ := c.value?.getD 0

namespace Monomial

variable {c d : Scalar} {powers s t : List (String × Number)} {m n : Monomial}

noncomputable def product (ρ : String → ℝ) (powers : List (String × Number)) : ℝ :=
  (powers.map fun w => ρ w.1 ^ ((w.2.value?.getD 0 : ℚ) : ℝ)).prod

end Monomial

end Supermartingale
