import Mathlib.Algebra.MvPolynomial.Supported
import Supermartingale.Proofs.Polynomial.Canonical
import Supermartingale.Proofs.Polynomial.Template

/-!
# Writing and reading a polynomial

A polynomial with rational coefficients is written down as a sum of monomials and read again. What is read has
the same value everywhere and is canonical, and writing it down once more changes nothing.
-/

namespace Supermartingale

open List Equation

open MvPolynomial

/-! ## The numbers and names of a polynomial -/

noncomputable def Equation.polynomial (e : Equation) : MvPolynomial String ℚ := e.eval X

/-- All numbers that a polynomial is written with are short enough. -/
def IsShort (P : MvPolynomial String ℚ) : Prop :=
  ∀ m ∈ P.support, (∀ s, isWritable (m s)) ∧ isWritable (P.coeff m).num.natAbs ∧ isWritable (P.coeff m).den

theorem isWritable_zero : isWritable 0 := by
  rw [isWritable_iff]
  exact Nat.pos_of_neZero _

namespace Expansion.Canonical

variable {s : Expansion} (h : s.Canonical) {t : PowerProduct × ℚ}
include h

theorem exponents_mem_support (mem : t ∈ s) : t.1.exponents ∈ (s.eval (X (R := ℚ))).support := by
  rw [mem_support_iff, h.coeff_eval_X mem]
  exact h.nonzero t mem

theorem mem_vars (mem : t ∈ s) {v : String × ℕ} (power : v ∈ t.1) : v.1 ∈ (s.eval (X (R := ℚ))).vars := by
  refine (mem_vars_iff_mem_support _).mpr ⟨_, h.exponents_mem_support mem, ?_⟩
  have exponent := (h.proper t mem).mem_iff.mp power
  rw [Finsupp.mem_support_iff, exponent.1]
  exact exponent.2

theorem isShort_iff : IsShort (s.eval X) ↔ s.isWritable := by
  unfold Expansion.isWritable
  rw [all_eq_true]
  constructor
  · intro short t mem
    obtain ⟨powers, top, bottom⟩ := short _ (h.exponents_mem_support mem)
    rw [h.coeff_eval_X mem] at top bottom
    simp only [Bool.and_eq_true, all_eq_true]
    refine ⟨fun v power => ?_, by simp [Symbolic.isWritable, top, bottom]⟩
    rw [← ((h.proper t mem).mem_iff.mp power).1]
    exact powers v.1
  · intro short m support
    by_cases found : ∃ t ∈ s, t.1.exponents = m
    · obtain ⟨t, mem, rfl⟩ := found
      have numbers := short t mem
      simp only [Bool.and_eq_true, all_eq_true, Symbolic.isWritable] at numbers
      rw [h.coeff_eval_X mem]
      refine ⟨fun v => ?_, numbers.2⟩
      by_cases zero : t.1.exponents v = 0
      · rw [zero]
        exact isWritable_zero
      · exact numbers.1 (v, t.1.exponents v) ((h.proper t mem).mem_iff.mpr ⟨rfl, zero⟩)
    · rw [mem_support_iff] at support
      exact absurd (coeff_eval_X_of_not_mem fun t mem same => found ⟨t, mem, same⟩) support

end Expansion.Canonical

theorem Equation.forall_mem_vars {e : Equation} {P : String → Prop}
    (named : ∀ m ∈ e.monomials, ∀ v ∈ m.powers, P v.1) : ∀ s ∈ e.polynomial.vars, P s := by
  have inside : e.polynomial ∈ supported ℚ {s | P s} := by
    refine Subalgebra.list_sum_mem _ fun x mem => ?_
    obtain ⟨m, listed, rfl⟩ := mem_map.mp mem
    refine Subalgebra.smul_mem _ (Subalgebra.list_prod_mem _ fun y power => ?_) _
    obtain ⟨v, factor, rfl⟩ := mem_map.mp power
    exact Subalgebra.pow_mem _ (X_mem_supported.mpr (named m listed v factor)) _
  exact fun s mem => mem_supported.mp inside mem

/-- No coefficient is zero, every product has its names in order and no zero power, and no two monomials
are like terms. -/
structure Equation.IsCanonical (e : Equation) : Prop where
  nonzero : ∀ m ∈ e.monomials, m.isZero = false
  proper : ∀ m ∈ e.monomials, ∃ p : PowerProduct, p.Proper ∧ m.powers = p.map fun v => (v.1, .int v.2)
  distinct : e.monomials.Pairwise fun m n => m.like n = false

theorem Monomial.eq_of_samePowers {p q : PowerProduct}
    (same : samePowers (p.map fun v => (v.1, .int v.2)) (q.map fun v => (v.1, .int v.2))) : p = q := by
  induction p generalizing q with
  | nil =>
    cases q with
    | nil => rfl
    | cons w q => simp [samePowers] at same
  | cons v p ih =>
    cases q with
    | nil => simp [samePowers] at same
    | cons w q =>
      simp only [map_cons, samePowers, Number.same, Bool.and_eq_true, beq_iff_eq, Nat.cast_inj] at same
      obtain ⟨⟨name, power⟩, rest⟩ := same
      rw [ih rest, Prod.ext name power]

namespace Equation

theorem isCanonical_ofExpansion {x : Expansion} (h : x.Canonical) : (ofExpansion x).IsCanonical := by
  have terms := monomials_ofExpansion h
  have members {m : Monomial} (mem : m ∈ (ofExpansion x).monomials) : ∃ t ∈ x, Monomial.ofTerm t = m :=
    mem_map.mp (terms.mem_iff.mp mem)
  refine ⟨fun m mem => ?_, fun m mem => ?_, ?_⟩
  · obtain ⟨t, inside, rfl⟩ := members mem
    simpa [Monomial.isZero, Monomial.ofTerm, Scalar.isZero, Scalar.value?] using h.nonzero t inside
  · obtain ⟨t, inside, rfl⟩ := members mem
    exact ⟨t.1, h.proper t inside, rfl⟩
  · -- being pairwise different does not depend on the order of the monomials
    have different : ((x.map Monomial.ofTerm).map (·.powers)).Nodup := by
      rw [map_map]
      refine pairwise_map.mpr (h.sorted.imp fun {t u} below same => ?_)
      have products : t.1 = u.1 := map_injective_iff.mpr
        (fun v w powers => by simpa [Prod.ext_iff] using powers) same
      rw [products, PowerProduct.order_self] at below
      cases below
    have distinct := pairwise_map.mp ((terms.map (·.powers)).nodup_iff.mpr different)
    refine distinct.imp_of_mem fun {m n} left right powers => ?_
    obtain ⟨t, -, rfl⟩ := members left
    obtain ⟨u, -, rfl⟩ := members right
    rw [Bool.eq_false_iff]
    exact fun like => powers (congrArg (List.map _) (Monomial.eq_of_samePowers like))

/-! ## Reading what is written -/

end Equation

/-- Reading a polynomial without decimals gives its canonical sum, if that can be written. -/
theorem Expression.ofText_eq {s : String} {e : Expression} (read : Expression.read s = some e)
    (polynomial : e.isPolynomial) (exact : e.isExact) : ∃ x : Expansion, x.Canonical ∧
      (∀ (R : Type) [CommRing R] [Algebra ℚ R] (ρ : String → R), x.eval ρ = e.eval ρ) ∧
      ofText s = if x.isWritable then .ok (ofExpansion x) else .error .numeralTooLong := by
  obtain ⟨x, expanded⟩ := exists_expansion polynomial exact
  refine ⟨x, (Expansion.expands_ofExpression? (fun _ => (0 : ℚ)) expanded).canonical,
    fun R _ _ ρ => (Expansion.expands_ofExpression? ρ expanded).value, ?_⟩
  unfold ofText
  rw [read, Option.bind_some, expanded]

namespace Equation

/-- A canonical sum that can be written is read back from the text of its polynomial. -/
theorem ofText_text_ofExpansion {x : Expansion} (h : x.Canonical) (writable : x.isWritable)
    (unknown : ∀ s ∈ (x.eval (X (R := ℚ))).vars, IsUnknown s) :
    ofText (ofExpansion x).text = .ok (ofExpansion x) := by
  have terms := monomials_ofExpansion h
  have numbers (t) (mem : t ∈ x) := all_eq_true.mp writable t mem
  simp only [Bool.and_eq_true, all_eq_true] at numbers
  have rational {m : Monomial} (mem : m ∈ (ofExpansion x).monomials) : m.coefficient.isRational := by
    obtain ⟨t, inside, rfl⟩ := mem_map.mp (terms.mem_iff.mp mem)
    exact (numbers t inside).2
  have written : (ofExpansion x).IsWritten := by
    intro m mem
    have coefficient := rational mem
    obtain ⟨t, inside, rfl⟩ := mem_map.mp (terms.mem_iff.mp mem)
    refine ⟨coefficient, fun v power => ?_⟩
    obtain ⟨w, listed, rfl⟩ := mem_map.mp power
    exact ⟨unknown _ (h.mem_vars inside listed), Powers.isExponent_of_isWritable ((numbers t inside).1 w listed)⟩
  obtain ⟨p, writes⟩ := exists_phrase written
  obtain ⟨y, canonical, value, read⟩ := Expression.ofText_eq p.read_text p.isPolynomial_tree
    (p.isExact_tree.trans (writes.exact (all_eq_true.mpr fun m mem => rational mem)))
  -- the text has the same polynomial, and that has one canonical sum
  have same : y = x := by
    refine canonical.eq_of_eval_X h ?_
    rw [value, ← p.evalPowers_eq_eval, writes.value, evalPowers_eq_eval, eval_ofExpansion _ h]
  rw [← writes.text, read, same, if_pos writable]

end Equation

/-- The names that polynomials are made of: numbered variables of the state, the actions and the
disturbance, numbered unknown constants, and the unknowns of a certificate. -/
inductive IsName : String → Prop where
  | indexed {letter : Char} (h : letter ∈ letters) (i : ℕ) : IsName (variableOf letter i)
  | constant {stem : String} {c : Char} {cs : List Char} (chars : stem.toList = c :: cs)
      (starts : Token.startsName c) (continues : ∀ d ∈ cs, Token.continuesName d) (i : ℕ) :
      IsName (stem ++ "_" ++ toString i)
  | parameter {s : String} (h : s ∈ CertificateVariables.constants) : IsName s

theorem IsName.isUnknown {s : String} (h : IsName s) : IsUnknown s := by
  cases h with
  | indexed letter i => exact isUnknown_variableOf letter i
  | constant chars starts continues i => exact isUnknown_constant chars starts continues i
  | parameter h => exact isUnknown_parameter h

theorem Scalar.isNumeral_of_isRational {c : Scalar} (h : c.isRational) : c.isNumeral := by
  cases c with
  | approx a => rfl
  | given _ | exact _ | symbolic _ => exact h

/-- The coefficients are integers or rationals and the powers natural numbers, all of them short enough to
be written. Names may repeat, also within one monomial, and powers may be zero. -/
structure Equation.IsRationalPolynomial (e : Equation) : Prop where
  coefficients : ∀ m ∈ e.monomials, m.coefficient.isRational
  powers : ∀ m ∈ e.monomials, ∀ v ∈ m.powers, IsName v.1 ∧ v.2.isExponent

namespace Equation.IsRationalPolynomial

variable {e : Equation} (h : e.IsRationalPolynomial)
include h

theorem isWritten : e.IsWritten := fun m mem =>
  ⟨Scalar.isNumeral_of_isRational (h.coefficients m mem), fun v power =>
    ⟨(h.powers m mem v power).1.isUnknown, (h.powers m mem v power).2⟩⟩

theorem ofText_text : ∃ x : Expansion, x.Canonical ∧
    (∀ (R : Type) [CommRing R] [Algebra ℚ R] (ρ : String → R), x.eval ρ = e.eval ρ) ∧
    ofText e.text = if x.isWritable then .ok (ofExpansion x) else .error .numeralTooLong := by
  obtain ⟨p, writes⟩ := exists_phrase h.isWritten
  obtain ⟨x, canonical, value, read⟩ := Expression.ofText_eq p.read_text p.isPolynomial_tree
    (p.isExact_tree.trans (writes.exact (all_eq_true.mpr fun m mem => h.coefficients m mem)))
  refine ⟨x, canonical, fun R _ _ ρ => ?_, writes.text ▸ read⟩
  rw [value, ← p.evalPowers_eq_eval, writes.value, evalPowers_eq_eval]

theorem isShort_of_isOk (read : (ofText e.text).isOk) : IsShort e.polynomial := by
  obtain ⟨x, canonical, value, spec⟩ := h.ofText_text
  rw [polynomial, ← value, canonical.isShort_iff]
  by_contra long
  rw [spec, if_neg long] at read
  cases read

end Equation.IsRationalPolynomial

/-- Reading what is written for a polynomial gives a canonical polynomial of the same value, which is read
back exactly as it is, unless a number of the polynomial is too long. -/
theorem Equation.reading_inverts_writing {e : Equation} (h : e.IsRationalPolynomial) :
    (IsShort e.polynomial → ∃ f, ofText e.text = .ok f ∧ (∀ ρ : String → ℝ, f.eval ρ = e.eval ρ) ∧
      f.IsCanonical ∧ ofText f.text = .ok f) ∧
    (¬ IsShort e.polynomial → ofText e.text = .error .numeralTooLong) := by
  obtain ⟨x, canonical, value, read⟩ := h.ofText_text
  have polynomial : x.eval X = e.polynomial := value _ X
  rw [read, ← polynomial, canonical.isShort_iff]
  constructor
  · intro writable
    rw [if_pos writable]
    refine ⟨_, rfl, fun ρ => ?_, isCanonical_ofExpansion canonical,
      ofText_text_ofExpansion canonical writable fun s inside => ?_⟩
    · rw [eval_ofExpansion ρ canonical, value]
    · rw [polynomial] at inside
      exact forall_mem_vars (fun m member v power => (h.powers m member v power).1.isUnknown) s inside
  · exact fun long => if_neg long

/-- A polynomial whose monomials are neither in order nor collected: one product comes twice, another one
cancels. -/
def scattered : Equation := ⟨[⟨.exact (1 / 2), [("S10", .int 2), ("S2", .int 1)]⟩,
  ⟨.given (.int 3), [("S2", .int 1), ("V_safe_0_1", .int 1)]⟩, ⟨.exact (-5 / 7), [("D1", .int 4)]⟩,
  ⟨.given (.int 2), [("S10", .int 2), ("S2", .int 1)]⟩, ⟨.exact (5 / 7), [("D1", .int 4)]⟩]⟩

theorem isRationalPolynomial_scattered : scattered.IsRationalPolynomial where
  coefficients := by decide +kernel
  powers := by
    have named : ∀ m ∈ scattered.monomials, ∀ v ∈ m.powers,
        v.1 ∈ ["S10", "S2", "V_safe_0_1", "D1"] ∧ v.2.isExponent := by decide +kernel
    have names : ∀ s ∈ ["S10", "S2", "V_safe_0_1", "D1"], IsName s := by
      have state : 'S' ∈ letters := by decide
      have chars : "V_safe_0".toList = 'V' :: "_safe_0".toList := by decide
      have constant := IsName.constant chars (by decide +kernel) (by decide +kernel) 1
      simpa using ⟨IsName.indexed state 10, IsName.indexed state 2, constant,
        IsName.indexed (by decide : 'D' ∈ letters) 1⟩
    exact fun m mem v power => ⟨names _ (named m mem v power).1, (named m mem v power).2⟩

theorem scattered_reading_inverts_writing : scattered.IsRationalPolynomial ∧ IsShort scattered.polynomial ∧
      ∃ f, ofText scattered.text = .ok f ∧ (∀ ρ : String → ℝ, f.eval ρ = scattered.eval ρ) ∧
        f.IsCanonical ∧ ofText f.text = .ok f := by
  have h := isRationalPolynomial_scattered
  have short := h.isShort_of_isOk (by decide +kernel)
  exact ⟨h, short, (reading_inverts_writing h).1 short⟩

/-- Twice the largest number that can be written. -/
def doubled : Equation :=
  ⟨[⟨.given (.int (10 ^ digitLimit - 1)), [("S1", .int 1)]⟩, ⟨.given (.int (10 ^ digitLimit - 1)), [("S1", .int 1)]⟩]⟩

theorem doubled_not_read : doubled.IsRationalPolynomial ∧ ¬ ∃ f, ofText doubled.text = .ok f := by
  -- the digits of the bound are never looked at
  obtain ⟨bound, eq⟩ : ∃ bound : ℕ, 10 ^ digitLimit = bound := ⟨_, rfl⟩
  have cast : (10 ^ digitLimit - 1 : ℤ) = bound - 1 := by rw [← eq, Nat.cast_pow, Nat.cast_ofNat]
  have large : 2 ≤ bound := by
    rw [← eq]
    calc 2 ≤ 10 ^ 1 := by norm_num
      _ ≤ 10 ^ digitLimit := Nat.pow_le_pow_right (by norm_num) (by decide)
  have rational : doubled.IsRationalPolynomial := by
    have coefficient : (Scalar.given (.int (10 ^ digitLimit - 1))).isRational := by
      rw [cast, Scalar.isRational, isWritable_iff, eq]
      omega
    refine ⟨by simpa [doubled] using coefficient, ?_⟩
    have name : IsName "S1" := .indexed (by decide : 'S' ∈ letters) 1
    simpa [doubled] using ⟨name, isExponent_one⟩
  refine ⟨rational, ?_⟩
  rintro ⟨f, read⟩
  have short := rational.isShort_of_isOk (by rw [read]; rfl)
  have coefficient : coeff (Finsupp.single "S1" 1) doubled.polynomial = ((2 * (bound - 1) : ℤ) : ℚ) := by
    simp [Equation.polynomial, Equation.eval, Monomial.eval, Monomial.powersValue, doubled,
      Scalar.written, Number.exponent, cast]
    ring
  have nonzero : Finsupp.single "S1" 1 ∈ doubled.polynomial.support := by
    rw [mem_support_iff, coefficient, Int.cast_ne_zero]
    omega
  have fits := (short _ nonzero).2.1
  rw [coefficient, Rat.num_intCast, isWritable_iff, eq] at fits
  omega

end Supermartingale
