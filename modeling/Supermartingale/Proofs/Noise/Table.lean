import Mathlib.Algebra.Polynomial.Roots
import Mathlib.MeasureTheory.Integral.IntervalIntegral.Basic
import Mathlib.Probability.Distributions.Gaussian.Real
import Supermartingale.Model
import Supermartingale.Proofs.Except
import Supermartingale.Proofs.Noise.Filling
import Supermartingale.Proofs.Polynomial.Variable

/-!
# Tables of expectations

With one disturbance variable the table has three keys. Uniform noise looks for the variable first, so its powers
become powers of the mean. Normal noise looks for the first two powers before: only the second one becomes its moment,
and of the tenth power the last digit is left behind the mean.
-/

namespace Supermartingale

open Text Supermartingale.Distribution

/-! ## Laws

A disturbance variable is normal or uniform. Its moments are integrals over its law, and so is the number
that a polynomial gets when every power is replaced by its moment. Unless the law is a single point, only
constant polynomials have the square of their expectation as the expectation of their square. -/

open MeasureTheory ProbabilityTheory Polynomial

/-- The law of a disturbance variable: normal with a mean and a deviation, or uniform between two
bounds. -/
inductive Law where
  | normal (mean deviation : ℚ)
  | uniform (lower upper : ℚ) (order : lower < upper)

namespace Law

noncomputable def measure : Law → Measure ℝ
  | normal mean deviation => gaussianReal mean ((deviation : ℝ) ^ 2).toNNReal
  | uniform lower upper _ => ProbabilityTheory.cond volume (Set.Icc (lower : ℝ) upper)

def IsPoint : Law → Prop
  | normal _ deviation => deviation = 0
  | uniform _ _ _ => False

variable (law : Law)

theorem volume_ne_zero {lower upper : ℚ} (order : lower < upper) : volume (Set.Icc (lower : ℝ) upper) ≠ 0 := by
  have : (lower : ℝ) < upper := by exact_mod_cast order
  simpa [Real.volume_Icc] using this

instance : IsProbabilityMeasure law.measure := by
  cases law with
  | normal mean deviation => exact instIsProbabilityMeasureGaussianReal _ _
  | uniform lower upper order =>
    exact cond_isProbabilityMeasure_of_finite (volume_ne_zero order) (by simp [Real.volume_Icc])

theorem integrable_pow (k : ℕ) : Integrable (fun x : ℝ => x ^ k) law.measure := by
  cases law with
  | normal mean deviation =>
    have exponential (t : ℝ) :
        Integrable (fun x => Real.exp (t * x)) (normal mean deviation).measure :=
      integrable_exp_mul_gaussianReal t
    exact integrable_pow_of_integrable_exp_mul one_ne_zero (exponential 1) (exponential (-1)) k
  | uniform lower upper order =>
    have bounded : IntegrableOn (fun x : ℝ => x ^ k) (Set.Icc (lower : ℝ) upper) :=
      (continuous_pow k).continuousOn.integrableOn_Icc
    exact bounded.smul_measure (ENNReal.inv_ne_top.mpr (volume_ne_zero order))

theorem measure_singleton (spread : ¬ law.IsPoint) (x : ℝ) : law.measure {x} = 0 := by
  cases law with
  | normal mean deviation =>
    have positive : ((deviation : ℝ) ^ 2).toNNReal ≠ 0 := by
      simpa [IsPoint, Real.toNNReal_eq_zero] using spread
    exact gaussianReal_absolutelyContinuous mean positive (by simp)
  | uniform lower upper order => exact cond_absolutelyContinuous (by simp)

noncomputable def moment (k : ℕ) : ℝ := ∫ x, x ^ k ∂law.measure

theorem moment_zero : law.moment 0 = 1 := by simp [moment]

theorem moment_one_uniform (lower upper : ℚ) (order : lower < upper) :
    (uniform lower upper order).moment 1 = (lower + upper) / 2 := by
  have below : (lower : ℝ) < upper := by exact_mod_cast order
  have integral : ∫ x in Set.Icc (lower : ℝ) upper, x = ((upper : ℝ) ^ 2 - lower ^ 2) / 2 := by
    rw [integral_Icc_eq_integral_Ioc, ← intervalIntegral.integral_of_le below.le, integral_id]
  have length : (volume (Set.Icc (lower : ℝ) upper)).toReal = upper - lower := by
    rw [Real.volume_Icc, ENNReal.toReal_ofReal (by linarith)]
  simp only [moment, measure, ProbabilityTheory.cond, pow_one]
  rw [integral_smul_measure, integral, ENNReal.toReal_inv, length, smul_eq_mul]
  have nonzero : (upper : ℝ) - lower ≠ 0 := by linarith
  field_simp
  ring

/-! ## Polynomials -/

/-- The number that a polynomial becomes when numbers are put in for the powers of its variable. -/
noncomputable def weigh (weight : ℕ → ℝ) (p : ℝ[X]) : ℝ := p.sum fun k c => c * weight k

section

variable (weight : ℕ → ℝ)
include weight

theorem weigh_add (p q : ℝ[X]) : weigh weight (p + q) = weigh weight p + weigh weight q :=
  sum_add_index p q _ (fun _ => zero_mul _) fun _ a b => add_mul a b _

theorem weigh_C_mul_X_pow (c : ℝ) (k : ℕ) : weigh weight (C c * X ^ k) = c * weight k := by
  rw [weigh, C_mul_X_pow_eq_monomial, sum_monomial_index c _ (zero_mul _)]

theorem weigh_C (c : ℝ) : weigh weight (C c) = c * weight 0 := by
  simpa using weigh_C_mul_X_pow weight c 0

theorem weigh_C_mul (c : ℝ) (p : ℝ[X]) : weigh weight (C c * p) = c * weigh weight p := by
  rw [weigh, weigh, ← smul_eq_C_mul, sum_smul_index _ _ _ (fun k => zero_mul _)]
  simp [Polynomial.sum, Finset.mul_sum, mul_assoc]

theorem weigh_sum (ps : List ℝ[X]) : weigh weight ps.sum = (ps.map (weigh weight)).sum := by
  induction ps with
  | nil => simp [weigh]
  | cons p ps ih => rw [List.sum_cons, weigh_add, ih, List.map_cons, List.sum_cons]

theorem weigh_finset_sum {ι : Type} (s : Finset ι) (p : ι → ℝ[X]) :
    weigh weight (∑ i ∈ s, p i) = ∑ i ∈ s, weigh weight (p i) := by
  classical
  induction s using Finset.induction with
  | empty => simp [weigh]
  | insert i s absent ih => rw [Finset.sum_insert absent, Finset.sum_insert absent, weigh_add, ih]

end

theorem weigh_moment (p : ℝ[X]) : weigh law.moment p = ∫ x, p.eval x ∂law.measure := by
  simp only [weigh, eval_eq_sum, Polynomial.sum, moment]
  rw [integral_finsetSum _ fun k _ => (law.integrable_pow k).const_mul _]
  simp only [integral_const_mul]

theorem weigh_moment_point {mean deviation : ℚ} (point : deviation = 0) (p : ℝ[X]) :
    weigh (normal mean deviation).moment p = p.eval (mean : ℝ) := by
  rw [weigh_moment]
  simp [measure, point]

theorem natDegree_eq_zero_of_variance (spread : ¬ law.IsPoint) {p : ℝ[X]}
    (square : weigh law.moment (p ^ 2) = weigh law.moment p ^ 2) : p.natDegree = 0 := by
  set c := weigh law.moment p with expectation
  -- the distance from the expectation is zero almost surely, but a polynomial has finitely many roots
  have expand : (p - C c) ^ 2 = p ^ 2 + (C (-2 * c) * p + C (c ^ 2)) := by
    simp only [C_mul, C_pow, C_neg]
    rw [show (C (2 : ℝ)) = 2 from rfl]
    ring
  have zero : ∫ x, ((p - C c) ^ 2).eval x ∂law.measure = 0 := by
    rw [← weigh_moment, expand, weigh_add, weigh_add, weigh_C_mul, weigh_C, square, ← expectation, moment_zero]
    ring
  by_contra degree
  have nonzero : (p - C c) ^ 2 ≠ 0 := by
    intro same
    rw [sub_eq_zero.mp (pow_eq_zero_iff two_ne_zero |>.mp same), natDegree_C] at degree
    exact degree rfl
  have almost : (fun x => ((p - C c) ^ 2).eval x) =ᵐ[law.measure] 0 := by
    refine (integral_eq_zero_iff_of_nonneg (fun x => ?_) ?_).mp zero
    · rw [eval_pow]
      exact sq_nonneg _
    · simp only [eval_eq_sum, Polynomial.sum]
      exact integrable_finsetSum _ fun k _ => (law.integrable_pow k).const_mul _
  have roots : law.measure {x | ((p - C c) ^ 2).eval x = 0} = 0 := by
    have finite : {x | ((p - C c) ^ 2).eval x = 0}.Finite :=
      ((p - C c) ^ 2).roots.toFinset.finite_toSet.subset fun x root =>
        Multiset.mem_toFinset.mpr ((mem_roots nonzero).mpr root)
    rw [← Set.biUnion_of_singleton {x | ((p - C c) ^ 2).eval x = 0}]
    exact (measure_biUnion_null_iff finite.countable).mpr fun x _ => law.measure_singleton spread x
  have others : law.measure {x | ((p - C c) ^ 2).eval x = 0}ᶜ = 0 := almost
  have whole : law.measure Set.univ = 0 := by
    rw [← Set.union_compl_self {x | ((p - C c) ^ 2).eval x = 0}]
    exact measure_union_null roots others
  rw [measure_univ] at whole
  exact one_ne_zero whole

theorem weigh_moment_one : weigh law.moment 1 = 1 := by
  rw [← C_1, weigh_C, moment_zero, one_mul]

/-- The powers of a number are the expectations of the powers of a polynomial, up to a degree, exactly if
the number is the expectation of the polynomial and, above degree one, the polynomial does not vary. -/
theorem forall_pow_eq_iff {d : ℕ} (positive : 1 ≤ d) (y : ℝ) (p : ℝ[X]) :
    (∀ k ≤ d, y ^ k = weigh law.moment (p ^ k)) ↔
      y = weigh law.moment p ∧ (d = 1 ∨ law.IsPoint ∨ p.natDegree = 0) := by
  constructor
  · intro powers
    have first : y = weigh law.moment p := by simpa using powers 1 positive
    refine ⟨first, ?_⟩
    by_cases linear : d = 1
    · exact .inl linear
    · by_cases point : law.IsPoint
      · exact .inr (.inl point)
      · refine .inr (.inr (law.natDegree_eq_zero_of_variance point ?_))
        rw [← first]
        exact (powers 2 (by omega)).symm
  · rintro ⟨rfl, cases⟩ k bound
    rcases cases with rfl | point | degree
    · interval_cases k
      · rw [pow_zero, pow_zero, weigh_moment_one]
      · rw [pow_one, pow_one]
    · cases law with
      | normal mean deviation => rw [weigh_moment_point point, weigh_moment_point point, eval_pow]
      | uniform lower upper order => cases point
    · rw [eq_C_of_natDegree_eq_zero degree, ← C_pow, weigh_C, weigh_C, moment_zero, mul_one, mul_one]

end Law

/-! ## Numerals with a sign -/

structure SignedNumeral where
  negative : Bool
  atom : Phrase .atom
  closed : atom.names = []
  nonneg : 0 ≤ atom.tree.number

namespace SignedNumeral

variable (n : SignedNumeral)

def signed (p : Phrase .power) : Phrase .factor := if n.negative then .neg (.unsigned p) else .unsigned p

def chars : List Char := (n.signed (.lone n.atom)).chars

def value : ℚ := if n.negative then -n.atom.tree.number else n.atom.tree.number

def power (k : ℕ) : ℚ := if n.negative then -n.atom.tree.number ^ k else n.atom.tree.number ^ k

theorem names_signed {p : Phrase .power} (closed : p.names = []) : (n.signed p).names = [] := by
  rw [signed]
  split
  · exact closed
  · exact closed

theorem number_lone : (n.signed (.lone n.atom)).tree.number = n.value := by
  rw [signed, value]
  split <;> rfl

theorem chars_pow {ds : List Char} (h : SpellsWhole ds) :
    (n.signed (.pow n.atom ds h)).chars = n.chars ++ '*' :: '*' :: ds := by
  simp only [chars, signed]
  split <;> rfl

theorem number_pow {ds : List Char} (h : SpellsWhole ds) :
    (n.signed (.pow n.atom ds h)).tree.number = n.power (digitsValue ds) := by
  rw [signed, power]
  split
  · simp [Phrase.tree, Expression.number]
  · simp [Phrase.tree, Expression.number]

theorem power_one : n.power 1 = n.value := by
  rw [power, value, pow_one]

theorem power_eq {k : ℕ} (positive : k ≠ 0) :
    n.power k = if n.value < 0 then -(-n.value) ^ k else n.value ^ k := by
  have nonneg := n.nonneg
  rw [power, value]
  cases n.negative with
  | false => simp [not_lt.mpr nonneg]
  | true =>
    rcases nonneg.eq_or_lt with zero | positive'
    · simp [← zero, positive]
    · simp [positive']

end SignedNumeral

/-! ## Tables that look for the variable first -/

theorem isKey_disturbance : IsKey "D1" := isKey_variableOf (by decide : 'D' ∈ letters) 1

/-- A table that looks for the variable first puts powers of its number in for all powers. -/
theorem filling_first (mean : SignedNumeral) {others : List (List Char × List Char)}
    (searched : Searched "D1" ((['D', '1'], mean.chars) :: others)) :
    Filling "D1" ((['D', '1'], mean.chars) :: others) mean.power (fun _ => True) where
  toSearched := searched
  first := by
    refine ⟨mean.signed (.lone mean.atom), mean.names_signed mean.closed, ?_, fun rest _ _ => ?_⟩
    · rw [mean.number_lone, mean.power_one]
    · exact replaceFirstFrom_key searched.starts ['D', '1'] mean.chars rest rfl
  power := by
    intro ds h _
    refine ⟨mean.signed (.pow mean.atom ds h), mean.names_signed mean.closed, mean.number_pow h, fun rest _ => ?_⟩
    have found := replaceFirstFrom_key searched.starts ['D', '1'] mean.chars
      ('*' :: '*' :: (ds ++ rest)) rfl
    rw [searched.kept_exponent h] at found
    rw [mean.chars_pow h, List.append_assoc]
    exact found

theorem filling_single (value : SignedNumeral) :
    Filling "D1" [(['D', '1'], value.chars)] value.power (fun _ => True) :=
  filling_first value ⟨isKey_disturbance, by decide, by simp⟩

def uniformTable (mean second : List Char) : List (List Char × List Char) :=
  [(['D', '1'], mean), (['D', '1', '*', '*', '1'], mean), (['D', '1', '*', '*', '2'], second)]

theorem filling_uniform (mean : SignedNumeral) (second : List Char) :
    Filling "D1" (uniformTable mean.chars second) mean.power (fun _ => True) :=
  filling_first mean ⟨isKey_disturbance, by decide, by simp⟩

/-! ## Normal noise -/

def normalTable (mean second : List Char) : List (List Char × List Char) :=
  [(['D', '1', '*', '*', '1'], mean), (['D', '1', '*', '*', '2'], second), (['D', '1'], mean)]

theorem searched_normal (mean second : List Char) : Searched "D1" (normalTable mean second) where
  key := isKey_disturbance
  starts := ⟨by decide, by simp [normalTable]⟩

def normalWeight (mean second tenth : SignedNumeral) (k : ℕ) : ℚ :=
  if k = 2 then second.value else if k = 10 then tenth.value else mean.power k

theorem firstKey?_normal {mean second rest : List Char} (exponent : ¬ ['*', '*'] <+: rest) :
    firstKey? (normalTable mean second) false ('D' :: '1' :: rest) = some (['D', '1'], mean) := by
  have absent (d : Char) : (dropLeading? ['*', '*', d] rest).isSome = false := by
    rw [← Bool.not_eq_true, dropLeading?_isSome]
    exact fun start => exponent ((List.prefix_append ['*', '*'] [d]).trans start)
  have one := absent '1'
  have two := absent '2'
  simp [firstKey?, normalTable, dropLeading?, one, two]

theorem filling_normal_power (mean : SignedNumeral) {second ds : List Char} (h : SpellsWhole ds)
    (found : ∀ rest, firstKey? (normalTable mean.chars second) false
      ('D' :: '1' :: '*' :: '*' :: (ds ++ rest)) = some (['D', '1'], mean.chars)) (rest : List Char) :
    replaceFirstFrom (normalTable mean.chars second) 0
        ('D' :: '1' :: '*' :: '*' :: (ds ++ rest)) =
      (mean.signed (.pow mean.atom ds h)).chars ++
        replaceFirstFrom (normalTable mean.chars second) 0 rest := by
  have replaced := replaceFirstFrom_key (searched_normal mean.chars second).starts ['D', '1']
    mean.chars ('*' :: '*' :: (ds ++ rest)) (found rest)
  rw [(searched_normal mean.chars second).kept_exponent h] at replaced
  rw [mean.chars_pow h, List.append_assoc]
  exact replaced

theorem filling_normal (mean second tenth : SignedNumeral) (joined : tenth.chars = mean.chars ++ ['0']) :
    Filling "D1" (normalTable mean.chars second.chars) (normalWeight mean second tenth)
      (fun ds => ∃ k, 2 ≤ k ∧ k ≤ 10 ∧ ds = Nat.toDigits 10 k) where
  toSearched := searched_normal mean.chars second.chars
  first := by
    refine ⟨mean.signed (.lone mean.atom), mean.names_signed mean.closed, ?_, fun rest _ exponent => ?_⟩
    · rw [mean.number_lone]
      exact mean.power_one.symm
    · exact replaceFirstFrom_key (searched_normal _ _).starts ['D', '1'] mean.chars rest
        (firstKey?_normal exponent)
  power := by
    rintro ds h ⟨k, least, most, rfl⟩
    have starts := (searched_normal mean.chars second.chars).starts
    rw [digitsValue_toDigits]
    rcases least.eq_or_lt with rfl | least
    · refine ⟨second.signed (.lone second.atom), second.names_signed second.closed, second.number_lone,
        fun rest _ => ?_⟩
      exact replaceFirstFrom_key starts ['D', '1', '*', '*', '2'] second.chars rest rfl
    rcases most.eq_or_lt with rfl | most
    · refine ⟨tenth.signed (.lone tenth.atom), tenth.names_signed tenth.closed, tenth.number_lone,
        fun rest _ => ?_⟩
      have found := replaceFirstFrom_key starts ['D', '1', '*', '*', '1'] mean.chars ('0' :: rest) rfl
      have digit := (searched_normal mean.chars second.chars).kept ['0'] (by decide) rest
      rw [List.singleton_append] at digit
      rw [digit] at found
      rw [← SignedNumeral.chars, joined, List.append_assoc]
      exact found
    · refine ⟨mean.signed (.pow mean.atom _ h), mean.names_signed mean.closed, ?_, fun rest _ => ?_⟩
      · rw [mean.number_pow h, digitsValue_toDigits, normalWeight, if_neg (by omega), if_neg (by omega)]
      · refine filling_normal_power mean h (fun rest => ?_) rest
        interval_cases k <;> rfl

/-! ## The tables of noise -/

/-- A text is a numeral with or without a sign, and spells a number. -/
def Spells (s : String) (q : ℚ) : Prop := ∃ n : SignedNumeral, n.chars = s.toList ∧ n.value = q

theorem Spells.of_whole {ds : List Char} (h : SpellsWhole ds) : Spells (String.ofList ds) (digitsValue ds) := by
  refine ⟨⟨false, .whole ds h, rfl, Nat.cast_nonneg _⟩, String.toList_ofList.symm, rfl⟩

theorem Spells.of_decimal {w f : List Char} (integral : ∀ c ∈ w, c.isDigit) (nonempty : w ≠ [])
    (fraction : ∀ c ∈ f, c.isDigit) (nonneg : 0 ≤ (Numeral.make w f 0 true).value) :
    Spells (String.ofList (w ++ '.' :: f)) (Numeral.make w f 0 true).value := by
  have decimal := spellsDecimal integral nonempty fraction .absent
  rw [List.append_nil] at decimal
  exact ⟨⟨false, .decimal _ _ decimal, rfl, nonneg⟩, String.toList_ofList.symm, rfl⟩

def signedPower (q : ℚ) (k : ℕ) : ℚ := if q < 0 then -(-q) ^ k else q ^ k

/-- The numbers that are put in for the powers of a disturbance variable; `tenth` is what the mean spells
with a zero behind it. -/
def Law.weight (tenth : ℚ) : Law → ℕ → ℚ
  | _, 0 => 1
  | .normal mean deviation, k =>
    if k = 2 then mean ^ 2 + deviation ^ 2 else if k = 10 then tenth else signedPower mean k
  | .uniform lower upper _, k => signedPower ((lower + upper) / 2) k

/-- Noise with one disturbance variable that has a law. The parameters spell those of the law, and the
moments that are computed from them are exact. -/
inductive Noise.Exact : Noise → Law → ℚ → Prop where
  | normal {dimension mean deviation m s square : Value} {μ σ tenth : ℚ}
    (one : dimension.count = .ok 1) (location : mean.entry 0 = .ok m) (scale : deviation.entry 0 = .ok s)
    (computed : normalMomentOf m s 2 = .ok square)
    (first : Spells m.toText μ) (spread : Spells s.toText σ)
    (second : Spells square.toText (μ ^ 2 + σ ^ 2)) (longer : Spells (m.toText ++ "0") tenth) :
    Exact ⟨dimension, .normal mean deviation⟩ (.normal μ σ) tenth
  | uniform {dimension lower upper a b : Value} {x y mean square : Number} {α β tenth : ℚ}
    {order : α < β} (one : dimension.count = .ok 1) (least : lower.entry 0 = .ok a)
    (greatest : upper.entry 0 = .ok b) (left : a.toNumber = .ok x) (right : b.toNumber = .ok y)
    (average : uniformMean x y = .ok mean)
    (computed : uniformSquare x y = .ok square)
    (lowest : Spells a.toText α) (highest : Spells b.toText β)
    (first : Spells mean.text ((α + β) / 2)) :
    Exact ⟨dimension, .uniform lower upper⟩ (.uniform α β order) tenth

namespace Noise

theorem variableName_zero : variableName 0 = "D1" := rfl

theorem expectations_normal {dimension mean deviation m s square : Value}
    (one : dimension.count = .ok 1) (location : mean.entry 0 = .ok m) (scale : deviation.entry 0 = .ok s)
    (computed : normalMomentOf m s 2 = .ok square) :
    expectations ⟨dimension, .normal mean deviation⟩ usualOrder =
      .ok [("D1**1", m.toText), ("D1**2", square.toText), ("D1", m.toText)] := by
  have row : normalRow 2 mean deviation 0 = .ok [m.toText, square.toText] := by
    have first : normalMomentOf m s 1 = .ok m := rfl
    simp [normalRow, List.range_succ, location, scale, first, computed, bind, Except.bind, pure, Except.pure]
  have powers : "D1**" ++ Nat.repr 1 = "D1**1" ∧ "D1**" ++ Nat.repr 2 = "D1**2" := by decide
  simp [expectations, usualOrder, one, List.range_succ, row, bind, Except.bind, pure, Except.pure,
    variableName_zero, powers]

theorem expectations_uniform {dimension lower upper a b : Value} {x y mean square : Number}
    (one : dimension.count = .ok 1) (least : lower.entry 0 = .ok a)
    (greatest : upper.entry 0 = .ok b) (left : a.toNumber = .ok x) (right : b.toNumber = .ok y)
    (average : uniformMean x y = .ok mean) (computed : uniformSquare x y = .ok square) :
    expectations ⟨dimension, .uniform lower upper⟩ usualOrder =
      .ok [("D1", mean.text), ("D1**1", mean.text), ("D1**2", square.text)] := by
  have row : uniformRow 2 lower upper 0 =
      .ok [("D1", mean.text), ("D1**1", mean.text), ("D1**2", square.text)] := by
    simp [uniformRow, least, greatest, left, right, average, computed, bind, Except.bind, pure,
      Except.pure, liftFault, variableName_zero]
  simp [expectations, usualOrder, one, List.range_succ, row, bind, Except.bind, pure, Except.pure]

/-- The table of exact noise puts in the numbers of its law for the powers up to the tenth. -/
theorem Exact.filling {noise : Noise} {law : Law} {tenth : ℚ} (h : noise.Exact law tenth) :
    ∃ table, noise.expectations usualOrder = .ok table ∧ table ≠ [] ∧
      Filling "D1" (table.map fun (k, v) => (k.toList, v.toList)) (law.weight tenth)
        (fun ds => ∃ k, 2 ≤ k ∧ k ≤ 10 ∧ ds = Nat.toDigits 10 k) := by
  cases h with
  | normal one location scale computed first spread second longer =>
    refine ⟨_, expectations_normal one location scale computed, List.cons_ne_nil _ _, ?_⟩
    obtain ⟨mean, meanText, rfl⟩ := first
    obtain ⟨square, squareText, squareValue⟩ := second
    obtain ⟨last, lastText, rfl⟩ := longer
    have joined : last.chars = mean.chars ++ ['0'] := by
      rw [lastText, meanText, String.toList_append]
      rfl
    have table := filling_normal mean square last joined
    rw [meanText, squareText] at table
    refine table.congr ?_ ?_
    · simp [normalWeight, Law.weight, mean.power_eq, signedPower]
    · rintro ds ⟨k, least, most, rfl⟩
      refine ⟨⟨k, least, most, rfl⟩, ?_⟩
      rw [digitsValue_toDigits, normalWeight, Law.weight, squareValue, mean.power_eq (by omega : k ≠ 0), signedPower]
      omega
  | uniform one least greatest left right average computed lowest highest first =>
    refine ⟨_, expectations_uniform one least greatest left right average computed, List.cons_ne_nil _ _, ?_⟩
    obtain ⟨mean, meanText, meanValue⟩ := first
    have table := filling_uniform mean
    rw [meanText] at table
    refine (table _).congr ?_ ?_
    · rw [mean.power_eq one_ne_zero, meanValue, Law.weight, signedPower]
      exact one_ne_zero
    · rintro ds ⟨k, least, most, rfl⟩
      have positive : k ≠ 0 := by omega
      rw [digitsValue_toDigits, mean.power_eq positive, meanValue, Law.weight, signedPower]
      · exact ⟨trivial, rfl⟩
      · exact positive

end Noise

end Supermartingale
