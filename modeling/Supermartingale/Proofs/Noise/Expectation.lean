import Supermartingale.Proofs.Dynamics.Loop
import Supermartingale.Proofs.Noise.Table

/-!
# The expectation of a template at the next state

What is taken for the expectation of a template at the next state is the template at a single number. The template is
the general polynomial of its degree, so this is its expectation exactly if the number is the expectation of the
transform and, above degree one, the transform does not vary with the disturbance.
-/

namespace Supermartingale

open Equation Finset Law Polynomial

/-- A text in which the powers of the disturbance have been replaced denotes a polynomial. -/
def Noise.Expects (noise : Noise) (s : String) (value : (String → ℝ) → ℝ) : Prop :=
  ∃ table filled, noise.expectations usualOrder = .ok table ∧
    Text.replaceFirst table s = .ok filled ∧ Denotes filled value

theorem Noise.Exact.expects_iff {noise : Noise} {law : Law} {tenth : ℚ} (exact : noise.Exact law tenth)
    (p : Phrase .sum) (names : ∀ s ∈ p.names, Disturbs 1 s)
    (powers : p.AllPowers fun s ds => s = "D1" → ∃ k, 2 ≤ k ∧ k ≤ 10 ∧ ds = Nat.toDigits 10 k)
    {value : (String → ℝ) → ℝ} :
    noise.Expects p.text value ↔
      ∀ ρ, p.evalPowers (weighted "D1" (law.weight tenth) ρ) = value ρ := by
  obtain ⟨table, moments, nonempty, filling⟩ := exact.filling
  obtain ⟨q, replaced, filled⟩ := filling.exists_replaced nonempty p (fun s mem => (names s mem).apart) powers
  constructor
  · rintro ⟨table', text, moments', replaced', denotes⟩ ρ
    cases moments.symm.trans moments'
    cases replaced.symm.trans replaced'
    rw [← filled, denotes.eq_eval]
  · intro same
    exact ⟨table, _, moments, replaced, q.denotes fun ρ => (filled ρ).trans (same ρ)⟩

/-! ## The transform as a polynomial in the disturbance -/

/-- The powers of names where the disturbance is an indeterminate. -/
noncomputable def indeterminate (ρ : String → ℝ) (s : String) (n : ℕ) : ℝ[X] :=
  if s = "D1" then X ^ n else C (ρ s ^ n)

variable {actions : ℕ}

theorem Equation.OverState.evalPowers_eq {e : Equation} (inState : e.OverState) (weight : ℕ → ℚ) (ρ : String → ℝ) :
    e.evalPowers (indeterminate ρ) = C (e.eval ρ) ∧ e.evalPowers (weighted "D1" weight ρ) = e.eval ρ := by
  have other : ∀ s ∈ e.names, s ≠ "D1" := by
    rintro s mem rfl
    exact not_mem_of_overState (inState.names _ mem) (by decide : 'D' ∈ ['A', 'D']) (by decide)
  constructor
  · obtain ⟨p, writes⟩ := exists_phrase inState.written
    calc e.evalPowers (indeterminate ρ)
        = e.evalPowers fun s n => CAlgHom (R := ℚ) (ρ s) ^ n := by
          refine inState.written.evalPowers_congr fun s mem => ?_
          funext n
          simp [indeterminate, other s mem]
      _ = p.tree.eval fun s => CAlgHom (R := ℚ) (ρ s) := by rw [← writes.value, p.evalPowers_eq_eval]
      _ = C (e.eval ρ) := by
          rw [← Expression.map_eval, writes.eval]
          rfl
  · rw [← evalPowers_eq_eval]
    refine inState.written.evalPowers_congr fun s mem => ?_
    funext n
    rw [weighted, if_neg (other s mem)]

namespace Feedback

variable (u : Feedback actions)

/-- A name is the disturbance, or has the same value whatever stands for the disturbance. -/
theorem acting_cases (weight : ℕ → ℚ) (ρ : String → ℝ) (s : String) :
    (s = "D1" ∧ ∀ n, u.acting (indeterminate ρ) s n = X ^ n ∧ u.acting (weighted "D1" weight ρ) s n = weight n) ∨
    (s ≠ "D1" ∧ ∃ y : ℝ, ∀ n, u.acting (indeterminate ρ) s n = C (y ^ n) ∧
      u.acting (weighted "D1" weight ρ) s n = y ^ n) := by
  unfold acting
  cases found : u.table.lookup s with
  | some e =>
    obtain ⟨⟨i, _, name⟩, policy⟩ := u.mem_of_lookup found
    obtain ⟨constant, value⟩ := (u.overState e policy).evalPowers_eq weight ρ
    refine .inr ⟨?_, e.eval ρ, fun n => ?_⟩
    · rintro rfl
      exact absurd (name ▸ by decide : 'D' ∈ (variableOf 'A' (i + 1)).toList)
        (not_mem_variableOf (by decide) (by decide) _)
    · simp only [constant, value, C_pow, and_self]
  | none =>
    by_cases same : s = "D1"
    · exact .inl ⟨same, fun n => by simp [same, indeterminate, weighted]⟩
    · exact .inr ⟨same, ρ s, fun n => by simp [same, indeterminate, weighted]⟩

end Feedback

/-- The disturbance is in a monomial at most once, with a power for which there is a number. -/
structure Transform.Orderly (f : Transform actions 1) : Prop where
  distinct : ∀ m ∈ f.equation.monomials, (m.powers.map (·.1)).Nodup
  orders : ∀ m ∈ f.equation.monomials, ∀ v ∈ m.powers, v.1 = "D1" → 1 ≤ v.2.exponent ∧ v.2.exponent ≤ 10

namespace Transform

variable (f : Transform actions 1) (u : Feedback actions)

/-- The next state as a polynomial in the disturbance. -/
noncomputable def polynomial (ρ : String → ℝ) : ℝ[X] := f.moved u (indeterminate ρ)

theorem exists_product (weight : ℕ → ℚ) (zero : weight 0 = 1) (ρ : String → ℝ)
    {powers : List (String × Number)} (distinct : (powers.map (·.1)).Nodup) :
    ∃ (a : ℝ) (k : ℕ), ("D1" ∉ powers.map (·.1) → k = 0) ∧
      (powers.map fun (v, p) => u.acting (indeterminate ρ) v p.exponent).prod = C a * X ^ k ∧
      (powers.map fun (v, p) => u.acting (weighted "D1" weight ρ) v p.exponent).prod = a * weight k := by
  induction powers with
  | nil => exact ⟨1, 0, fun _ => rfl, by simp, by simp [zero]⟩
  | cons v powers ih =>
    obtain ⟨s, p⟩ := v
    rw [List.map_cons, List.nodup_cons] at distinct
    obtain ⟨a, k, absent, product, number⟩ := ih distinct.2
    simp only [List.map_cons, List.prod_cons, product, number]
    rcases u.acting_cases weight ρ s with ⟨rfl, values⟩ | ⟨other, y, values⟩
    · -- no other power of the disturbance follows
      have alone : k = 0 := absent distinct.1
      refine ⟨a, p.exponent, by simp, ?_, ?_⟩
      · rw [(values _).1, alone, pow_zero, mul_one, mul_comm]
      · rw [(values _).2, alone, zero, Rat.cast_one, mul_one, mul_comm]
    · refine ⟨y ^ p.exponent * a, k, fun missing => absent ?_, ?_, ?_⟩
      · exact fun inside => missing (List.mem_cons_of_mem _ inside)
      · rw [(values _).1, C_mul, mul_assoc]
      · rw [(values _).2, mul_assoc]

theorem weigh_polynomial {f : Transform actions 1} (orderly : f.Orderly) {weight : ℕ → ℚ}
    (zero : weight 0 = 1) (ρ : String → ℝ) :
    weigh (fun k => weight k) (f.polynomial u ρ) = f.moved u (weighted "D1" weight ρ) := by
  rw [polynomial, moved, moved, evalPowers, evalPowers, weigh_sum, List.map_map]
  refine congrArg List.sum (List.map_congr_left fun m mem => ?_)
  obtain ⟨a, k, _, product, number⟩ := exists_product u weight zero ρ (orderly.distinct m mem)
  rw [Function.comp_apply, Monomial.evalPowers, Monomial.evalPowers, product, number, Algebra.smul_def,
    Polynomial.algebraMap_apply, weigh_C_mul, weigh_C_mul_X_pow, Algebra.smul_def]

theorem Orderly.allPowers {f : Transform actions 1} (orderly : f.Orderly) : f.equation.AllPowers
    fun s ds => s = "D1" → ∃ k, 2 ≤ k ∧ k ≤ 10 ∧ ds = Nat.toDigits 10 k := by
  intro m mem v power other disturbance
  obtain ⟨least, most⟩ := orderly.orders m mem v power disturbance
  exact ⟨v.2.exponent, by omega, most, rfl⟩

/-- The expectation of a polynomial over the state variable at the next state: it is expanded in the
disturbance, and every power is replaced by its moment. -/
noncomputable def expectation (law : Law) (e : Equation) (ρ : String → ℝ) : ℝ :=
  weigh law.moment (e.eval (Function.update (fun s => C (ρ s)) "S1" (f.polynomial u ρ)))

end Transform

/-! ## Templates -/

theorem powerConstant_injective (stem : String) : Function.Injective (powerConstant stem) :=
  fun _ _ same => Nat.succ_injective (append_toString_injective (stem ++ "_") same)

section

variable {stem : String} {d : ℕ} {e : Equation} (isStem : IsStem stem)
  (made : Powers.equation ["S1"] stem (Powers.table d 1) = .ok e)
include isStem made

variable (f : Transform actions 1) (u : Feedback actions) {condition : List Inequality}

theorem Transform.expectation_eq (law : Law) (ρ : String → ℝ) : f.expectation u law e ρ =
    ∑ k ∈ range (d + 1), weigh law.moment (f.polynomial u ρ ^ k) * ρ (powerConstant stem k) := by
  have values : (fun (s : String) (n : ℕ) =>
      Function.update (fun s => C (ρ s)) "S1" (f.polynomial u ρ) s ^ n) =
        Function.update (fun s n => C (ρ s) ^ n) "S1" fun n => f.polynomial u ρ ^ n := by
    funext s
    by_cases state : s = "S1"
    · simp [state]
    · simp [Function.update_of_ne state]
  rw [expectation, ← evalPowers_eq_eval, values, Powers.evalPowers_template isStem made, weigh_finset_sum]
  refine sum_congr rfl fun k _ => ?_
  rw [pow_one, mul_comm, weigh_C_mul, mul_comm]

theorem Noise.Exact.expects_after_iff {noise : Noise} {law : Law} {tenth : ℚ}
    (exact : noise.Exact law tenth) (few : actions ≤ 9) (writable : isWritable d) {f : Transform actions 1}
    (orderly : f.Orderly) {value : (String → ℝ) → ℝ} :
    noise.Expects (e.after ((f.piece condition).nextUnder u.table)) value ↔ ∀ ρ, ∑ k ∈ range (d + 1),
      weigh (fun k => law.weight tenth k) (f.polynomial u ρ) ^ k * ρ (powerConstant stem k) =
        value ρ := by
  have small : isWritable (d : ℤ).toNat := by
    rw [Int.toNat_natCast]
    exact writable
  obtain ⟨p, text, names, _, powers, values⟩ :=
    f.exists_after u few (Powers.overState_equation isStem small made) condition
  have plain : ∀ (s : String) (ds : List Char), s = "S1" ∨ IsConstant s →
      s = "D1" → ∃ k, 2 ≤ k ∧ k ≤ 10 ∧ ds = Nat.toDigits 10 k := by
    rintro s ds inState rfl
    exact absurd (by decide) (not_mem_of_overState inState (by decide : 'D' ∈ ['A', 'D']))
  rw [← text, exact.expects_iff p names (powers _ plain orderly.allPowers)]
  refine forall_congr' fun ρ => ?_
  have zero : law.weight tenth 0 = 1 := by cases law <;> rfl
  rw [values, Powers.evalPowers_template isStem made, f.weigh_polynomial u orderly zero]
  have constants : ∀ k, weighted "D1" (law.weight tenth) ρ (powerConstant stem k) 1 =
      ρ (powerConstant stem k) := by
    intro k
    rw [weighted, if_neg (isStem.powerConstant_ne k (by decide : 'D' ∈ letters) (by decide)), pow_one]
  simp only [constants]

omit made in
theorem Transform.polynomial_congr (fresh : ∀ a ∈ u.equations, ∀ k, powerConstant stem k ∉ a.names)
    {ρ ρ' : String → ℝ} (agree : ∀ s, (∀ k, s ≠ powerConstant stem k) → ρ s = ρ' s) :
    f.polynomial u ρ = f.polynomial u ρ' := by
  have same {s : String} (other : ∀ k, powerConstant stem k ≠ s) :
      indeterminate ρ s = indeterminate ρ' s := by
    funext n
    rw [indeterminate, indeterminate, agree s fun k => (other k).symm]
  refine f.moved_congr u (fun s mem => same fun k => ?_) fun a policy s mem => same fun k => ?_
  · rcases f.names s mem with rfl | ⟨i, _, rfl⟩ | ⟨i, _, rfl⟩
    · exact isStem.powerConstant_ne k (by decide : 'S' ∈ letters) (by decide)
    · exact isStem.powerConstant_ne k (by decide : 'A' ∈ letters) (by simp [toList_variableOf])
    · exact isStem.powerConstant_ne k (by decide : 'D' ∈ letters) (by simp [toList_variableOf])
  · rintro rfl
    exact fresh a policy k mem

omit isStem made in
theorem forall_sum_constants_iff {y z : (String → ℝ) → ℕ → ℝ}
    (left : ∀ ρ ρ' : String → ℝ, (∀ s, (∀ k, s ≠ powerConstant stem k) → ρ s = ρ' s) → y ρ = y ρ')
    (right : ∀ ρ ρ' : String → ℝ, (∀ s, (∀ k, s ≠ powerConstant stem k) → ρ s = ρ' s) → z ρ = z ρ') :
    (∀ ρ : String → ℝ, ∑ k ∈ range (d + 1), y ρ k * ρ (powerConstant stem k) =
      ∑ k ∈ range (d + 1), z ρ k * ρ (powerConstant stem k)) ↔ ∀ ρ, ∀ k ≤ d, y ρ k = z ρ k := by
  classical
  constructor
  · intro same ρ j bound
    -- one constant is set to one, all others to zero
    let ρ' : String → ℝ := fun s =>
      if s = powerConstant stem j then 1 else if ∃ k, s = powerConstant stem k then 0 else ρ s
    have agree : ∀ s, (∀ k, s ≠ powerConstant stem k) → ρ s = ρ' s := by
      intro s other
      simp [ρ', other]
    have unit : ∀ k, ρ' (powerConstant stem k) = if k = j then 1 else 0 := by
      intro k
      by_cases chosen : k = j
      · simp [ρ', chosen]
      · have other : powerConstant stem k ≠ powerConstant stem j :=
          fun equal => chosen (powerConstant_injective stem equal)
        simp [ρ', chosen, other]
    have equal := same ρ'
    simp only [unit, mul_ite, mul_one, mul_zero, sum_ite_eq', mem_range,
      Nat.lt_succ_of_le bound, if_true] at equal
    rwa [← left ρ ρ' agree, ← right ρ ρ' agree] at equal
  · intro same ρ
    refine sum_congr rfl fun k mem => ?_
    rw [same ρ k (Nat.lt_succ_iff.mp (mem_range.mp mem))]

/-- What is taken for the expectation of a template at the next state is its expectation exactly if the
numbers that are put in for the powers of the disturbance give the expectation of the transform, and the
template has degree one, or the disturbance is a single point, or the transform does not vary with it. -/
theorem Noise.Exact.expects_expectation_iff {noise : Noise} {law : Law} {tenth : ℚ}
    (exact : noise.Exact law tenth) (few : actions ≤ 9) (positive : 1 ≤ d) (writable : isWritable d)
    {f : Transform actions 1} (orderly : f.Orderly)
    (fresh : ∀ a ∈ u.equations, ∀ k, powerConstant stem k ∉ a.names) :
    noise.Expects (e.after ((f.piece condition).nextUnder u.table)) (f.expectation u law e) ↔
      (∀ ρ, weigh (fun k => law.weight tenth k) (f.polynomial u ρ) = weigh law.moment (f.polynomial u ρ)) ∧
      (d = 1 ∨ law.IsPoint ∨ ∀ ρ, (f.polynomial u ρ).natDegree = 0) := by
  have next (ρ ρ' : String → ℝ) (agree : ∀ s, (∀ k, s ≠ powerConstant stem k) → ρ s = ρ' s) :
      f.polynomial u ρ = f.polynomial u ρ' := f.polynomial_congr isStem u fresh agree
  rw [exact.expects_after_iff isStem made u few writable orderly]
  simp only [f.expectation_eq isStem made u law]
  rw [forall_sum_constants_iff
    (fun ρ ρ' agree => by rw [next ρ ρ' agree]) (fun ρ ρ' agree => by rw [next ρ ρ' agree])]
  simp only [law.forall_pow_eq_iff positive]
  constructor
  · intro each
    refine ⟨fun ρ => (each ρ).1, ?_⟩
    by_cases linear : d = 1
    · exact .inl linear
    by_cases point : law.IsPoint
    · exact .inr (.inl point)
    · exact .inr (.inr fun ρ => by simpa [linear, point] using (each ρ).2)
  · rintro ⟨means, alternatives⟩ ρ
    exact ⟨means ρ, alternatives.imp_right fun other => other.imp_right fun degree => degree ρ⟩

end

/-! ## Drift -/

def upward : Noise := ⟨.number (.int 1), .uniform (.list [.number (.int 0)]) (.list [.number (.int 2)])⟩

theorem exact_upward : upward.Exact (.uniform 0 2 two_pos) 0 := by
  obtain ⟨mean, average⟩ : ∃ mean, Distribution.uniformMean (.int 0) (.int 2) = .ok mean :=
    exists_of_isOk (by decide +kernel)
  obtain ⟨square, computed⟩ : ∃ square, Distribution.uniformSquare (.int 0) (.int 2) = .ok square :=
    exists_of_isOk (by decide +kernel)
  have text : mean.text = "1.0" := by
    have shown : (Distribution.uniformMean (.int 0) (.int 2)).toOption.map Number.text = some "1.0" := by
      decide +kernel
    rw [average] at shown
    exact Option.some.inj shown
  have first : Spells mean.text ((0 + 2) / 2) := by
    have value : (Numeral.make ['1'] ['0'] 0 true).value = (0 + 2) / 2 := by decide +kernel
    have decimal := Spells.of_decimal (w := ['1']) (f := ['0']) (by decide) (by decide) (by decide)
      (by decide +kernel)
    rw [text, ← value]
    exact decimal
  have zero : Spells "0" 0 := .of_whole spellsWhole_zero
  have two : Spells "2" 2 := .of_whole (spellsWhole_digit (by decide))
  exact .uniform rfl rfl rfl rfl rfl average computed zero two first

theorem isWritten_disturbed {order : Number} (exponent : order.isExponent) :
    Equation.IsWritten ⟨[⟨.exact 1, [("D1", order)]⟩, ⟨.exact 1, [("S1", .int 1)]⟩]⟩ := by
  have one : (Scalar.exact 1).isNumeral := by decide +kernel
  intro m mem
  rcases List.mem_pair.mp mem with rfl | rfl
  · refine ⟨one, fun v power => ?_⟩
    cases List.mem_singleton.mp power
    exact ⟨isUnknown_variableOf (by decide : 'D' ∈ letters) 1, exponent⟩
  · refine ⟨one, fun v power => ?_⟩
    cases List.mem_singleton.mp power
    exact ⟨isUnknown_variableOf (by decide : 'S' ∈ letters) 1, isExponent_one⟩

def drift : Transform 0 1 where
  equation := ⟨[⟨.exact 1, [("D1", .int 1)]⟩, ⟨.exact 1, [("S1", .int 1)]⟩]⟩
  written := isWritten_disturbed isExponent_one
  names := by
    intro s mem
    rcases List.mem_pair.mp (mem : s ∈ ["D1", "S1"]) with rfl | rfl
    · exact .inr (.inr ⟨0, by decide, rfl⟩)
    · exact .inl rfl

theorem orderly_drift : drift.Orderly := ⟨by decide, by decide⟩

def idle : Feedback 0 := ⟨[], rfl, List.forall_mem_nil _⟩

theorem polynomial_drift (ρ : String → ℝ) : drift.polynomial idle ρ = X + C (ρ "S1") := by
  have table : idle.table = [] := rfl
  simp [Transform.polynomial, Transform.moved, Feedback.acting, table, drift, evalPowers,
    Monomial.evalPowers, Scalar.written, Number.exponent, indeterminate]

theorem isStem_safe : IsStem "V_safe_1" where
  spelled := ⟨'V', ['_', 's', 'a', 'f', 'e', '_', '1'], by decide, by decide, by decide⟩
  constant := by
    unfold IsConstant
    decide

theorem exists_quadratic : ∃ e, Powers.equation ["S1"] "V_safe_1" (Powers.table (2 : ℕ) 1) = .ok e :=
  ⟨_, Powers.equation_eq _ fun _ mem => (Powers.mem_table mem).2.1⟩

theorem drift_expects_iff : upward.Exact (.uniform 0 2 two_pos) 0 ∧ drift.Orderly ∧ IsStem "V_safe_1" ∧
    ∃ e, Powers.equation ["S1"] "V_safe_1" (Powers.table (2 : ℕ) 1) = .ok e ∧
      (upward.Expects (e.after ((drift.piece []).nextUnder idle.table))
          (drift.expectation idle (.uniform 0 2 two_pos) e) ↔
        (∀ ρ, weigh (fun k => (uniform 0 2 two_pos).weight 0 k) (drift.polynomial idle ρ) =
          weigh (uniform 0 2 two_pos).moment (drift.polynomial idle ρ)) ∧
        (2 = 1 ∨ (uniform 0 2 two_pos).IsPoint ∨ ∀ ρ, (drift.polynomial idle ρ).natDegree = 0)) := by
  obtain ⟨e, made⟩ := exists_quadratic
  exact ⟨exact_upward, orderly_drift, isStem_safe, e, made,
    exact_upward.expects_expectation_iff isStem_safe made idle (by decide) (by decide)
      (by decide +kernel) orderly_drift (List.forall_mem_nil _)⟩

/-- With the second power of the state in the template the variance of the disturbance is lost. -/
theorem not_expects_drift : ∃ e, Powers.equation ["S1"] "V_safe_1" (Powers.table (2 : ℕ) 1) = .ok e ∧
    ¬ upward.Expects (e.after ((drift.piece []).nextUnder idle.table))
      (drift.expectation idle (.uniform 0 2 two_pos) e) := by
  obtain ⟨e, made⟩ := exists_quadratic
  refine ⟨e, made, fun expects => ?_⟩
  have same := (exact_upward.expects_after_iff isStem_safe made idle (by decide) (by decide +kernel)
    orderly_drift).mp expects
  -- at the state zero, with nothing but the square in the template
  have values := same fun s => if s = "V_safe_1_3" then 1 else 0
  have names : powerConstant "V_safe_1" 0 = "V_safe_1_1" ∧ powerConstant "V_safe_1" 1 = "V_safe_1_2" ∧
      powerConstant "V_safe_1" 2 = "V_safe_1_3" := by decide
  rw [Transform.expectation_eq isStem_safe made, polynomial_drift] at values
  simp only [sum_range_succ, range_zero, sum_empty, names, String.reduceEq,
    if_true, if_false, mul_zero, mul_one, zero_add, C_0, add_zero] at values
  -- the number is the expectation of the disturbance, but the disturbance has a variance
  have number : weigh (fun k => (uniform 0 2 two_pos).weight 0 k) X =
      weigh (uniform 0 2 two_pos).moment X := by
    rw [show (X : ℝ[X]) = C 1 * X ^ 1 by simp, weigh_C_mul_X_pow, weigh_C_mul_X_pow, moment_one_uniform]
    norm_num [weight, signedPower]
  rw [number] at values
  have constant := natDegree_eq_zero_of_variance (.uniform 0 2 two_pos) id values.symm
  rw [natDegree_X] at constant
  exact one_ne_zero constant

end Supermartingale
