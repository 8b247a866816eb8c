import Supermartingale.Proofs.Dynamics.Loop
import Supermartingale.Proofs.Noise.Table
import Supermartingale.Proofs.Polynomial.Arithmetic

/-!
# Transforms that are affine in the disturbance

A transform without higher powers of the disturbance moves the state along a line. The text of a template at the next
state with a number put in for the disturbance spells its value there: at the mean, the least or the greatest value of
uniform noise.
-/

namespace Supermartingale

open Function

variable {actions : ℕ} {entries : Text.Table} {e : Equation}

/-- The disturbance is in a monomial at most once, and without an exponent. -/
structure Transform.Affine (f : Transform actions 1) : Prop where
  distinct : ∀ m ∈ f.equation.monomials, (m.powers.map (·.1)).Nodup
  linear : ∀ m ∈ f.equation.monomials, ∀ v ∈ m.powers, v.1 = "D1" → v.2.exponent = 1

theorem Equation.OverState.eval_disturbed (inState : e.OverState) {values : String → ℕ → ℝ}
    {ρ : String → ℝ} (agree : ∀ s, s ≠ "D1" → ∀ n, values s n = ρ s ^ n) : e.evalPowers values = e.eval ρ := by
  rw [← Equation.evalPowers_eq_eval]
  refine inState.written.evalPowers_congr fun s mem => funext (agree s ?_)
  rintro rfl
  exact not_mem_of_overState (inState.names _ mem) (by decide : 'D' ∈ ['A', 'D']) (by decide)

/-- What is known about the value of a name when only the disturbance varies: it is the disturbance, or it
does not vary. -/
theorem Feedback.acting_disturbed (u : Feedback actions) (ρ : String → ℝ) (s : String) :
    (s = "D1" ∧ ∀ values : String → ℕ → ℝ, u.acting values s = values s) ∨
    (s ≠ "D1" ∧ ∃ y : ℝ, ∀ values : String → ℕ → ℝ, (∀ s, s ≠ "D1" → ∀ n, values s n = ρ s ^ n) →
      ∀ n, u.acting values s n = y ^ n) := by
  unfold acting
  cases found : u.table.lookup s with
  | some e =>
    obtain ⟨⟨i, _, name⟩, policy⟩ := u.mem_of_lookup found
    refine .inr ⟨?_, e.eval ρ, fun values agree n => ?_⟩
    · rintro rfl
      exact absurd (name ▸ by decide : 'D' ∈ (variableOf 'A' (i + 1)).toList)
        (not_mem_variableOf (by decide) (by decide) _)
    · dsimp only
      rw [(u.overState e policy).eval_disturbed agree]
  | none =>
    by_cases same : s = "D1"
    · exact .inl ⟨same, fun values => rfl⟩
    · exact .inr ⟨same, ρ s, fun values agree n => agree s same n⟩

theorem Feedback.exists_line_product (u : Feedback actions) (ρ : String → ℝ)
    {powers : List (String × Number)} (distinct : (powers.map (·.1)).Nodup)
    (linear : ∀ v ∈ powers, v.1 = "D1" → v.2.exponent = 1) :
    ∃ a b : ℝ, ("D1" ∉ powers.map (·.1) → b = 0) ∧ ∀ w : ℝ,
      (powers.map fun (v, p) => u.acting (fun s n => update ρ "D1" w s ^ n) v p.exponent).prod =
        a + b * w := by
  induction powers with
  | nil => exact ⟨1, 0, fun _ => rfl, fun w => by simp⟩
  | cons v powers ih =>
    obtain ⟨s, p⟩ := v
    rw [List.map_cons, List.nodup_cons] at distinct
    obtain ⟨own, others⟩ := List.forall_mem_cons.mp linear
    obtain ⟨a, b, absent, line⟩ := ih distinct.2 others
    simp only [List.map_cons, List.prod_cons, line]
    rcases u.acting_disturbed ρ s with ⟨rfl, values⟩ | ⟨other, y, values⟩
    · -- the disturbance does not come up again
      refine ⟨0, a, by simp, fun w => ?_⟩
      rw [values, own rfl, update_self, absent distinct.1]
      ring
    · refine ⟨y ^ p.exponent * a, y ^ p.exponent * b, fun missing => ?_, fun w => ?_⟩
      · rw [absent fun inside => missing (List.mem_cons_of_mem _ inside), mul_zero]
      · rw [values _ fun t distinct n => by rw [update_of_ne distinct]]
        ring

/-- What is read from the text of a template at the next state when numbers are put in for the powers of the
disturbance. -/
theorem Transform.read_filled (f : Transform actions 1) (u : Feedback actions)
    {weight : ℕ → ℚ} {looked : List Char → Prop}
    (filling : Filling "D1" (entries.map fun (k, v) => (k.toList, v.toList)) weight looked)
    (nonempty : entries ≠ []) (few : actions ≤ 9) (inState : e.OverState)
    (inside : f.equation.AllPowers fun s ds => s = "D1" → looked ds) {condition : List Inequality}
    {filled : String} {read : Equation}
    (replaced : Text.replaceFirst entries (e.after ((f.piece condition).nextUnder u.table)) = .ok filled)
    (exactly : ReadsExactly filled) (made : Equation.ofText filled = .ok read) :
    read.Stands fun ρ => e.eval (update ρ "S1" (f.moved u (weighted "D1" weight ρ))) := by
  obtain ⟨p, text, names, _, powers, value⟩ := f.exists_after u few inState condition
  have plain : p.AllPowers fun s ds => s = "D1" → looked ds := by
    refine powers _ (fun s ds known same => ?_) inside
    subst same
    exact absurd (by decide) (not_mem_of_overState known (by decide : 'D' ∈ ['A', 'D']))
  obtain ⟨q, result, spelled⟩ := filling.exists_replaced nonempty p
    (fun s mem => (names s mem).apart) plain
  rw [text] at result
  cases result.symm.trans replaced
  obtain ⟨numeric, values⟩ := exactly.phrase made
  refine ⟨numeric, fun ρ => ?_⟩
  rw [values, spelled, value]
  refine inState.eval_disturbed fun s other n => ?_
  by_cases state : s = "S1"
  · subst state
    simp
  · rw [update_of_ne state, update_of_ne state, weighted, if_neg other]

namespace Transform.Affine

variable {f : Transform actions 1} (affine : f.Affine) (u : Feedback actions) (ρ : String → ℝ)
include affine

theorem moved_congr {values values' : String → ℕ → ℝ} (left : ∀ s, s ≠ "D1" → ∀ n, values s n = ρ s ^ n)
    (right : ∀ s, s ≠ "D1" → ∀ n, values' s n = ρ s ^ n) (first : values "D1" 1 = values' "D1" 1) :
    f.moved u values = f.moved u values' := by
  unfold moved Equation.evalPowers
  refine congrArg List.sum (List.map_congr_left fun m mem => ?_)
  unfold Monomial.evalPowers
  refine congrArg (m.coefficient.written • List.prod ·) (List.map_congr_left fun v power => ?_)
  rcases u.acting_disturbed ρ v.1 with ⟨disturbance, values⟩ | ⟨_, y, values⟩
  · dsimp only
    rw [values, values, affine.linear m mem v power disturbance, disturbance, first]
  · dsimp only
    rw [values _ left, values _ right]

theorem exists_line (condition : List Inequality) : ∃ a b : ℝ, ∀ w : ℝ,
    (f.piece condition).nextState u.table (update ρ "D1" w) = a + b * w := by
  have monomials : ∀ ms : List Monomial, (∀ m ∈ ms, m ∈ f.equation.monomials) → ∃ a b : ℝ, ∀ w : ℝ,
      (ms.map (Monomial.evalPowers (u.acting fun s n => update ρ "D1" w s ^ n))).sum = a + b * w := by
    intro ms inside
    induction ms with
    | nil => exact ⟨0, 0, fun w => by simp⟩
    | cons m ms ih =>
      obtain ⟨first, others⟩ := List.forall_mem_cons.mp inside
      obtain ⟨a, b, sum⟩ := ih others
      obtain ⟨c, d, _, line⟩ := u.exists_line_product ρ (affine.distinct m first) (affine.linear m first)
      refine ⟨m.coefficient.written * c + a, m.coefficient.written * d + b, fun w => ?_⟩
      rw [List.map_cons, List.sum_cons, sum, Monomial.evalPowers, line, Rat.smul_def]
      ring
  obtain ⟨a, b, line⟩ := monomials f.equation.monomials fun _ mem => mem
  refine ⟨a, b, fun w => ?_⟩
  rw [nextState_eq]
  exact line w

/-- What is read from the text of a template at the next state when a number is put in for the
disturbance. -/
theorem eval_filled {entries : Text.Table} {weight : ℕ → ℚ} {looked : List Char → Prop}
    (filling : Filling "D1" (entries.map fun (k, v) => (k.toList, v.toList)) weight looked)
    (nonempty : entries ≠ []) (few : actions ≤ 9) {e : Equation} (inState : e.OverState)
    {condition : List Inequality} {filled : String} {read : Equation}
    (replaced : Text.replaceFirst entries (e.after ((f.piece condition).nextUnder u.table)) = .ok filled)
    (exactly : ReadsExactly filled) (made : Equation.ofText filled = .ok read) :
    read.Stands fun ρ => e.eval (update ρ "S1"
      ((f.piece condition).nextState u.table (update ρ "D1" (weight 1)))) := by
  have plain : f.equation.AllPowers fun s ds => s = "D1" → looked ds := by
    intro m mem v power other disturbance
    exact absurd (affine.linear m mem v power disturbance) other
  obtain ⟨numeric, values⟩ := f.read_filled u filling nonempty few inState plain replaced exactly made
  refine ⟨numeric, fun ρ => ?_⟩
  have moved : f.moved u (weighted "D1" weight ρ) =
      (f.piece condition).nextState u.table (update ρ "D1" (weight 1)) := by
    rw [nextState_eq]
    refine affine.moved_congr u ρ (fun s other n => ?_) (fun s other n => ?_) ?_
    · rw [weighted, if_neg other]
    · rw [update_of_ne other]
    · simp [weighted]
  simp only [values, moved]

end Transform.Affine

/-! ## Uniform noise -/

/-- The texts that come from a text when numbers are put in for the disturbance are read exactly. -/
structure Noise.ReadsExactly (noise : Noise) (s : String) : Prop where
  mean : ∀ table filled, noise.expectations usualOrder = .ok table →
    Text.replaceFirst table s = .ok filled → Supermartingale.ReadsExactly filled
  least : ∀ bounds filled, noise.bounds = .ok bounds →
    Text.replaceFirst (bounds.map fun (d, a, _) => (d, a)) s = .ok filled →
    Supermartingale.ReadsExactly filled
  greatest : ∀ bounds filled, noise.bounds = .ok bounds →
    Text.replaceFirst (bounds.map fun (d, _, b) => (d, b)) s = .ok filled →
    Supermartingale.ReadsExactly filled

def readsFilled (s : String) (entries : Text.Table) : Bool :=
  match Text.replaceFirst entries s with
  | .ok filled => readsExactly filled
  | .error _ => false

theorem readsFilled_sound {s filled : String} (checked : readsFilled s entries)
    (replaced : Text.replaceFirst entries s = .ok filled) : ReadsExactly filled := by
  rw [readsFilled, replaced] at checked
  exact readsExactly_sound checked

def Noise.readsExactly (noise : Noise) (s : String) : Bool :=
  (noise.expectations usualOrder).toOption.all (readsFilled s) &&
    noise.bounds.toOption.all fun bounds =>
      readsFilled s (bounds.map fun (d, a, _) => (d, a)) && readsFilled s (bounds.map fun (d, _, b) => (d, b))

theorem Noise.readsExactly_sound {noise : Noise} {s : String} (checked : noise.readsExactly s) :
    noise.ReadsExactly s := by
  obtain ⟨means, ends⟩ := Bool.and_eq_true_iff.mp checked
  have both {bounds : List (String × String × String)} (known : noise.bounds = .ok bounds) :
      readsFilled s (bounds.map fun (d, a, _) => (d, a)) ∧ readsFilled s (bounds.map fun (d, _, b) => (d, b)) := by
    rw [known, Except.toOption, Option.all_some] at ends
    exact Bool.and_eq_true_iff.mp ends
  constructor
  · intro table filled known replaced
    rw [known, Except.toOption, Option.all_some] at means
    exact readsFilled_sound means replaced
  · intro bounds filled known replaced
    exact readsFilled_sound (both known).1 replaced
  · intro bounds filled known replaced
    exact readsFilled_sound (both known).2 replaced

theorem Spells.filling {text : String} {q : ℚ} (spells : Spells text q) : ∃ weight : ℕ → ℚ, weight 1 = q ∧
    Filling "D1" ([("D1", text)].map fun (k, v) => (k.toList, v.toList)) weight (fun _ => True) := by
  obtain ⟨n, chars, rfl⟩ := spells
  refine ⟨n.power, n.power_one, ?_⟩
  have table := filling_single n
  rw [chars] at table
  exact table

section

variable {noise : Noise} {lower upper tenth : ℚ} {order : lower < upper}
  (exact : noise.Exact (.uniform lower upper order) tenth)
include exact

theorem Noise.Exact.bounds : ∃ a b, noise.bounds = .ok [("D1", a, b)] ∧ Spells a lower ∧ Spells b upper := by
  cases exact with
  | uniform one least greatest left right average computed lowest highest first =>
    refine ⟨_, _, ?_, lowest, highest⟩
    simp [Noise.bounds, one, List.range_succ, least, greatest, bind, Except.bind, pure, Except.pure, variableName_zero]

variable {f : Transform actions 1} (affine : f.Affine) (u : Feedback actions) (few : actions ≤ 9)
  {e read : Equation} (inState : e.OverState) {condition : List Inequality}
  (exactly : noise.ReadsExactly (e.after ((f.piece condition).nextUnder u.table)))
include affine few inState exactly

theorem Noise.Exact.expect_spec (made : noise.expect (e.after ((f.piece condition).nextUnder u.table)) = .ok read) :
    read.Stands fun ρ => e.eval (update ρ "S1"
      ((f.piece condition).nextState u.table (update ρ "D1" ((lower + upper) / 2)))) := by
  obtain ⟨table, moments, made⟩ := bind_eq_ok.mp made
  obtain ⟨filled, replaced, made⟩ := bind_eq_ok.mp made
  obtain ⟨table', moments', nonempty, filling⟩ := exact.filling
  cases moments'.symm.trans moments
  have mean : (Law.uniform lower upper order).weight tenth 1 = (lower + upper) / 2 := by
    simp only [Law.weight, signedPower, pow_one, neg_neg, ite_self]
  have result := affine.eval_filled u filling nonempty few inState replaced
    (exactly.mean _ _ moments replaced) made
  rw [mean] at result
  push_cast at result
  exact result

theorem Noise.Exact.atLower_spec (made : noise.atLower (e.after ((f.piece condition).nextUnder u.table)) = .ok read) :
    read.Stands fun ρ => e.eval (update ρ "S1"
      ((f.piece condition).nextState u.table (update ρ "D1" lower))) := by
  obtain ⟨bounds, known, rest⟩ := bind_eq_ok.mp made
  obtain ⟨filled, replaced, parsed⟩ := bind_eq_ok.mp rest
  obtain ⟨a, b, known', lowest, _⟩ := exact.bounds
  cases known'.symm.trans known
  have text := exactly.least _ _ known replaced
  obtain ⟨weight, value, filling⟩ := lowest.filling
  have result := affine.eval_filled u filling (List.cons_ne_nil _ _) few inState replaced text parsed
  rw [value] at result
  exact result

theorem Noise.Exact.atUpper_spec (made : noise.atUpper (e.after ((f.piece condition).nextUnder u.table)) = .ok read) :
    read.Stands fun ρ => e.eval (update ρ "S1"
      ((f.piece condition).nextState u.table (update ρ "D1" upper))) := by
  obtain ⟨bounds, known, rest⟩ := bind_eq_ok.mp made
  obtain ⟨filled, replaced, parsed⟩ := bind_eq_ok.mp rest
  obtain ⟨a, b, known', _, highest⟩ := exact.bounds
  cases known'.symm.trans known
  have text := exactly.greatest _ _ known replaced
  obtain ⟨weight, value, filling⟩ := highest.filling
  have result := affine.eval_filled u filling (List.cons_ne_nil _ _) few inState replaced text parsed
  rw [value] at result
  exact result

end

end Supermartingale
