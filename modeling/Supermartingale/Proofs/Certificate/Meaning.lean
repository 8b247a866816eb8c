import Supermartingale.Proofs.Certificate.Step
import Supermartingale.Proofs.Certificate.Template
import Supermartingale.Proofs.Constraint.Truth
import Supermartingale.Proofs.Noise.Affine
import Supermartingale.Proofs.Noise.Expectation

/-!
# What the constraints on steps mean

For one state variable, one uniform disturbance, templates of degree one and transforms that are affine in the
disturbance, the conclusion of a constraint says what a certificate needs. Only the ends of the disturbance are in the
constraint; they are enough, since the fall is affine in the disturbance.
-/

namespace Supermartingale

open Equation Function Inequality Certificate

variable {family : Family} {e : Equation} {state : ℤ}

/-! ## Values of templates -/

/-- The value of the template of an automaton state where the state variable has a value. -/
noncomputable def Family.value (family : Family) (state : ℤ) (ρ : String → ℝ) (x : ℝ) : ℝ :=
  match family.get (toString state) with
  | .ok e => e.eval (update ρ "S1" x)
  | .error _ => 0

theorem Family.value_eq (got : family.get (toString state) = .ok e) (ρ : String → ℝ) (x : ℝ) :
    family.value state ρ x = e.eval (update ρ "S1" x) := by
  rw [value, got]

theorem Family.value_self (got : family.get (toString state) = .ok e) (ρ : String → ℝ) :
    family.value state ρ (ρ "S1") = e.eval ρ := by
  rw [value_eq got, update_eq_self]

theorem Family.Templates.exists_line {stem : String} (templates : family.Templates stem 1)
    (isStem : IsStem stem) {state : String} (got : family.get state = .ok e)
    (ρ : String → ℝ) : ∃ a b : ℝ, ∀ x, e.eval (update ρ "S1" x) = a + b * x := by
  obtain ⟨i, made⟩ := templates state e got
  have stem' := isStem.indexed i
  set name := stem ++ "_" ++ toString i
  refine ⟨ρ (powerConstant name 0), ρ (powerConstant name 1), fun x => ?_⟩
  have sum := Powers.eval_template (d := 1) stem' made ρ x
  rw [sum, Finset.sum_range_succ, Finset.sum_range_one]
  ring

theorem isStem_certificate : IsStem "V_safe" ∧ IsStem "V_live0" := by
  refine ⟨⟨⟨'V', ['_', 's', 'a', 'f', 'e'], by decide, by decide, by decide⟩, ?_⟩,
    ⟨'V', ['_', 'l', 'i', 'v', 'e', '0'], by decide, by decide, by decide⟩, ?_⟩
  · unfold IsConstant
    decide
  · unfold IsConstant
    decide

theorem line_between_iff {line : ℝ → ℝ} {a b : ℝ} (affine : ∀ w, line w = a + b * w) {lower upper : ℝ}
    (order : lower ≤ upper) (least greatest : ℝ) :
    (∀ w, lower ≤ w → w ≤ upper → least ≤ line w ∧ line w ≤ greatest) ↔
      (least ≤ line lower ∧ least ≤ line upper) ∧ line lower ≤ greatest ∧ line upper ≤ greatest := by
  constructor
  · intro between
    have left := between lower le_rfl order
    have right := between upper order le_rfl
    exact ⟨⟨left.1, right.1⟩, left.2, right.2⟩
  · rintro ⟨⟨leastLower, leastUpper⟩, lowerGreatest, upperGreatest⟩ w above below
    rw [affine] at *
    -- the line goes up or down
    rcases le_total 0 b with up | down
    · have first := mul_le_mul_of_nonneg_left above up
      have second := mul_le_mul_of_nonneg_left below up
      constructor <;> linarith
    · have first := mul_le_mul_of_nonpos_left above down
      have second := mul_le_mul_of_nonpos_left below down
      constructor <;> linarith

/-! ## Formulas -/

namespace CertificateVariables

variable {v : CertificateVariables} {bound : ℚ} (mean : v.Mean bound) {guards : Guard → Prop}
  {ρ : String → ℝ} {current expected low high : Equation}
include mean

theorem Mean.holds_falls (known : current.IsNumeric) (after : expected.IsNumeric) :
    (falls v current expected).Holds ρ ↔
      0 ≤ current.eval ρ - ρ "Epsilon_live" - expected.eval ρ := by
  have first := sub_spec ρ known mean.liveDecrease.1
  have second := sub_spec ρ first.1 after
  rw [falls, holds_make .ge ρ second.1 mean.zero.1, mean.zero.2, second.2, first.2,
    mean.liveDecrease.2]
  rfl

theorem Mean.holds_risesLittle (known : current.IsNumeric) (after : expected.IsNumeric) :
    (risesLittle v current expected).Holds ρ ↔
      expected.eval ρ ≤ current.eval ρ + ρ "Delta_live" := by
  have sum := add_spec ρ known mean.liveStep.1
  rw [risesLittle, holds_make .le ρ after sum.1, sum.2, mean.liveStep.2]
  rfl

theorem Mean.hold_fallBounds_iff (known : current.IsNumeric) (least : low.IsNumeric) (greatest : high.IsNumeric) :
    (∀ i ∈ fallBounds v current low high, i.Holds ρ) ↔
      (0 ≤ current.eval ρ - ρ "Beta_safe" - low.eval ρ ∧ 0 ≤ current.eval ρ - ρ "Beta_safe" - high.eval ρ) ∧
      current.eval ρ - ρ "Beta_safe" - low.eval ρ ≤ bound ∧
      current.eval ρ - ρ "Beta_safe" - high.eval ρ ≤ bound := by
  -- the fall at an end of the disturbance
  have atEnd {e : Equation} (numeric : e.IsNumeric) : (current.sub (v.safeOffset.add e)).IsNumeric ∧
      (current.sub (v.safeOffset.add e)).eval ρ = current.eval ρ - ρ "Beta_safe" - e.eval ρ := by
    have offset := add_spec ρ mean.safeOffset.1 numeric
    have difference := sub_spec ρ known offset.1
    refine ⟨difference.1, ?_⟩
    rw [difference.2, offset.2, mean.safeOffset.2, sub_add_eq_sub_sub]
  have lowest := atEnd least
  have highest := atEnd greatest
  simp only [fallBounds, List.forall_mem_cons, List.not_mem_nil, IsEmpty.forall_iff, implies_true,
    and_true, holds_make _ ρ lowest.1 mean.zero.1, holds_make _ ρ highest.1 mean.zero.1,
    holds_make _ ρ lowest.1 mean.stepBound.1, holds_make _ ρ highest.1 mean.stepBound.1,
    mean.zero.2, mean.stepBound.2, lowest.2, highest.2, Relation.relax, Relation.Compares, and_assoc]

theorem Mean.holds_safeFormula (known : current.IsNumeric) (after : expected.IsNumeric)
    (least : low.IsNumeric) (greatest : high.IsNumeric) :
    (safeFormula v current expected low high).Holds guards ρ ↔
      0 ≤ current.eval ρ - ρ "Epsilon_safe" - expected.eval ρ ∧
      (0 ≤ current.eval ρ - ρ "Beta_safe" - low.eval ρ ∧ 0 ≤ current.eval ρ - ρ "Beta_safe" - high.eval ρ) ∧
      current.eval ρ - ρ "Beta_safe" - low.eval ρ ≤ bound ∧
      current.eval ρ - ρ "Beta_safe" - high.eval ρ ≤ bound := by
  have fall := sub_spec ρ known mean.safeDecrease.1
  have expectation := sub_spec ρ fall.1 after
  rw [safeFormula, Formula.holds_conjunction, Operand.holds_ofInequality,
    Operand.holds_ofInequalities, mean.hold_fallBounds_iff known least greatest,
    holds_make _ ρ expectation.1 mean.zero.1, expectation.2, fall.2, mean.zero.2,
    mean.safeDecrease.2]
  rfl

end CertificateVariables

/-! ## Steps -/

/-- Where a step moves the state variable to under the policy and a disturbance. -/
noncomputable def DecomposedPolicy.move (p : DecomposedPolicy) (piece : Piece) (s : State) (ρ : String → ℝ)
    (w : ℝ) : ℝ :=
  match p.act s.isAccepting with
  | .ok actions => piece.nextState actions (update ρ "D1" w)
  | .error _ => 0

namespace Certificate

/-- Exact arithmetic: the texts of the templates at the next state are read exactly when numbers are put in
for the disturbance. -/
def ReadsExactly (c : Certificate) (m : Model) (p : DecomposedPolicy) : Prop :=
  ∀ piece ∈ m.dynamics.pieces, ∀ accepting actions, p.act accepting = .ok actions →
    ∀ family ∈ [c.safe.family, c.live.family], ∀ state e, family.get state = .ok e →
      m.noise.ReadsExactly (e.after (piece.nextUnder actions))

/-- The systems for which the meaning of the constraints is known: templates of degree one, up to nine
actions, a uniform disturbance, transforms affine in it, and exact arithmetic. -/
structure Affine (c : Certificate) (m : Model) (p : DecomposedPolicy) (bound lower upper : ℚ) : Prop where
  linear : c.Sought 1 bound
  policy : ∃ actions ≤ 9, p.Synthesised actions ∧ ∀ piece ∈ m.dynamics.pieces,
    ∃ f : Transform actions 1, f.Affine ∧ piece = f.piece piece.condition
  noise : ∃ order tenth, m.noise.Exact (.uniform lower upper order) tenth
  exactly : c.ReadsExactly m p

/-- What a certificate asks of the safety template on a transition, when the disturbance is uniform between
two numbers. -/
structure SafeMove (c : Certificate) (bound lower upper : ℝ) (move : ℝ → ℝ) (s : State) (t : Transition)
    (ρ : String → ℝ) : Prop where
  expected : 0 ≤ c.safe.family.value s.id ρ (ρ "S1") - ρ "Epsilon_safe" -
    c.safe.family.value t.destination ρ (move ((lower + upper) / 2))
  bounded : ∀ w, lower ≤ w → w ≤ upper →
    0 ≤ c.safe.family.value s.id ρ (ρ "S1") - ρ "Beta_safe" - c.safe.family.value t.destination ρ (move w) ∧
    c.safe.family.value s.id ρ (ρ "S1") - ρ "Beta_safe" - c.safe.family.value t.destination ρ (move w) ≤ bound

/-- A constraint concludes that a step is safe and that the liveness template changes in a certain way: between its
value at the state and the one at the next state for the middle of the disturbance. -/
def Guarantees (c : Certificate) (p : DecomposedPolicy) (bound lower upper : ℚ) (change : (String → ℝ) → ℝ → ℝ → Prop)
    (step : Piece × State × Transition) (k : Constraint) : Prop :=
  k.Concludes fun ρ => c.SafeMove bound lower upper (p.move step.1 step.2.1 ρ) step.2.1 step.2.2 ρ ∧
    change ρ (c.live.family.value step.2.1.id ρ (ρ "S1"))
      (c.live.family.value step.2.2.destination ρ (p.move step.1 step.2.1 ρ ((lower + upper) / 2)))

variable {c : Certificate} {bound lower upper : ℚ} {m : Model} {i : Invariant} {p : DecomposedPolicy} {piece : Piece}
  {s : State} {t : Transition} {actions : List (String × Equation)} {e : Equation} {family : Family} {state : ℤ}

theorem Affine.overState (affine : c.Affine m p bound lower upper)
    (inside : family ∈ [c.safe.family, c.live.family]) {state : String}
    (got : family.get state = .ok e) : e.OverState := by
  obtain ⟨-, safe, live, -⟩ := affine.linear.spec
  rcases List.mem_pair.mp inside with rfl | rfl
  · exact safe.overState isStem_certificate.1 (by decide +kernel) got
  · exact live.overState isStem_certificate.2 (by decide +kernel) got

section

variable (affine : c.Affine m p bound lower upper) (mem : piece ∈ m.dynamics.pieces)
include affine mem

/-- What is read for a template at the next state, at the mean and at the ends of the disturbance. -/
theorem Affine.read_spec
    (acts : p.act s.isAccepting = .ok actions) (inside : family ∈ [c.safe.family, c.live.family])
    (got : family.get (toString state) = .ok e) (read : Equation) :
    (m.noise.expect (e.after (piece.nextUnder actions)) = .ok read → read.Stands fun ρ =>
      family.value state ρ (p.move piece s ρ ((lower + upper) / 2))) ∧
    (m.noise.atLower (e.after (piece.nextUnder actions)) = .ok read → read.Stands fun ρ =>
      family.value state ρ (p.move piece s ρ lower)) ∧
    (m.noise.atUpper (e.after (piece.nextUnder actions)) = .ok read → read.Stands fun ρ =>
      family.value state ρ (p.move piece s ρ upper)) := by
  obtain ⟨k, few, synthesised, transforms⟩ := affine.policy
  obtain ⟨order, tenth, exact⟩ := affine.noise
  obtain ⟨u, feedback⟩ := synthesised.exists_feedback s.isAccepting
  cases feedback.symm.trans acts
  obtain ⟨f, linear, same⟩ := transforms piece mem
  have inState := affine.overState inside got
  have exactly := affine.exactly piece mem s.isAccepting _ acts family inside _ e got
  have value (ρ : String → ℝ) (w : ℝ) : family.value state ρ (p.move piece s ρ w) = e.eval
      (update ρ "S1" (piece.nextState u.table (update ρ "D1" w))) := by
    rw [Family.value_eq got, DecomposedPolicy.move, feedback]
  rw [same] at exactly value ⊢
  simp only [Equation.Stands, value]
  exact ⟨exact.expect_spec linear u few inState exactly, exact.atLower_spec linear u few inState exactly,
    exact.atUpper_spec linear u few inState exactly⟩

theorem Affine.exists_line
    (s : State) (got : c.safe.family.get (toString state) = .ok e) (ρ : String → ℝ) :
    ∃ a b : ℝ, ∀ w, c.safe.family.value state ρ (p.move piece s ρ w) = a + b * w := by
  obtain ⟨k, _, synthesised, transforms⟩ := affine.policy
  obtain ⟨u, feedback⟩ := synthesised.exists_feedback s.isAccepting
  obtain ⟨f, linear, same⟩ := transforms piece mem
  obtain ⟨a, b, template⟩ := affine.linear.spec.2.1.exists_line isStem_certificate.1 got ρ
  obtain ⟨a', b', moved⟩ := linear.exists_line u ρ piece.condition
  refine ⟨a + b * a', b * b', fun w => ?_⟩
  rw [Family.value_eq got, template, DecomposedPolicy.move, feedback, same]
  dsimp only
  rw [moved]
  ring

theorem Affine.holds_safe_iff
    {formula : Formula} (step : SafeStep c m p piece s t formula) (guards : Guard → Prop) (ρ : String → ℝ) :
    formula.Holds guards ρ ↔ c.SafeMove bound lower upper (p.move piece s ρ) s t ρ := by
  obtain ⟨acts, source, destination, mean, least, greatest⟩ := step
  have inside : c.safe.family ∈ [c.safe.family, c.live.family] := by simp
  have expected := (affine.read_spec mem acts inside destination _).1 mean
  have low := (affine.read_spec mem acts inside destination _).2.1 least
  have high := (affine.read_spec mem acts inside destination _).2.2 greatest
  have known := (affine.overState inside source).written.isNumeric
  obtain ⟨order, _⟩ := affine.noise
  obtain ⟨a, b, line⟩ := affine.exists_line mem s destination ρ
  -- the fall of the template is a line, too
  have fall (w : ℝ) : c.safe.family.value s.id ρ (ρ "S1") - ρ "Beta_safe" -
      c.safe.family.value t.destination ρ (p.move piece s ρ w) =
        (c.safe.family.value s.id ρ (ρ "S1") - ρ "Beta_safe" - a) + -b * w := by
    rw [line]
    ring
  rw [affine.linear.spec.2.2.2.holds_safeFormula known expected.1 low.1 high.1, expected.2, low.2, high.2,
    ← Family.value_self source,
    ← line_between_iff fall (by exact_mod_cast order.le : (lower : ℝ) ≤ upper) 0 bound]
  exact ⟨fun ⟨h, h'⟩ => ⟨h, h'⟩, fun ⟨h, h'⟩ => ⟨h, h'⟩⟩

end

/-- The conclusion of the constraint on a transition, where the condition on the liveness template has a
meaning. -/
theorem Affine.holds_conclusion_iff (affine : c.Affine m p bound lower upper)
    (mem : piece ∈ m.dynamics.pieces) {live : Equation → Equation → Inequality}
    (relation : (String → ℝ) → ℝ → ℝ → Prop)
    (means : ∀ current expected ρ, current.IsNumeric → expected.IsNumeric →
      ((live current expected).Holds ρ ↔ relation ρ (current.eval ρ) (expected.eval ρ)))
    {k : Constraint} (step : StepConstraint c m i p live piece s t k) :
    c.Guarantees p bound lower upper relation (piece, s, t) k := by
  obtain ⟨safely, _, _, acts, source, destination, mean⟩ := step
  have inside : c.live.family ∈ [c.safe.family, c.live.family] := by simp
  have expected := (affine.read_spec mem acts inside destination _).1 mean
  have known := (affine.overState inside source).written.isNumeric
  refine ⟨_, _, _, rfl, fun guards ρ => ?_⟩
  rw [Formula.holds_conjunction, Operand.holds_one, Operand.holds_ofInequality,
    affine.holds_safe_iff mem safely, means _ _ ρ known expected.1, expected.2,
    ← Family.value_self source]

/-- What the constraints on steps conclude. -/
theorem Affine.conclusions_hold_iff (affine : c.Affine m p bound lower upper)
    {falling rising : List Constraint} (decrease : c.decrease m i p = .ok falling)
    (increase : c.increase m i p = .ok rising) :
    List.Forall₂ (c.Guarantees p bound lower upper fun ρ x y => 0 ≤ x - ρ "Epsilon_live" - y)
      (m.stepsFrom fun s => !s.hasSignature && !s.isRejecting) falling ∧
    List.Forall₂ (c.Guarantees p bound lower upper fun ρ x y => y ≤ x + ρ "Delta_live")
      (m.stepsFrom State.hasSignature) rising := by
  have parameters := affine.linear.spec.2.2.2
  constructor
  · refine forall₂_of_mem (decrease_spec decrease) fun step member k made => ?_
    have piece := (Model.mem_stepsFrom.mp member).1
    exact affine.holds_conclusion_iff piece (fun ρ x y => 0 ≤ x - ρ "Epsilon_live" - y)
      (fun _ _ _ known after => parameters.holds_falls known after) made
  · refine forall₂_of_mem (increase_spec increase) fun step member k made => ?_
    have piece := (Model.mem_stepsFrom.mp member).1
    exact affine.holds_conclusion_iff piece (fun ρ x y => y ≤ x + ρ "Delta_live")
      (fun _ _ _ known after => parameters.holds_risesLittle known after) made

/-! ## A drifting system -/

def nextTexts (c : Certificate) (m : Model) (actions : List (String × Equation)) : List String :=
  m.dynamics.pieces.flatMap fun piece => [c.safe.family, c.live.family].flatMap fun family =>
    family.equations.map fun v => v.2.after (piece.nextUnder actions)

theorem readsExactly_of_nextTexts (only : ∀ accepting, p.act accepting = .ok actions)
    (checked : ∀ text ∈ c.nextTexts m actions, m.noise.readsExactly text) : c.ReadsExactly m p := by
  intro piece mem accepting actions' acts family inside state e got
  cases (only accepting).symm.trans acts
  obtain ⟨key, entry⟩ := Family.exists_of_get got
  refine Noise.readsExactly_sound (checked _ ?_)
  refine List.mem_flatMap.mpr ⟨piece, mem, List.mem_flatMap.mpr ⟨family, inside, ?_⟩⟩
  exact List.mem_map.mpr ⟨(key, e), entry, rfl⟩

def wandering : Model where
  space := []
  initial := []
  dynamics := ⟨.number (.int 1), [Supermartingale.drift.piece []]⟩
  noise := upward
  automaton := ⟨"0", [.make 0 [] [.make 0 [] ""] none none], [], [], [], []⟩

theorem synthesised_unguided : unguided.Synthesised 0 := by
  have idles : DecomposedPolicy.make (.number (.int 0)) (.number (.int 1)) (.number (.int 1)) 1 .null [] {} =
      .ok (unguided, {}) := rfl
  exact .intro Powers.Shelf.sound_empty rfl rfl (d := 1) ⟨.int 1, rfl, rfl⟩ (by decide +kernel) le_rfl idles

def wander : Except Error Certificate := do
  let v ← CertificateVariables.make (.number (.int 0)) (.number (.int 1))
  let (c, _) ← make (.number (.int 1)) (.number (.int 0)) (.number (.int 1)) 1 0 v ⟨[]⟩
  return c

theorem wander_sought {c : Certificate} (made : wander = .ok c) : c.Sought 1 1 := by
  obtain ⟨v, parameters, made⟩ := bind_eq_ok.mp made
  obtain ⟨⟨c', shelf⟩, templates, made⟩ := bind_eq_ok.mp made
  cases made
  exact .intro Powers.Shelf.sound_empty rfl ⟨.int 1, rfl, rfl⟩ (by decide +kernel) parameters
    (.of_whole (spellsWhole_digit (by decide))) (Supermartingale.readsExactly_sound (by decide +kernel)) templates

theorem wander_nextTexts : wander.toOption.map (nextTexts · wandering []) =
    some ["(V_safe_0_1)+(((D1)+(S1))*V_safe_0_2)", "(V_live0_0_1)+(((D1)+(S1))*V_live0_0_2)"] := by
  decide +kernel

theorem wander_steps : wander.toOption.any fun c =>
    (c.decrease wandering .trivial unguided).isOk && (c.increase wandering .trivial unguided).isOk := by
  decide +kernel

-- one evaluation for each text: together they need too much memory
theorem wander_reads_safe : upward.readsExactly "(V_safe_0_1)+(((D1)+(S1))*V_safe_0_2)" := by
  decide +kernel

theorem wander_reads_live : upward.readsExactly "(V_live0_0_1)+(((D1)+(S1))*V_live0_0_2)" := by
  decide +kernel

theorem wander_spec : ∃ c, wander = .ok c ∧ (c.decrease wandering .trivial unguided).isOk ∧
    (c.increase wandering .trivial unguided).isOk ∧ c.ReadsExactly wandering unguided := by
  obtain ⟨c, made, steps⟩ := exists_of_any wander_steps
  obtain ⟨falls, rises⟩ := Bool.and_eq_true_iff.mp steps
  refine ⟨c, made, falls, rises, readsExactly_of_nextTexts (fun accepting => rfl) fun text inside => ?_⟩
  have texts := wander_nextTexts
  rw [made] at texts
  have same : c.nextTexts wandering [] = _ := Option.some.inj texts
  rw [same] at inside
  rcases List.mem_pair.mp inside with rfl | rfl
  · exact wander_reads_safe
  · exact wander_reads_live

theorem wander_conclusions_hold_iff : ∃ (c : Certificate) (falling rising : List Constraint),
    c.Affine wandering unguided 1 0 2 ∧ c.decrease wandering .trivial unguided = .ok falling ∧
    c.increase wandering .trivial unguided = .ok rising ∧
    List.Forall₂ (c.Guarantees unguided 1 0 2 fun ρ x y => 0 ≤ x - ρ "Epsilon_live" - y)
      (wandering.stepsFrom fun s => !s.hasSignature && !s.isRejecting) falling ∧
    List.Forall₂ (c.Guarantees unguided 1 0 2 fun ρ x y => y ≤ x + ρ "Delta_live")
      (wandering.stepsFrom State.hasSignature) rising ∧
    (wandering.stepsFrom fun s => !s.hasSignature && !s.isRejecting).length = 1 := by
  obtain ⟨c, made, falls, rises, exactly⟩ := wander_spec
  obtain ⟨falling, falls⟩ := exists_of_isOk falls
  obtain ⟨rising, rises⟩ := exists_of_isOk rises
  have affine : c.Affine wandering unguided 1 0 2 := by
    refine ⟨wander_sought made, ⟨0, by decide, synthesised_unguided, fun piece member => ?_⟩,
      ⟨two_pos, 0, exact_upward⟩, exactly⟩
    cases List.mem_singleton.mp member
    exact ⟨Supermartingale.drift, ⟨by decide, by decide⟩, rfl⟩
  obtain ⟨decreases, increases⟩ := affine.conclusions_hold_iff falls rises
  exact ⟨c, falling, rising, affine, falls, rises, decreases, increases, rfl⟩

end Certificate

end Supermartingale
