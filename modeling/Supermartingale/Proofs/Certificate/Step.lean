import Supermartingale.Certificate.Step
import Supermartingale.Proofs.Except

/-!
# The constraints on steps

There is one constraint for every transition of every chosen state under every piece of the dynamics, in this order.
The safety condition of a transition does not depend on the other transitions.
-/

namespace Supermartingale

open List

variable {chosen : State → Bool} {m : Model}

section

variable {α β γ ε : Type} {P : α → β → Prop} {R : α → γ → Prop} {xs : List α} {ys : List β} {zs : List γ}

theorem forall₂_zip_trans {Q : α × β → γ → Prop} (compose : ∀ a b c, P a b → Q (a, b) c → R a c)
    (first : Forall₂ P xs ys) (second : Forall₂ Q (xs.zip ys) zs) : Forall₂ R xs zs := by
  induction first generalizing zs with
  | nil =>
    cases second
    exact .nil
  | cons head _ ih =>
    cases second with
    | cons next rest => exact .cons (compose _ _ _ head next) (ih rest)

theorem forall₂_trans {Q : β → γ → Prop} (compose : ∀ a b c, P a b → Q b c → R a c)
    (first : Forall₂ P xs ys) (second : Forall₂ Q ys zs) : Forall₂ R xs zs := by
  rw [← map_snd_zip (Nat.le_of_eq first.length_eq.symm), forall₂_map_left_iff] at second
  exact forall₂_zip_trans compose first second

theorem forall₂_flatten {δ : Type} {f : α → Except ε (List γ)} {items : α → List δ}
    {S : δ → γ → Prop} {rows : List (List γ)} (result : xs.mapM f = .ok rows)
    (each : ∀ x ∈ xs, ∀ row, f x = .ok row → Forall₂ S (items x) row) :
    Forall₂ S (xs.flatMap items) rows.flatten := by
  have pairs := mapM_eq_ok.mp result
  clear result
  induction pairs with
  | nil => exact .nil
  | cons head _ ih =>
    rw [forall_mem_cons] at each
    exact rel_append (each.1 _ head) (ih each.2)

end

/-! ## Steps of a model -/

/-- The steps from chosen states: a piece of the dynamics, a state and one of its transitions. -/
def Model.stepsFrom (m : Model) (chosen : State → Bool) : List (Piece × State × Transition) :=
  m.dynamics.pieces.flatMap fun piece => (m.automaton.states.filter chosen).flatMap fun s =>
    s.transitions.map fun t => (piece, s, t)

theorem Model.mem_stepsFrom {step : Piece × State × Transition} :
    step ∈ m.stepsFrom chosen ↔ step.1 ∈ m.dynamics.pieces ∧
      (step.2.1 ∈ m.automaton.states ∧ chosen step.2.1) ∧ step.2.2 ∈ step.2.1.transitions := by
  unfold stepsFrom
  constructor
  · intro mem
    obtain ⟨piece, known, mem⟩ := mem_flatMap.mp mem
    obtain ⟨s, state, mem⟩ := mem_flatMap.mp mem
    obtain ⟨t, transition, rfl⟩ := mem_map.mp mem
    exact ⟨known, mem_filter.mp state, transition⟩
  · rintro ⟨known, state, transition⟩
    exact mem_flatMap.mpr ⟨_, known, mem_flatMap.mpr ⟨_, mem_filter.mpr state,
      mem_map.mpr ⟨_, transition, rfl⟩⟩⟩

theorem Model.filter_stepsFrom (m : Model) (chosen also : State → Bool) :
    (m.stepsFrom chosen).filter (fun step => also step.2.1) =
      m.stepsFrom fun s => chosen s && also s := by
  have row (piece : Piece) (s : State) :
      (s.transitions.map fun t => (piece, s, t)).filter (fun step => also step.2.1) =
        if also s then s.transitions.map fun t => (piece, s, t) else [] := by
    rw [filter_map]
    cases value : also s with
    | true => simp [Function.comp_def, value]
    | false => simp [Function.comp_def, value]
  unfold stepsFrom
  rw [filter_flatMap]
  congr 1
  funext piece
  rw [filter_flatMap]
  induction m.automaton.states with
  | nil => rfl
  | cons s ss ih =>
    cases first : chosen s with
    | false => simpa [first] using ih
    | true =>
      cases second : also s with
      | false => simpa [first, second, row] using ih
      | true => simpa [first, second, row] using ih

theorem Model.stepsFrom_congr {chosen chosen' : State → Bool} (same : ∀ s ∈ m.automaton.states, chosen s = chosen' s) :
    m.stepsFrom chosen = m.stepsFrom chosen' := by
  unfold stepsFrom
  rw [filter_congr same]

theorem Model.forEachStep_spec {condition : Piece → State → Except Error (List Constraint)} {ks : List Constraint}
    {R : Piece × State × Transition → Constraint → Prop} (result : m.forEachStep chosen condition = .ok ks)
    (each : ∀ piece s row, condition piece s = .ok row →
      Forall₂ (fun t k => R (piece, s, t) k) s.transitions row) :
    Forall₂ R (m.stepsFrom chosen) ks := by
  obtain ⟨parts, pieces, same⟩ := bind_eq_ok.mp result
  cases same
  refine forall₂_flatten pieces fun piece _ part made => ?_
  obtain ⟨rows, states, same⟩ := bind_eq_ok.mp made
  cases same
  refine forall₂_flatten states fun s _ row made => ?_
  rw [forall₂_map_left_iff]
  exact each piece s row made

/-! ## Safety conditions -/

namespace Certificate

variable {c : Certificate} {m : Model} {i : Invariant} {p : DecomposedPolicy} {piece : Piece} {s : State}
  {t : Transition} {ks : List Constraint}

/-- The bounds on the fall of the safety template when it is taken at either end of the disturbance. -/
def fallBounds (v : CertificateVariables) (current low high : Equation) : List Inequality :=
  [.make (current.sub (v.safeOffset.add low)) .ge v.zero, .make (current.sub (v.safeOffset.add high)) .ge v.zero,
    .make (current.sub (v.safeOffset.add low)) .le v.stepBound,
    .make (current.sub (v.safeOffset.add high)) .le v.stepBound]

/-- What a step has to do to the safety template, given its values before the step, in expectation
after the step, and after the step at either end of the disturbance. -/
def safeFormula (v : CertificateVariables) (current expected low high : Equation) : Formula :=
  .joined (.ofInequality (.make ((current.sub v.safeDecrease).sub expected) .ge v.zero))
    (.ofInequalities (fallBounds v current low high)) (.known .conjunction)

inductive SafeStep (c : Certificate) (m : Model) (p : DecomposedPolicy) (piece : Piece) (s : State)
    (t : Transition) : Formula → Prop where
  | intro {actions : List (String × Equation)} {current target expected low high : Equation}
      (acts : p.act s.isAccepting = .ok actions)
      (source : c.safe.family.get (toString s.id) = .ok current)
      (destination : c.safe.family.get (toString t.destination) = .ok target)
      (mean : m.noise.expect (target.after (piece.nextUnder actions)) = .ok expected)
      (least : m.noise.atLower (target.after (piece.nextUnder actions)) = .ok low)
      (greatest : m.noise.atUpper (target.after (piece.nextUnder actions)) = .ok high) :
      SafeStep c m p piece s t (safeFormula c.parameters current expected low high)

theorem safeSteps_spec {fs : List Formula} (result : c.safeSteps m p piece s = .ok fs) :
    Forall₂ (SafeStep c m p piece s) s.transitions fs := by
  obtain ⟨actions, acts, result⟩ := bind_eq_ok.mp result
  obtain ⟨current, source, result⟩ := bind_eq_ok.mp result
  obtain ⟨targets, destinations, result⟩ := bind_eq_ok.mp result
  obtain ⟨_, _, result⟩ := bind_eq_ok.mp result
  obtain ⟨_, _, result⟩ := bind_eq_ok.mp result
  rw [mapM_eq_ok, forall₂_map_left_iff] at result
  refine forall₂_trans (fun t target f destination made => ?_) (mapM_eq_ok.mp destinations) result
  obtain ⟨expected, mean, made⟩ := bind_eq_ok.mp made
  obtain ⟨low, least, made⟩ := bind_eq_ok.mp made
  obtain ⟨high, greatest, made⟩ := bind_eq_ok.mp made
  cases made
  exact .intro acts source destination mean least greatest

/-- The safety condition of a transition is what the transition would have as the only one. -/
theorem SafeStep.safeSteps {f : Formula} (step : SafeStep c m p piece s t f) :
    c.safeSteps m p piece { s with transitions := [t] } = .ok [f] := by
  obtain ⟨acts, source, destination, mean, least, greatest⟩ := step
  obtain ⟨moments, known, _⟩ := bind_eq_ok.mp mean
  obtain ⟨ends, between, _⟩ := bind_eq_ok.mp least
  refine bind_eq_ok.mpr ⟨_, acts, bind_eq_ok.mpr ⟨_, source, bind_eq_ok.mpr ⟨_,
    mapM_eq_ok.mpr (.cons destination .nil), bind_eq_ok.mpr ⟨_, known, bind_eq_ok.mpr ⟨_, between,
    mapM_eq_ok.mpr (.cons ?_ .nil)⟩⟩⟩⟩⟩
  exact bind_eq_ok.mpr ⟨_, mean, bind_eq_ok.mpr ⟨_, least, bind_eq_ok.mpr ⟨_, greatest, rfl⟩⟩⟩

/-! ## Conditions on transitions -/

inductive StepConstraint (c : Certificate) (m : Model) (i : Invariant) (p : DecomposedPolicy)
    (live : Equation → Equation → Inequality) (piece : Piece) (s : State) (t : Transition) :
    Constraint → Prop where
  | intro {safe : Formula} {held : Inequality} {actions : List (String × Equation)}
      {level current target expected : Equation} (safely : SafeStep c m p piece s t safe)
      (premise : c.safe.family.get (toString s.id) = .ok level)
      (invariant : i.holdsAt (toString s.id) = .ok held)
      (acts : p.act s.isAccepting = .ok actions)
      (source : c.live.family.get (toString s.id) = .ok current)
      (destination : c.live.family.get (toString t.destination) = .ok target)
      (mean : m.noise.expect (target.after (piece.nextUnder actions)) = .ok expected) :
      StepConstraint c m i p live piece s t (.implication c.names
        (some (.joined (.ofInequalities (m.space ++ piece.condition))
          (.one (m.guarded t (.ofInequalities [.make level .le c.parameters.zero, held])))
          (.known .conjunction)))
        (.joined (.one safe) (.ofInequality (live current expected)) (.known .conjunction)))

theorem steps_spec {live : Equation → Equation → Inequality} (result : c.steps m i p live piece s = .ok ks) :
    Forall₂ (StepConstraint c m i p live piece s) s.transitions ks := by
  obtain ⟨fs, safely, result⟩ := bind_eq_ok.mp result
  refine forall₂_zip_trans (fun t f k step made => ?_) (safeSteps_spec safely) (mapM_eq_ok.mp result)
  obtain ⟨premise, placed, made⟩ := bind_eq_ok.mp made
  obtain ⟨actions, acts, made⟩ := bind_eq_ok.mp made
  obtain ⟨current, source, made⟩ := bind_eq_ok.mp made
  obtain ⟨target, destination, made⟩ := bind_eq_ok.mp made
  obtain ⟨expected, mean, made⟩ := bind_eq_ok.mp made
  obtain ⟨level, known, placed⟩ := bind_eq_ok.mp placed
  obtain ⟨held, invariant, placed⟩ := bind_eq_ok.mp placed
  cases placed
  cases made
  exact .intro step known invariant acts source destination mean

def falls (v : CertificateVariables) (current expected : Equation) : Inequality :=
  .make ((current.sub v.liveDecrease).sub expected) .ge v.zero

def risesLittle (v : CertificateVariables) (current expected : Equation) : Inequality :=
  .make expected .le (current.add v.liveStep)

theorem decrease_spec (result : c.decrease m i p = .ok ks) :
    Forall₂ (fun step k =>
        StepConstraint c m i p (falls c.parameters) step.1 step.2.1 step.2.2 k)
      (m.stepsFrom fun s => !s.hasSignature && !s.isRejecting) ks :=
  Model.forEachStep_spec result fun _ _ _ made => steps_spec made

theorem increase_spec (result : c.increase m i p = .ok ks) :
    Forall₂ (fun step k =>
        StepConstraint c m i p (risesLittle c.parameters) step.1 step.2.1 step.2.2 k)
      (m.stepsFrom State.hasSignature) ks :=
  Model.forEachStep_spec result fun _ _ _ made => steps_spec made

/-- The policy of a system without actions. -/
def unguided : DecomposedPolicy := ⟨.number (.int 0), .number (.int 1), [], [], []⟩

end Certificate

end Supermartingale
