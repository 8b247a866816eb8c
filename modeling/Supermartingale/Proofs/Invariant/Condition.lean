import Supermartingale.Proofs.Certificate.Step
import Supermartingale.Proofs.Certificate.Template
import Supermartingale.Proofs.Constraint.Truth

/-!
# What the conditions on an invariant mean

For one state variable, the conditions say that the template of the first automaton state is not negative in the
initial states, and that a step from where the template of its source is not negative leads to where that of its
destination is not, for all values of the disturbances.
-/

namespace Supermartingale

open List Function Equation Expression

/-! ## Values at a step -/

/-- The values of names when the state variable and the disturbances have values of their own. -/
noncomputable def stepValues (disturbances : List String) (ρ w : String → ℝ) (x : ℝ) : String → ℝ :=
  update (fun s => if s ∈ disturbances then w s else ρ s) "S1" x

section

variable {disturbances : List String} {ρ w : String → ℝ} {x : ℝ} {s : String}

theorem stepValues_state : stepValues disturbances ρ w x "S1" = x := update_self ..

theorem stepValues_of_not_mem (other : s ∉ disturbances) :
    stepValues disturbances ρ w x s = update ρ "S1" x s := by
  by_cases state : s = "S1"
  · subst state
    simp [stepValues]
  · simp [stepValues, update_of_ne state, other]

theorem stepValues_of_mem (mem : s ∈ disturbances) (other : s ≠ "S1") :
    stepValues disturbances ρ w x s = w s := by
  simp [stepValues, update_of_ne other, mem]

theorem forall_stepValues_iff {P : (String → ℝ) → Prop} :
    (∀ σ : String → ℝ, (∀ s ∉ "S1" :: disturbances, σ s = ρ s) → P σ) ↔
      ∀ x w, P (stepValues disturbances ρ w x) := by
  constructor
  · intro all x w
    refine all _ fun s outside => ?_
    rw [mem_cons, not_or] at outside
    obtain ⟨other, free⟩ := outside
    rw [stepValues_of_not_mem free, update_of_ne other]
  · intro all σ agree
    have same : stepValues disturbances ρ σ (σ "S1") = σ := by
      funext s
      by_cases state : s = "S1"
      · subst state
        exact stepValues_state
      · by_cases mem : s ∈ disturbances
        · exact stepValues_of_mem mem state
        · rw [stepValues_of_not_mem mem, update_of_ne state]
          exact (agree s (by simp [state, mem])).symm
    exact same ▸ all (σ "S1") σ

end

/-! ## Disturbances -/

namespace Noise

variable {noise : Noise} {names : List String} {bounds : List (String × String × String)} {v : String × String × String}

theorem variableName_eq (i : ℕ) : variableName i = variableOf 'D' (i + 1) := (variableOf_eq 'D' (i + 1)).symm

theorem exists_of_mem_names (named : noise.names = .ok names) {s : String} (mem : s ∈ names) :
    ∃ i, s = variableOf 'D' (i + 1) := by
  obtain ⟨n, _, same⟩ := bind_eq_ok.mp named
  cases same
  obtain ⟨i, _, rfl⟩ := mem_map.mp mem
  exact ⟨i, variableName_eq i⟩

theorem mem_names_of_bounds (named : noise.names = .ok names) (known : noise.bounds = .ok bounds)
    (mem : v ∈ bounds) : v.1 ∈ names := by
  obtain ⟨n, counted, same⟩ := bind_eq_ok.mp named
  cases same
  unfold Noise.bounds at known
  split at known
  · cases known
    cases mem
  · obtain ⟨n', counted', known⟩ := bind_eq_ok.mp known
    cases counted.symm.trans counted'
    obtain ⟨i, inside, made⟩ := exists_of_mem_mapM known mem
    obtain ⟨a, _, made⟩ := bind_eq_ok.mp made
    obtain ⟨b, _, made⟩ := bind_eq_ok.mp made
    cases made
    exact mem_map_of_mem inside

/-- The disturbances have values within their bounds, where bounds are known. -/
def Allows (noise : Noise) (w : String → ℝ) : Prop :=
  ∀ bounds, noise.bounds = .ok bounds → ∀ v ∈ bounds,
    (spelled v.2.1 : ℝ) ≤ w v.1 ∧ w v.1 ≤ (spelled v.2.2 : ℝ)

/-- The bounds are numbers that are read exactly. -/
def BoundsReadExactly (noise : Noise) : Prop :=
  ∀ bounds, noise.bounds = .ok bounds → ∀ v ∈ bounds, ∀ text ∈ [v.2.1, v.2.2],
    (∃ q, Spells text q) ∧ Supermartingale.ReadsExactly text

theorem BoundsReadExactly.stands (exactly : noise.BoundsReadExactly) (known : noise.bounds = .ok bounds)
    (mem : v ∈ bounds) {text : String} (inside : text ∈ [v.2.1, v.2.2])
    {e : Equation} (made : ofText text = .ok e) : e.Stands fun _ => spelled text := by
  obtain ⟨⟨q, spells⟩, reads⟩ := exactly bounds known v mem text inside
  rw [spells.spelled_eq]
  exact spells.stands reads made

/-- The inequalities for the disturbances hold for the values within the bounds. -/
theorem BoundsReadExactly.hold_inequalities_iff (exactly : noise.BoundsReadExactly)
    (named : noise.names = .ok names) {is : List Inequality} (made : noise.inequalities = .ok is)
    (σ : String → ℝ) : (∀ i ∈ is, i.Holds σ) ↔ noise.Allows σ := by
  obtain ⟨bounds, known, made⟩ := bind_eq_ok.mp made
  obtain ⟨pairs, read, made⟩ := bind_eq_ok.mp made
  cases made
  -- the two inequalities for one disturbance
  have each : Forall₂ (fun v pair => (∀ i ∈ pair, i.Holds σ) ↔
      (spelled v.2.1 : ℝ) ≤ σ v.1 ∧ σ v.1 ≤ (spelled v.2.2 : ℝ)) bounds pairs := by
    refine forall₂_of_mem (mapM_eq_ok.mp read) fun v mem pair made => ?_
    obtain ⟨left, name, made⟩ := bind_eq_ok.mp made
    obtain ⟨lower, least, made⟩ := bind_eq_ok.mp made
    obtain ⟨left', name', made⟩ := bind_eq_ok.mp made
    obtain ⟨upper, greatest, made⟩ := bind_eq_ok.mp made
    cases name.symm.trans name'
    cases made
    obtain ⟨i, same⟩ := exists_of_mem_names named (mem_names_of_bounds named known mem)
    have unknown : IsUnknown v.1 := same ▸ isUnknown_variableOf (by decide) (i + 1)
    have value := stands_name unknown name
    have low := exactly.stands known mem (by simp) least
    have high := exactly.stands known mem (by simp) greatest
    simp only [forall_mem_cons, not_mem_nil, IsEmpty.forall_iff, implies_true, and_true,
      Inequality.holds_make _ σ value.1 low.1, Inequality.holds_make _ σ value.1 high.1, value.2,
      low.2, high.2, Relation.relax, Relation.Compares]
  constructor
  · intro holds bounds' known' v mem
    cases known.symm.trans known'
    obtain ⟨pair, inside, same⟩ := exists_of_mem_left each mem
    exact same.mp fun i mem => holds i (mem_flatten_of_mem inside mem)
  · intro allowed i mem
    obtain ⟨pair, inside, mem⟩ := mem_flatten.mp mem
    obtain ⟨v, bounded, same⟩ := exists_of_mem_right each inside
    exact same.mpr (allowed bounds known v bounded) i mem

theorem allows_stepValues_iff (named : noise.names = .ok names) {ρ w : String → ℝ} {x : ℝ} :
    noise.Allows (stepValues names ρ w x) ↔ noise.Allows w := by
  have same {bounds : List (String × String × String)} (known : noise.bounds = .ok bounds)
      {v : String × String × String} (mem : v ∈ bounds) : stepValues names ρ w x v.1 = w v.1 := by
    have inside := mem_names_of_bounds named known mem
    refine stepValues_of_mem inside fun state => ?_
    obtain ⟨i, name⟩ := exists_of_mem_names named inside
    exact not_mem_variableOf (by decide) (by decide) (i + 1)
      (name ▸ state ▸ by decide : 'S' ∈ (variableOf 'D' (i + 1)).toList)
  constructor
  · intro allowed bounds known v mem
    rw [← same known mem]
    exact allowed bounds known v mem
  · intro allowed bounds known v mem
    rw [same known mem]
    exact allowed bounds known v mem

end Noise

/-! ## Conditions on the state -/

/-- No disturbance is in a polynomial. -/
def Equation.IsUndisturbed (e : Equation) : Prop := ∀ m ∈ e.monomials, ∀ v ∈ m.powers, 'D' ∉ v.1.toList

theorem Equation.IsUndisturbed.eval_congr {e : Equation} (undisturbed : e.IsUndisturbed) {ρ σ : String → ℝ}
    (agree : ∀ s : String, 'D' ∉ s.toList → ρ s = σ s) : e.eval ρ = e.eval σ := by
  unfold eval Monomial.eval Monomial.powersValue
  refine congrArg List.sum (map_congr_left fun m mem => ?_)
  refine congrArg (m.coefficient.written • List.prod ·) (map_congr_left fun v power => ?_)
  dsimp only
  rw [agree v.1 (undisturbed m mem v power)]

/-- No disturbance is in an inequality. -/
def Inequality.IsUndisturbed (i : Inequality) : Prop := i.left.IsUndisturbed ∧ i.right.IsUndisturbed

/-- All inequalities hold where the state variable has a value. -/
def Inequality.HoldAt (is : List Inequality) (ρ : String → ℝ) (x : ℝ) : Prop :=
  ∀ i ∈ is, i.Holds (update ρ "S1" x)

section

variable {noise : Noise} {names : List String} (named : noise.names = .ok names) {ρ w : String → ℝ} {x : ℝ}
include named

theorem Noise.stepValues_undisturbed {s : String} (free : 'D' ∉ s.toList) :
    stepValues names ρ w x s = update ρ "S1" x s := by
  refine stepValues_of_not_mem fun mem => ?_
  obtain ⟨i, rfl⟩ := exists_of_mem_names named mem
  rw [toList_variableOf] at free
  exact free mem_cons_self

theorem Inequality.holds_stepValues_iff {is : List Inequality} (undisturbed : ∀ i ∈ is, i.IsUndisturbed) :
    (∀ i ∈ is, i.Holds (stepValues names ρ w x)) ↔ HoldAt is ρ x := by
  refine forall₂_congr fun i mem => ?_
  have agree : ∀ s : String, 'D' ∉ s.toList → stepValues names ρ w x s = update ρ "S1" x s :=
    fun s free => Noise.stepValues_undisturbed named free
  unfold Holds
  rw [(undisturbed i mem).1.eval_congr agree, (undisturbed i mem).2.eval_congr agree]

theorem Equation.OverState.eval_update_stepValues {e : Equation} (inState : e.OverState) (y : ℝ) :
    e.eval (update (stepValues names ρ w x) "S1" y) = e.eval (update ρ "S1" y) := by
  rw [← evalPowers_eq_eval, ← evalPowers_eq_eval]
  refine inState.written.evalPowers_congr fun s mem => funext fun n => ?_
  by_cases state : s = "S1"
  · subst state
    simp
  · rw [update_of_ne state, update_of_ne state, Noise.stepValues_undisturbed named,
      update_of_ne state]
    exact not_mem_of_overState (inState.names s mem) (by decide)

theorem Equation.OverState.eval_stepValues {e : Equation} (inState : e.OverState) :
    e.eval (stepValues names ρ w x) = e.eval (update ρ "S1" x) := by
  have same : update (stepValues names ρ w x) "S1" x = stepValues names ρ w x := update_idem ..
  rw [← same, inState.eval_update_stepValues named]

end

/-! ## Templates -/

namespace InvariantTemplate

/-- An invariant of a degree to be found for one state variable. -/
inductive Sought : InvariantTemplate → ℤ → Prop where
  | intro {states actions degree : Value} {count : ℕ} {d : ℤ} {shelf shelf' : Powers.Shelf}
      {t : InvariantTemplate} (sound : shelf.Sound) (single : states.count = .ok 1)
      (isDegree : degree.IsDegree d) (writable : isWritable d.toNat)
      (made : make states actions degree count shelf = .ok (t, shelf')) : Sought t d

theorem isStem_invariant : IsStem "I" := by
  refine ⟨⟨'I', [], by decide, by decide, by simp⟩, ?_⟩
  unfold IsConstant
  decide

theorem Sought.spec {t : InvariantTemplate} (sought : t.Sought d) :
    t.names = ["S1"] ∧ isWritable d.toNat ∧ t.family.Templates "I" d := by
  obtain ⟨sound, single, isDegree, writable, made⟩ := sought
  obtain ⟨n, counted, made⟩ := bind_eq_ok.mp made
  obtain ⟨⟨rows, shelf₁⟩, got, made⟩ := bind_eq_ok.mp made
  obtain ⟨family, templates, made⟩ := bind_eq_ok.mp made
  cases made
  cases single.symm.trans counted
  obtain ⟨_, d', n, isDegree', dimension, rfl⟩ := sound.get got
  cases isDegree.unique isDegree'
  cases single.symm.trans dimension
  rw [stateNames_one] at templates ⊢
  exact ⟨rfl, writable, Family.templates_make templates⟩

theorem Sought.overState {t : InvariantTemplate} (sought : t.Sought d) {state : String} {e : Equation}
    (got : t.family.get state = .ok e) : e.OverState := by
  obtain ⟨_, writable, templates⟩ := sought.spec
  exact templates.overState isStem_invariant writable got

/-! ## Constraints -/

variable {t : InvariantTemplate} {m : Model} {p : DecomposedPolicy} {piece : Piece} {s : State} {tr : Transition}
  {ks : List Constraint} {d : ℤ}

/-- With a single acceptance set the only actions are those of the policy that acts. -/
theorem possibleActions_eq (single : m.automaton.sets = [0]) (s : State) :
    possibleActions m p s = (p.act s.isAccepting).map fun actions => [actions] := by
  unfold possibleActions DecomposedPolicy.act
  cases p.isIdle with
  | true => rfl
  | false =>
    cases s.isAccepting with
    | true =>
      cases got : p.get .buchi (some 0) with
      | error e => simp [single, got, bind, Except.bind, Except.map]
      | ok q => simp [single, got, bind, Except.bind, Except.map, pure, Except.pure]
    | false =>
      cases p.get .reach with
      | error e => rfl
      | ok q => rfl

inductive StartConstraint (t : InvariantTemplate) (m : Model) : Constraint → Prop where
  | intro {zero start : Equation} (nothing : ofText "0" = .ok zero)
      (got : t.family.get m.automaton.start = .ok start) :
      StartConstraint t m (.implication t.names
        (some (.joined (.ofInequalities (m.space ++ m.initial)) .absent (.known .conjunction)))
        (.joined (.ofInequality (.make start .ge zero)) .absent (.known .conjunction)))

theorem initial_spec (result : t.initial m = .ok ks) : ∃ k, ks = [k] ∧ StartConstraint t m k := by
  obtain ⟨zero, nothing, result⟩ := bind_eq_ok.mp result
  obtain ⟨start, got, result⟩ := bind_eq_ok.mp result
  cases result
  exact ⟨_, rfl, .intro nothing got⟩

inductive StepConstraint (t : InvariantTemplate) (m : Model) (p : DecomposedPolicy) (piece : Piece)
    (s : State) (tr : Transition) : Constraint → Prop where
  | intro {zero current target next : Equation} {names : List String} {noise : List Inequality}
      {actions : List (String × Equation)} (nothing : ofText "0" = .ok zero)
      (named : m.noise.names = .ok names) (bounded : m.noise.inequalities = .ok noise)
      (acts : p.act s.isAccepting = .ok actions)
      (source : t.family.get (toString s.id) = .ok current)
      (destination : t.family.get (toString tr.destination) = .ok target)
      (after : ofText (target.after (piece.nextUnder actions)) = .ok next) :
      StepConstraint t m p piece s tr (.implication (t.names ++ names)
        (some (.joined (.list ((m.space ++ noise ++ piece.condition).map .inequality ++
          [m.guarded tr (.ofInequality (.make current .ge zero))])) .absent (.known .conjunction)))
        (.joined (.ofInequalities [.make next .ge zero]) .absent (.known .conjunction)))

theorem induction_spec (single : m.automaton.sets = [0]) (result : t.induction m p = .ok ks) :
    Forall₂ (fun step k => StepConstraint t m p step.1 step.2.1 step.2.2 k)
      (m.stepsFrom fun _ => true) ks := by
  obtain ⟨zero, nothing, result⟩ := bind_eq_ok.mp result
  obtain ⟨names, named, result⟩ := bind_eq_ok.mp result
  obtain ⟨noise, bounded, result⟩ := bind_eq_ok.mp result
  refine Model.forEachStep_spec result fun piece s row made => ?_
  obtain ⟨current, source, made⟩ := bind_eq_ok.mp made
  obtain ⟨possible, chosen, made⟩ := bind_eq_ok.mp made
  obtain ⟨targets, destinations, made⟩ := bind_eq_ok.mp made
  rw [possibleActions_eq single] at chosen
  obtain ⟨actions, acts, rfl⟩ : ∃ actions, p.act s.isAccepting = .ok actions ∧ possible = [actions] := by
    cases act : p.act s.isAccepting with
    | error e => simp [act, Except.map] at chosen
    | ok actions =>
      rw [act] at chosen
      cases chosen
      exact ⟨actions, rfl, rfl⟩
  refine forall₂_trans (fun tr target k got made => ?_) (mapM_eq_ok.mp destinations) (mapM_eq_ok.mp made)
  obtain ⟨target', destination, same⟩ := bind_eq_ok.mp got
  cases same
  obtain ⟨premise, placed, made⟩ := bind_eq_ok.mp made
  obtain ⟨kept, read, made⟩ := bind_eq_ok.mp made
  cases placed
  cases made
  rw [map_singleton, mapM_eq_ok, forall₂_cons_left_iff] at read
  obtain ⟨inequality, others, reads, rest, rfl⟩ := read
  cases forall₂_nil_left_iff.mp rest
  obtain ⟨next, after, same⟩ := bind_eq_ok.mp reads
  cases same
  exact .intro nothing named bounded acts source destination after

end InvariantTemplate

end Supermartingale
