import Supermartingale.Proofs.Certificate.Meaning
import Supermartingale.Proofs.Invariant.Condition

/-!
# Invariants hold along runs

A step of the closed loop takes a piece of the dynamics that applies, disturbances within their bounds and a
transition whose label holds, and stays in the space of the system. Where the constraints on an invariant are true,
its template is not negative along every run.
-/

namespace Supermartingale

open List Certificate Equation Operand

/-- The automaton and the system after finitely many steps of the closed loop. Labels are true or false at a
state, constants have values. -/
inductive Model.Reachable (m : Model) (p : DecomposedPolicy) (truth : Guard → ℝ → Prop) (ρ : String → ℝ) :
    State → ℝ → Prop where
  | start {s : State} {x : ℝ} (listed : s ∈ m.automaton.states) (first : toString s.id = m.automaton.start)
      (inside : Inequality.HoldAt m.space ρ x) (initial : Inequality.HoldAt m.initial ρ x) :
      Reachable m p truth ρ s x
  | step {s s' : State} {x x' : ℝ} {piece : Piece} {tr : Transition} {actions : List (String × Equation)}
      {disturbances : List String} {w : String → ℝ} (run : Reachable m p truth ρ s x)
      (known : piece ∈ m.dynamics.pieces) (applies : Inequality.HoldAt piece.condition ρ x)
      (named : m.noise.names = .ok disturbances) (allowed : m.noise.Allows w)
      (transition : tr ∈ s.transitions) (label : truth (m.guard tr) x)
      (acts : p.act s.isAccepting = .ok actions)
      (moves : x' = piece.nextState actions (stepValues disturbances ρ w x))
      (inside : Inequality.HoldAt m.space ρ x') (listed : s' ∈ m.automaton.states)
      (leads : s'.id = tr.destination) : Reachable m p truth ρ s' x'

namespace InvariantTemplate

/-- The template of an automaton state is not negative where the state variable has a value. -/
def NonnegAt (t : InvariantTemplate) (state : String) (ρ : String → ℝ) (x : ℝ) : Prop :=
  ∃ e, t.family.get state = .ok e ∧ 0 ≤ e.eval (Function.update ρ "S1" x)

/-- Systems with one state variable and up to nine actions, one acceptance set, and exact arithmetic. -/
structure ClosedLoop (t : InvariantTemplate) (m : Model) (p : DecomposedPolicy) : Prop where
  sought : ∃ d, t.Sought d
  policy : ∃ actions ≤ 9, p.Synthesised actions ∧ ∀ piece ∈ m.dynamics.pieces,
    ∃ (disturbances : ℕ) (f : Transform actions disturbances), piece = f.piece piece.condition
  single : m.automaton.sets = [0]
  space : ∀ i ∈ m.space, i.IsUndisturbed
  conditions : ∀ piece ∈ m.dynamics.pieces, ∀ i ∈ piece.condition, i.IsUndisturbed
  bounds : m.noise.BoundsReadExactly
  exactly : ∀ piece ∈ m.dynamics.pieces, ∀ accepting actions, p.act accepting = .ok actions →
    ∀ state e, t.family.get state = .ok e → ReadsExactly (e.after (piece.nextUnder actions))

variable {t : InvariantTemplate} {m : Model} {p : DecomposedPolicy} {piece : Piece} {s : State} {tr : Transition}
  {k : Constraint} {truth : Guard → ℝ → Prop} {ρ : String → ℝ} {actions : List (String × Equation)} {state : String}
  {e : Equation}

/-! ## The meaning of the constraints -/

theorem nonnegAt_iff (got : t.family.get state = .ok e) (x : ℝ) :
    t.NonnegAt state ρ x ↔ 0 ≤ e.eval (Function.update ρ "S1" x) := by
  constructor
  · rintro ⟨e', got', nonneg⟩
    cases got.symm.trans got'
    exact nonneg
  · exact fun nonneg => ⟨e, got, nonneg⟩

theorem holds_nonneg_iff {zero e : Equation} (nothing : ofText "0" = .ok zero)
    (numeric : e.IsNumeric) (σ : String → ℝ) : (Inequality.make e .ge zero).Holds σ ↔ 0 ≤ e.eval σ := by
  have none := stands_zero nothing
  rw [Inequality.holds_make .ge σ numeric none.1, none.2]
  rfl

theorem Sought.holds_start_iff {d : ℤ} (sought : t.Sought d) (starts : StartConstraint t m k) :
    k.Holds (fun g σ => truth g (σ "S1")) ρ ↔ ∀ x, Inequality.HoldAt m.space ρ x →
      Inequality.HoldAt m.initial ρ x → t.NonnegAt m.automaton.start ρ x := by
  obtain ⟨nothing, got⟩ := starts
  have numeric := (sought.overState got).written.isNumeric
  rw [sought.spec.1, Constraint.Holds, forall_stepValues_iff]
  -- nothing but the state variable is bound
  have values (x : ℝ) (w : String → ℝ) : stepValues [] ρ w x = Function.update ρ "S1" x := rfl
  simp only [values, Option.mem_some_iff, forall_eq', Formula.holds_conjunction, holds_ofInequalities,
    holds_ofInequality, holds_absent, and_true, forall_mem_append,
    holds_nonneg_iff nothing numeric, nonnegAt_iff got]
  exact ⟨fun holds x inside initial => holds x ρ ⟨inside, initial⟩,
    fun holds x _ premise => holds x premise.1 premise.2⟩

theorem ClosedLoop.stands_next (closed : t.ClosedLoop m p) (known : piece ∈ m.dynamics.pieces)
    {accepting : Bool} (acts : p.act accepting = .ok actions)
    {target next : Equation} (got : t.family.get state = .ok target)
    (after : ofText (target.after (piece.nextUnder actions)) = .ok next) :
    next.Stands fun σ => target.eval (Function.update σ "S1" (piece.nextState actions σ)) := by
  obtain ⟨d, sought⟩ := closed.sought
  obtain ⟨n, few, synthesised, transforms⟩ := closed.policy
  obtain ⟨u, feedback⟩ := synthesised.exists_feedback accepting
  cases feedback.symm.trans acts
  obtain ⟨_, f, same⟩ := transforms piece known
  have exactly := closed.exactly piece known accepting _ acts state target got
  rw [same] at after exactly ⊢
  obtain ⟨phrase, text, value⟩ := f.exists_after_eval (R := ℝ) u piece.condition few (sought.overState got)
  rw [← text] at after exactly
  obtain ⟨numeric, values⟩ := exactly.phrase after
  exact ⟨numeric, fun σ => (values σ).trans (value σ)⟩

theorem ClosedLoop.holds_step_iff (closed : t.ClosedLoop m p) (known : piece ∈ m.dynamics.pieces)
    (step : StepConstraint t m p piece s tr k) :
    k.Holds (fun g σ => truth g (σ "S1")) ρ ↔
      ∀ actions disturbances x w, p.act s.isAccepting = .ok actions → m.noise.names = .ok disturbances →
        Inequality.HoldAt m.space ρ x → m.noise.Allows w → Inequality.HoldAt piece.condition ρ x →
        truth (m.guard tr) x → t.NonnegAt (toString s.id) ρ x → t.NonnegAt (toString tr.destination) ρ
          (piece.nextState actions (stepValues disturbances ρ w x)) := by
  obtain ⟨nothing, named, bounded, acts, source, destination, after⟩ := step
  obtain ⟨d, sought⟩ := closed.sought
  have current := sought.overState source
  have target := sought.overState destination
  have next := closed.stands_next known acts destination after
  rw [sought.spec.1, Constraint.Holds, singleton_append, forall_stepValues_iff]
  simp only [Option.mem_some_iff, forall_eq', Formula.holds_conjunction, holds_list,
    holds_ofInequalities, holds_ofInequality, holds_absent, and_true,
    forall_mem_append, forall_mem_map, forall_mem_singleton, Formula.holds_inequality,
    Model.guarded, Formula.holds_guarded, holds_nonneg_iff nothing current.written.isNumeric,
    holds_nonneg_iff nothing next.1, Inequality.holds_stepValues_iff named closed.space,
    Inequality.holds_stepValues_iff named (closed.conditions piece known),
    closed.bounds.hold_inequalities_iff named bounded, Noise.allows_stepValues_iff named, stepValues_state,
    current.eval_stepValues named, next.2, target.eval_update_stepValues named, nonnegAt_iff source,
    nonnegAt_iff destination]
  constructor
  · intro holds actions' disturbances x w acts' named' inside allowed applies label nonneg
    cases acts.symm.trans acts'
    cases named.symm.trans named'
    exact holds x w ⟨⟨⟨inside, allowed⟩, applies⟩, label, nonneg⟩
  · rintro holds x w ⟨⟨⟨inside, allowed⟩, applies⟩, label, nonneg⟩
    exact holds _ _ x w acts named inside allowed applies label nonneg

/-! ## Runs -/

/-- What is true along a run. -/
structure Keeps (t : InvariantTemplate) (m : Model) (ρ : String → ℝ) (s : State) (x : ℝ) : Prop where
  listed : s ∈ m.automaton.states
  inside : Inequality.HoldAt m.space ρ x
  nonneg : t.NonnegAt (toString s.id) ρ x

section

variable {starts steps : List Constraint} {x : ℝ}

theorem Sought.keeps_start {d : ℤ} (sought : t.Sought d) (initial : t.initial m = .ok starts)
    (holds : ∀ k ∈ starts, k.Holds (fun g σ => truth g (σ "S1")) ρ) (listed : s ∈ m.automaton.states)
    (first : toString s.id = m.automaton.start) (inside : Inequality.HoldAt m.space ρ x)
    (begins : Inequality.HoldAt m.initial ρ x) : t.Keeps m ρ s x := by
  obtain ⟨k, rfl, constraint⟩ := initial_spec initial
  have implied := (sought.holds_start_iff constraint).mp (holds k mem_cons_self)
  exact ⟨listed, inside, first ▸ implied x inside begins⟩

theorem ClosedLoop.exists_constraint (closed : t.ClosedLoop m p) (induction : t.induction m p = .ok steps)
    (known : piece ∈ m.dynamics.pieces) (listed : s ∈ m.automaton.states) (transition : tr ∈ s.transitions) :
    ∃ k ∈ steps, StepConstraint t m p piece s tr k := by
  have mem : (piece, s, tr) ∈ m.stepsFrom fun _ => true := Model.mem_stepsFrom.mpr ⟨known, ⟨listed, rfl⟩, transition⟩
  exact exists_of_mem_left (induction_spec closed.single induction) mem

theorem ClosedLoop.keeps_of_reachable (closed : t.ClosedLoop m p) (initial : t.initial m = .ok starts)
    (induction : t.induction m p = .ok steps)
    (holds : ∀ k ∈ starts ++ steps, k.Holds (fun g σ => truth g (σ "S1")) ρ)
    (reachable : m.Reachable p truth ρ s x) : t.Keeps m ρ s x := by
  obtain ⟨d, sought⟩ := closed.sought
  obtain ⟨begins, continues⟩ := forall_mem_append.mp holds
  induction reachable with
  | start listed first inside initially =>
    exact sought.keeps_start initial begins listed first inside initially
  | step _ known applies named allowed transition label acts moves inside listed leads kept =>
    obtain ⟨k, mem, constraint⟩ := closed.exists_constraint induction known kept.listed transition
    have implied := (closed.holds_step_iff known constraint).mp (continues k mem)
    have nonneg := implied _ _ _ _ acts named kept.inside allowed applies label kept.nonneg
    refine ⟨listed, inside, ?_⟩
    rw [leads, moves]
    exact nonneg

end

/-! ## A system that climbs -/

def climbing : Model where
  space := []
  initial := [⟨⟨[⟨.exact 1, [("S1", .int 1)]⟩]⟩, .ge, .zero⟩]
  dynamics := ⟨.number (.int 1), [drift.piece []]⟩
  noise := upward
  automaton := ⟨"0", [.make 0 [] [.make 1 [] ""] none none, .make 1 [0] [.make 0 [] "", .make 1 [] "0"] none none],
    [0], ["p"], [], [("0", "S1 >= 5")]⟩

def climb : Except Error (InvariantTemplate × List Constraint × List Constraint) := do
  let (t, _) ← make (.number (.int 1)) (.number (.int 0)) (.number (.int 1)) 2 ⟨[]⟩
  let starts ← t.initial climbing
  let steps ← t.induction climbing unguided
  return (t, starts, steps)

/-- Whether the templates at the next state are read exactly under some actions. -/
def readsExactly (t : InvariantTemplate) (m : Model) (actions : List (String × Equation)) : Bool :=
  m.dynamics.pieces.all fun piece => t.family.equations.all fun v =>
    Supermartingale.readsExactly (v.2.after (piece.nextUnder actions))

theorem climb_checked : climb.toOption.any fun result => result.1.readsExactly climbing [] := by
  decide +kernel

theorem readsExactly_sound (checked : t.readsExactly m actions)
    (known : piece ∈ m.dynamics.pieces) (got : t.family.get state = .ok e) :
    ReadsExactly (e.after (piece.nextUnder actions)) := by
  obtain ⟨key, entry⟩ := Family.exists_of_get got
  have each := all_eq_true.mp checked piece known
  exact Supermartingale.readsExactly_sound (all_eq_true.mp each (key, e) entry)

noncomputable def slope (s : String) : ℝ := if s.toList.getLast? = some '2' then 1 else 0

theorem Sought.nonnegAt_slope_iff (sought : t.Sought 1)
    (got : t.family.get state = .ok e) (x : ℝ) : t.NonnegAt state slope x ↔ 0 ≤ x := by
  obtain ⟨_, _, templates⟩ := sought.spec
  obtain ⟨i, made⟩ := templates state e got
  have digits : Nat.toDigits 10 1 = ['1'] ∧ Nat.toDigits 10 2 = ['2'] := by decide
  have level : slope (powerConstant ("I" ++ "_" ++ toString i) 0) = 0 := by
    simp [slope, powerConstant, List.getLast?_append, List.getLast?_cons, digits]
  have rise : slope (powerConstant ("I" ++ "_" ++ toString i) 1) = 1 := by
    simp [slope, powerConstant, List.getLast?_append, List.getLast?_cons, digits]
  rw [nonnegAt_iff got, Powers.eval_template (d := 1) (isStem_invariant.indexed i) made,
    Finset.sum_range_succ, Finset.sum_range_one, level, rise]
  simp

theorem climbing_moves (w : String → ℝ) (x : ℝ) :
    (drift.piece []).nextState [] (stepValues ["D1"] slope w x) = x + w "D1" := by
  simp [Piece.nextState, Transform.piece, drift, eval, Monomial.eval, Monomial.powersValue,
    Scalar.written, Number.exponent, stepValues, add_comm]

theorem bounds_upward : upward.bounds = .ok [("D1", "0", "2")] := by decide +kernel

theorem names_upward : upward.names = .ok ["D1"] := by decide +kernel

theorem nonneg_of_allows {w : String → ℝ} (allowed : upward.Allows w) : 0 ≤ w "D1" := by
  have bound := (allowed _ bounds_upward ("D1", "0", "2") mem_cons_self).1
  have zero : Expression.spelled "0" = 0 := by decide +kernel
  rw [zero] at bound
  exact_mod_cast bound

theorem climb_spec : ∃ t starts steps, climb = .ok (t, starts, steps) ∧ t.readsExactly climbing [] := by
  obtain ⟨⟨t, starts, steps⟩, made, checked⟩ := exists_of_any climb_checked
  exact ⟨t, starts, steps, made, checked⟩

theorem closedLoop_climbing (sought : t.Sought 1) (checked : t.readsExactly climbing []) :
    t.ClosedLoop climbing unguided where
  sought := ⟨1, sought⟩
  policy := by
    refine ⟨0, by decide, synthesised_unguided, ?_⟩
    intro piece known
    cases mem_singleton.mp known
    exact ⟨1, drift, rfl⟩
  single := rfl
  space := forall_mem_nil _
  conditions := by
    intro piece known
    cases mem_singleton.mp known
    exact forall_mem_nil _
  bounds := by
    intro bounds known v mem text inside
    cases bounds_upward.symm.trans known
    cases mem_singleton.mp mem
    rcases mem_pair.mp inside with rfl | rfl
    · exact ⟨⟨_, .of_whole (spellsWhole_digit (by decide))⟩, Supermartingale.readsExactly_sound (by decide +kernel)⟩
    · exact ⟨⟨_, .of_whole (spellsWhole_digit (by decide))⟩, Supermartingale.readsExactly_sound (by decide +kernel)⟩
  exactly := fun piece known accepting actions acts state e got => by
    cases acts
    exact readsExactly_sound checked known got

theorem climb_holds (closed : t.ClosedLoop climbing unguided) (sought : t.Sought 1)
    {starts steps : List Constraint} (initial : t.initial climbing = .ok starts)
    (induction : t.induction climbing unguided = .ok steps) (truth : Guard → ℝ → Prop) :
    ∀ k ∈ starts ++ steps, k.Holds (fun g σ => truth g (σ "S1")) slope := by
  intro k mem
  rcases mem_append.mp mem with first | later
  · obtain ⟨k', rfl, starts⟩ := initial_spec initial
    cases mem_singleton.mp first
    refine (sought.holds_start_iff starts).mpr fun x _ above => ?_
    obtain ⟨_, got⟩ := starts
    rw [sought.nonnegAt_slope_iff got]
    have bound := above _ mem_cons_self
    simpa [Inequality.Holds, Relation.Compares, eval, zero, Monomial.eval, Monomial.powersValue,
      Scalar.written, Number.exponent] using bound
  · obtain ⟨⟨piece, s, tr⟩, inside, step⟩ := exists_of_mem_right (induction_spec rfl induction) later
    have known := (Model.mem_stepsFrom.mp inside).1
    refine (closed.holds_step_iff known step).mpr fun actions names x w acts named _ allowed _ _ nonneg => ?_
    obtain rfl : piece = drift.piece [] := mem_singleton.mp known
    cases acts
    cases names_upward.symm.trans named
    obtain ⟨_, _, _, _, source, destination, _⟩ := step
    rw [sought.nonnegAt_slope_iff source] at nonneg
    rw [sought.nonnegAt_slope_iff destination]
    dsimp only
    rw [climbing_moves]
    exact add_nonneg nonneg (nonneg_of_allows allowed)

/-- A label is empty, or it holds from five on. -/
def fromFive (g : Guard) (x : ℝ) : Prop := g.label = "" ∨ 5 ≤ x

theorem reachable_climbing {s : State} (second : climbing.automaton.states[1]? = some s) :
    climbing.Reachable unguided fromFive slope s 1 := by
  have listed := mem_of_getElem? second
  cases second
  have zero : climbing.Reachable unguided fromFive slope (.make 0 [] [.make 1 [] ""] none none) 0 := by
    refine .start mem_cons_self rfl (forall_mem_nil _) fun i mem => ?_
    cases mem_singleton.mp mem
    simp [Inequality.Holds, Relation.Compares, eval, zero, Monomial.eval,
      Monomial.powersValue, Scalar.written, Number.exponent]
  have allowed : upward.Allows fun _ => 1 := by
    intro bounds known v mem
    cases bounds_upward.symm.trans known
    cases mem_singleton.mp mem
    have ends : Expression.spelled "0" = 0 ∧ Expression.spelled "2" = 2 := by decide +kernel
    rw [ends.1, ends.2]
    norm_num
  refine .step zero mem_cons_self (forall_mem_nil _) names_upward allowed mem_cons_self (.inl rfl) rfl
    ?_ (forall_mem_nil _) listed rfl
  rw [climbing_moves, zero_add]

/-- Where the constraints are true, the template is not negative along every run. -/
theorem ClosedLoop.nonnegAt_of_reachable (closed : t.ClosedLoop m p) {starts steps : List Constraint}
    {x : ℝ} (initial : t.initial m = .ok starts) (induction : t.induction m p = .ok steps)
    (holds : ∀ k ∈ starts ++ steps, k.Holds (fun g σ => truth g (σ "S1")) ρ)
    (reachable : m.Reachable p truth ρ s x) :
    ∃ e, t.family.get (toString s.id) = .ok e ∧ 0 ≤ e.eval (Function.update ρ "S1" x) :=
  (closed.keeps_of_reachable initial induction holds reachable).nonneg

theorem climbing_nonnegAt_of_reachable : ∃ (t : InvariantTemplate) (starts steps : List Constraint),
    t.ClosedLoop climbing unguided ∧ t.initial climbing = .ok starts ∧
    t.induction climbing unguided = .ok steps ∧
    (∀ k ∈ starts ++ steps, k.Holds (fun g σ => fromFive g (σ "S1")) slope) ∧
    ∃ s : State, s.id = 1 ∧ climbing.Reachable unguided fromFive slope s 1 ∧
      ∃ e, t.family.get (toString s.id) = .ok e ∧ 0 ≤ e.eval (Function.update slope "S1" 1) := by
  obtain ⟨t, starts, steps, made, checked⟩ := climb_spec
  obtain ⟨⟨t', shelf⟩, template, made⟩ := bind_eq_ok.mp made
  obtain ⟨starts', initial, made⟩ := bind_eq_ok.mp made
  obtain ⟨steps', induction, made⟩ := bind_eq_ok.mp made
  cases made
  have sought : t.Sought 1 := .intro Powers.Shelf.sound_empty rfl ⟨.int 1, rfl, rfl⟩ (by decide +kernel) template
  have closed := closedLoop_climbing sought checked
  have holds := climb_holds closed sought initial induction fromFive
  have reachable := reachable_climbing rfl
  exact ⟨t, starts, steps, closed, initial, induction, holds, _, rfl, reachable,
    closed.nonnegAt_of_reachable initial induction holds reachable⟩

end InvariantTemplate

end Supermartingale
