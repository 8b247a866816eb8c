import Supermartingale.Proofs.Automaton.Acceptance
import Supermartingale.Proofs.Certificate.Step

/-!
# Which steps and disturbances have conditions

Every step from a state that is not rejecting has one condition. Its safety part puts the moments of the disturbance,
its least and its greatest values into one text. The ends of a normal disturbance have no keys, so no condition on any
transition can be made.
-/

namespace Supermartingale

open List

/-! ## Coverage

The conditions on the liveness template share the steps between them: one looks at the states that have no
signature and are not rejecting, the other at the states that have one. Together they look at all states that
are not rejecting because a state with a signature never is: it reaches itself. -/

open State

variable {c : Certificate} {m : Model} {i : Invariant} {p : DecomposedPolicy} {states : List State}
  {sets : List Int}

namespace Model

/-- The automaton of a model is in normal form. -/
structure Normal (m : Model) (states : List State) (sets : List Int) : Prop where
  numbered : Numbered states
  statuses : ∀ s ∈ states, s.status = .ofSignature s.signature
  normalised : normalise states sets = .ok (m.automaton.states, m.automaton.rejecting)

theorem Normal.rejecting_eq (normal : m.Normal states sets) :
    m.automaton.rejecting = (m.automaton.states.filter isRejecting).map (·.id) := by
  obtain ⟨rejecting, accepting, result, sorted, _⟩ := normalise_spec normal.numbered normal.statuses sets
  have same := result.symm.trans normal.normalised
  injection same with same
  injection same with sameStates sameRejecting
  rw [← sameStates, ← sameRejecting]
  exact normal.numbered.toStateAcceptance.rejecting_eq sorted

theorem Normal.isRejecting_of_hasSignature (normal : m.Normal states sets) {s : State}
    (mem : s ∈ m.automaton.states) (signed : s.hasSignature) : s.isRejecting = false := by
  obtain ⟨rejecting, accepting, result, _, spec⟩ := normalise_spec normal.numbered normal.statuses sets
  have same := result.symm.trans normal.normalised
  injection same with same
  injection same with sameStates _
  rw [← sameStates] at mem
  obtain ⟨s₀, inside, rfl⟩ := mem_map.mp mem
  have range := normal.numbered.toStateAcceptance.inRange inside
  have nonempty : s₀.signature ≠ [] := by simpa [hasSignature, withStatus] using signed
  have live : s₀.id ∉ rejecting := fun dead => (spec s₀.id range).1.mp dead (Live.of_signature inside nonempty)
  rw [isRejecting_classify range.1]
  simpa using live

end Model

namespace Certificate

/-- A constraint belongs to a step: it is guarded by the label of the transition and demands the safety
condition of the very same step. -/
def Demands (c : Certificate) (m : Model) (p : DecomposedPolicy) (step : Piece × State × Transition)
    (k : Constraint) : Prop :=
  ∃ premise body safe live,
    k = .implication c.names
      (some (.joined premise
        (.one (.guarded ⟨step.2.2.label, m.automaton.lookup⟩ body (.known .conjunction)))
        (.known .conjunction)))
      (.joined (.one safe) live (.known .conjunction)) ∧
    c.safeSteps m p step.1 { step.2.1 with transitions := [step.2.2] } = .ok [safe]

theorem StepConstraint.demands {live : Equation → Equation → Inequality} {piece : Piece} {s : State}
    {t : Transition} {k : Constraint} (constraint : StepConstraint c m i p live piece s t k) :
    c.Demands m p (piece, s, t) k := by
  obtain ⟨safely, _, _, _, _, _, _⟩ := constraint
  exact ⟨_, _, _, _, rfl, safely.safeSteps⟩

/-- A constraint belongs to a rejecting state: it demands that the safety template of the state is not
negative. -/
def Forbids (c : Certificate) (s : State) (k : Constraint) : Prop :=
  ∃ premise template, c.safe.family.get (toString s.id) = .ok template ∧
    k = .implication c.names (some premise)
      (.joined (.ofInequalities [.make template .ge c.parameters.zero]) .absent (.known .conjunction))

theorem safety_spec {ks : List Constraint} (result : c.safety m i = .ok ks)
    (rejecting : m.automaton.rejecting = (m.automaton.states.filter isRejecting).map (·.id)) :
    Forall₂ c.Forbids (m.automaton.states.filter isRejecting) ks := by
  have pairs := mapM_eq_ok.mp result
  rw [rejecting, forall₂_map_left_iff] at pairs
  refine pairs.imp fun s k made => ?_
  obtain ⟨template, known, made⟩ := bind_eq_ok.mp made
  obtain ⟨premise, _, made⟩ := bind_eq_ok.mp made
  cases made
  exact ⟨premise, template, known, rfl⟩

/-- The conditions on the liveness template constrain every step from a state that is not rejecting once:
the one on falling if the state has no signature, the one on rising otherwise. The safety condition has
one constraint for every rejecting state. -/
theorem constraints_cover_steps (normal : m.Normal states sets) {falling rising safe : List Constraint}
    (falls : c.decrease m i p = .ok falling) (rises : c.increase m i p = .ok rising)
    (avoids : c.safety m i = .ok safe) :
    Forall₂ (c.Demands m p)
        ((m.stepsFrom fun s => !s.isRejecting).filter fun step => !step.2.1.hasSignature) falling ∧
      Forall₂ (c.Demands m p)
        ((m.stepsFrom fun s => !s.isRejecting).filter fun step => step.2.1.hasSignature) rising ∧
      Forall₂ c.Forbids (m.automaton.states.filter isRejecting) safe := by
  refine ⟨?_, ?_, safety_spec avoids normal.rejecting_eq⟩
  · rw [m.filter_stepsFrom (fun s => !s.isRejecting) fun s => !s.hasSignature]
    simp only [Bool.and_comm]
    exact (decrease_spec falls).imp fun _ _ constraint => constraint.demands
  · have signed : ∀ s ∈ m.automaton.states,
        (!s.isRejecting && s.hasSignature) = s.hasSignature := by
      intro s member
      cases value : s.hasSignature with
      | false => simp
      | true => simp [normal.isRejecting_of_hasSignature member value]
    rw [m.filter_stepsFrom (fun s => !s.isRejecting) State.hasSignature, Model.stepsFrom_congr signed]
    exact (increase_spec rises).imp fun _ _ constraint => constraint.demands

/-- A system that stays where it is, whatever the disturbance, against the automaton of `State.fork`. -/
def standstill : Model where
  space := []
  initial := []
  dynamics := ⟨.number (.int 1), [⟨[], [⟨[⟨.exact 1, [("S1", .int 1)]⟩]⟩]⟩]⟩
  noise := ⟨.number (.int 1), .uniform (.list [.number (.int 0)]) (.list [.number (.int 1)])⟩
  automaton :=
    let normal := (normalise fork [0]).toOption.getD ([], [])
    ⟨"0", normal.1, [0], ["a", "b"], normal.2, [("0", "S1 <= 0"), ("1", "S1 >= 1")]⟩

def uniformly (kind : TemplateKind) (e : Equation) : Template :=
  ⟨kind, .number (.int 1), .number (.int 0), 4, .number (.int 1), ⟨(List.range 4).map fun q => (toString q, e), []⟩⟩

def slope : Certificate where
  states := .number (.int 1)
  actions := .number (.int 0)
  degree := .number (.int 1)
  automatonStates := 4
  sets := 1
  parameters := ⟨.zero, .zero, .zero, .zero, .zero, .zero, .zero, .zero, .zero, .zero⟩
  safe := uniformly .safe ⟨[⟨.exact 2, [("S1", .int 1)]⟩]⟩
  live := uniformly .live ⟨[⟨.exact 3, []⟩]⟩
  names := ["S1"]
  constants := []

theorem slope_covers_steps :
    standstill.Normal fork [0] ∧ ∃ falling rising safe,
      slope.decrease standstill .trivial unguided = .ok falling ∧
      slope.increase standstill .trivial unguided = .ok rising ∧
      slope.safety standstill .trivial = .ok safe ∧
      Forall₂ (slope.Demands standstill unguided)
        ((standstill.stepsFrom fun s => !s.isRejecting).filter fun step => !step.2.1.hasSignature)
        falling ∧
      Forall₂ (slope.Demands standstill unguided)
        ((standstill.stepsFrom fun s => !s.isRejecting).filter fun step => step.2.1.hasSignature)
        rising ∧
      Forall₂ slope.Forbids (standstill.automaton.states.filter isRejecting) safe := by
  have normal : standstill.Normal fork [0] := by
    obtain ⟨result, computed⟩ : ∃ result, normalise fork [0] = .ok result := exists_of_isOk (by decide +kernel)
    refine ⟨by decide +kernel, by decide +kernel, ?_⟩
    simp [standstill, computed, Except.toOption]
  obtain ⟨falling, falls⟩ : ∃ falling, slope.decrease standstill .trivial unguided = .ok falling :=
    exists_of_isOk (by decide +kernel)
  obtain ⟨rising, rises⟩ : ∃ rising, slope.increase standstill .trivial unguided = .ok rising :=
    exists_of_isOk (by decide +kernel)
  obtain ⟨safe, avoids⟩ : ∃ safe, slope.safety standstill .trivial = .ok safe := exists_of_isOk (by decide +kernel)
  exact ⟨normal, falling, rising, safe, falls, rises, avoids, constraints_cover_steps normal falls rises avoids⟩

end Certificate

/-! ## Totality -/

def Text.filledFrom (table : Table) (s : String) : String :=
  String.ofList (replaceFirstFrom (table.map fun (k, v) => (k.toList, v.toList)) 0 s.toList)

theorem Text.replaceFirst_bind {α : Type} {table : Table} (nonempty : table ≠ []) (s : String)
    (read : String → Except Error α) : replaceFirst table s >>= read = read (filledFrom table s) := by
  rw [replaceFirst, if_neg (by simpa using nonempty)]
  rfl

namespace Noise

variable {noise : Noise} {k : ℕ} {moments : Text.Table} {ends : List (String × String × String)}

/-- The moments of a disturbance and the two ends of its values can be put into a text. -/
def Fits (noise : Noise) (s : String) : Prop :=
  ∃ moments ends, noise.expectations usualOrder = .ok moments ∧ noise.bounds = .ok ends ∧
    ∀ table ∈ [moments, ends.map fun (d, a, _) => (d, a), ends.map fun (d, _, b) => (d, b)],
      ∃ e, Equation.ofText (Text.filledFrom table s) = .ok e

theorem atLower_normal {mean deviation : Value} (normal : noise.distribution = .normal mean deviation)
    (s : String) : noise.atLower s = .error (.missingKey "") := by
  simp only [atLower, bounds, normal]
  rfl

section Uniform

variable {lower upper : Value} (uniform : noise.distribution = .uniform lower upper)
  (count : noise.dimension.count = .ok k)
include uniform count

theorem uniformRows_of_expectations (known : noise.expectations usualOrder = .ok moments) :
    ∃ rows, (List.range k).mapM (uniformRow usualOrder lower upper) = .ok rows ∧ moments = rows.flatten := by
  rw [expectations, uniform] at known
  obtain ⟨n, counted, known⟩ := bind_eq_ok.mp known
  cases count.symm.trans counted
  obtain ⟨rows, made, same⟩ := bind_eq_ok.mp known
  cases same
  exact ⟨rows, made, rfl⟩

/-- The moments of a uniform disturbance are computed from the ends of its values. -/
theorem exists_bounds_of_uniform (known : noise.expectations usualOrder = .ok moments) :
    ∃ ends, noise.bounds = .ok ends := by
  obtain ⟨rows, made, _⟩ := uniformRows_of_expectations uniform count known
  simp only [bounds, uniform, count]
  refine exists_mapM_eq_ok fun i mem => ?_
  obtain ⟨_, _, row⟩ := exists_mem_of_mapM made mem
  obtain ⟨a, least, row⟩ := bind_eq_ok.mp row
  obtain ⟨b, greatest, _⟩ := bind_eq_ok.mp row
  exact ⟨_, bind_eq_ok.mpr ⟨a, least, bind_eq_ok.mpr ⟨b, greatest, rfl⟩⟩⟩

variable (positive : 1 ≤ k)
include positive

theorem moments_ne_nil (known : noise.expectations usualOrder = .ok moments) : moments ≠ [] := by
  obtain ⟨rows, made, rfl⟩ := uniformRows_of_expectations uniform count known
  obtain ⟨row, mem, first⟩ := exists_mem_of_mapM made (mem_range.mpr positive)
  iterate 6 obtain ⟨_, _, first⟩ := bind_eq_ok.mp first
  cases first
  exact ne_nil_of_mem (mem_flatten.mpr ⟨_, mem, mem_cons_self⟩)

theorem bounds_ne_nil (known : noise.bounds = .ok ends) : ends ≠ [] := by
  simp only [bounds, uniform, count] at known
  have length := (mapM_eq_ok.mp known).length_eq
  rintro rfl
  simp only [length_range, length_nil] at length
  omega

theorem fits_iff (s : String) :
    noise.Fits s ↔ ∃ expected low high, noise.expect s = .ok expected ∧ noise.atLower s = .ok low ∧
      noise.atUpper s = .ok high := by
  have filled {moments : Text.Table} (known : noise.expectations usualOrder = .ok moments) :=
    Text.replaceFirst_bind (moments_ne_nil uniform count positive known) s Equation.ofText
  have ended {ends : List (String × String × String)} (known : noise.bounds = .ok ends)
      (side : String × String × String → String × String) :=
    Text.replaceFirst_bind (by simpa using bounds_ne_nil uniform count positive known : ends.map side ≠ []) s
      Equation.ofText
  constructor
  · rintro ⟨moments, ends, known, between, reads⟩
    simp only [forall_mem_cons] at reads
    obtain ⟨⟨expected, mean⟩, ⟨low, least⟩, ⟨high, greatest⟩, _⟩ := reads
    exact ⟨expected, low, high, bind_eq_ok.mpr ⟨_, known, (filled known).trans mean⟩,
      bind_eq_ok.mpr ⟨_, between, (ended between _).trans least⟩,
      bind_eq_ok.mpr ⟨_, between, (ended between _).trans greatest⟩⟩
  · rintro ⟨expected, low, high, mean, least, greatest⟩
    obtain ⟨moments, known, mean⟩ := bind_eq_ok.mp mean
    obtain ⟨ends, between, least⟩ := bind_eq_ok.mp least
    obtain ⟨_, again, greatest⟩ := bind_eq_ok.mp greatest
    cases between.symm.trans again
    refine ⟨moments, ends, known, between, ?_⟩
    simp only [forall_mem_cons]
    exact ⟨⟨expected, (filled known).symm.trans mean⟩, ⟨low, (ended between _).symm.trans least⟩,
      ⟨high, (ended between _).symm.trans greatest⟩, by simp⟩

end Uniform

theorem exists_bounds (count : noise.dimension.count = .ok k)
    (known : noise.expectations usualOrder = .ok moments) : ∃ ends, noise.bounds = .ok ends := by
  cases kind : noise.distribution with
  | normal mean deviation => exact ⟨[], by rw [bounds, kind]⟩
  | uniform lower upper => exact exists_bounds_of_uniform kind count known

end Noise

namespace Certificate

variable {c : Certificate} {m : Model} {p : DecomposedPolicy} {piece : Piece} {s : State}
  {actions : List (String × Equation)}

/-- Safety conditions exist when the moments and the ends of the disturbance do, and every transition has
its own. -/
theorem exists_safeSteps_iff {current : Equation} (acts : p.act s.isAccepting = .ok actions)
    (source : c.safe.family.get (toString s.id) = .ok current)
    (destinations : ∀ t ∈ s.transitions, ∃ e, c.safe.family.get (toString t.destination) = .ok e) :
    (∃ fs, c.safeSteps m p piece s = .ok fs) ↔
      (∃ moments, m.noise.expectations Noise.usualOrder = .ok moments) ∧ (∃ ends, m.noise.bounds = .ok ends) ∧
      ∀ t ∈ s.transitions, ∃ f, SafeStep c m p piece s t f := by
  constructor
  · rintro ⟨fs, result⟩
    have each := fun t mem => (exists_of_mem_left (safeSteps_spec result) (x := t) mem).imp fun _ h => h.2
    iterate 3 obtain ⟨_, _, result⟩ := bind_eq_ok.mp result
    obtain ⟨moments, known, result⟩ := bind_eq_ok.mp result
    obtain ⟨ends, between, _⟩ := bind_eq_ok.mp result
    exact ⟨⟨moments, known⟩, ⟨ends, between⟩, each⟩
  · rintro ⟨⟨moments, known⟩, ⟨ends, between⟩, each⟩
    obtain ⟨targets, found⟩ := exists_mapM_eq_ok destinations
    have made : ∀ target ∈ targets.map fun e => e.after (piece.nextUnder actions), ∃ expected low high,
        m.noise.expect target = .ok expected ∧ m.noise.atLower target = .ok low ∧
          m.noise.atUpper target = .ok high := by
      intro text mem
      obtain ⟨target, known, rfl⟩ := mem_map.mp mem
      obtain ⟨t, inside, destination⟩ := exists_of_mem_mapM found known
      obtain ⟨_, acts', _, destination', mean, least, greatest⟩ := each t inside
      cases acts.symm.trans acts'
      cases destination.symm.trans destination'
      exact ⟨_, _, _, mean, least, greatest⟩
    simp only [safeSteps, acts, source, found, known, between]
    refine exists_mapM_eq_ok fun text mem => ?_
    obtain ⟨expected, low, high, mean, least, greatest⟩ := made text mem
    exact ⟨_, bind_eq_ok.mpr ⟨_, mean, bind_eq_ok.mpr ⟨_, least, bind_eq_ok.mpr ⟨_, greatest, rfl⟩⟩⟩⟩

/-- A normal disturbance fails on the lower end of its values, at the first transition. -/
theorem safeSteps_eq_missingKey {current target expected : Equation} {moments : Text.Table} {t : Transition}
    {ts : List Transition} {mean deviation : Value} (normal : m.noise.distribution = .normal mean deviation)
    (acts : p.act s.isAccepting = .ok actions) (source : c.safe.family.get (toString s.id) = .ok current)
    (destinations : ∀ t ∈ s.transitions, ∃ e, c.safe.family.get (toString t.destination) = .ok e)
    (known : m.noise.expectations Noise.usualOrder = .ok moments) (first : s.transitions = t :: ts)
    (destination : c.safe.family.get (toString t.destination) = .ok target)
    (mean : m.noise.expect (target.after (piece.nextUnder actions)) = .ok expected) :
    c.safeSteps m p piece s = .error (.missingKey "") := by
  obtain ⟨targets, found⟩ := exists_mapM_eq_ok destinations
  obtain ⟨_, rest, head, _, rfl⟩ := forall₂_cons_left_iff.mp (first ▸ mapM_eq_ok.mp found)
  cases destination.symm.trans head
  simp only [safeSteps, acts, source, found, known, Noise.bounds, normal, Noise.atLower_normal normal, bind,
    Except.bind]
  rw [map_cons, mapM_cons, mean]
  rfl

/-- Where the policy acts and the templates of a state and of its successors exist, there is one safety
condition for every transition exactly if the moments of the disturbance can be computed and, unless there
are no transitions, the disturbance is uniform and its numbers can be put into every template. -/
theorem exists_safeSteps_iff_uniform {k : ℕ} (count : m.noise.dimension.count = .ok k) (positive : 1 ≤ k)
    (acts : p.act s.isAccepting = .ok actions) (source : ∃ e, c.safe.family.get (toString s.id) = .ok e)
    (destinations : ∀ t ∈ s.transitions, ∃ e, c.safe.family.get (toString t.destination) = .ok e) :
    (∃ fs, c.safeSteps m p piece s = .ok fs ∧ fs.length = s.transitions.length) ↔
      (∃ moments, m.noise.expectations Noise.usualOrder = .ok moments) ∧
      (s.transitions = [] ∨ (∃ lower upper, m.noise.distribution = .uniform lower upper) ∧
        ∀ t ∈ s.transitions, ∀ e, c.safe.family.get (toString t.destination) = .ok e →
          m.noise.Fits (e.after (piece.nextUnder actions))) := by
  obtain ⟨current, source⟩ := source
  have counted : (∃ fs, c.safeSteps m p piece s = .ok fs ∧ fs.length = s.transitions.length) ↔
      ∃ fs, c.safeSteps m p piece s = .ok fs :=
    exists_congr fun fs => and_iff_left_of_imp fun made => (safeSteps_spec made).length_eq.symm
  rw [counted, exists_safeSteps_iff acts source destinations]
  refine and_congr_right fun ⟨moments, known⟩ => ?_
  rw [and_iff_right (Noise.exists_bounds count known)]
  cases kind : m.noise.distribution with
  | normal mean deviation =>
    -- A safety condition needs the disturbance at its lower end, which a normal one does not have.
    have none t : ¬ ∃ f, SafeStep c m p piece s t f := by
      rintro ⟨_, _, _, _, _, least, _⟩
      cases (Noise.atLower_normal kind _).symm.trans least
    simp [none, eq_nil_iff_forall_not_mem]
  | uniform lower upper =>
    have each : (∀ t ∈ s.transitions, ∃ f, SafeStep c m p piece s t f) ↔
        ∀ t ∈ s.transitions, ∀ e, c.safe.family.get (toString t.destination) = .ok e →
          m.noise.Fits (e.after (piece.nextUnder actions)) := by
      refine forall₂_congr fun t member => ⟨?_, fun fits => ?_⟩
      · rintro ⟨_, acts', _, destination, mean, least, greatest⟩ e found
        cases acts.symm.trans acts'
        cases found.symm.trans destination
        exact (Noise.fits_iff kind count positive _).mpr ⟨_, _, _, mean, least, greatest⟩
      · obtain ⟨e, destination⟩ := destinations t member
        obtain ⟨_, _, _, mean, least, greatest⟩ := (Noise.fits_iff kind count positive _).mp (fits e destination)
        exact ⟨_, .intro acts source destination mean least greatest⟩
    rw [each]
    constructor
    · exact fun fits => .inr ⟨⟨lower, upper, rfl⟩, fits⟩
    · rintro (empty | ⟨_, fits⟩)
      · simp [empty]
      · exact fits

def branching : State := .make 0 [] [.make 1 [] "0", .make 2 [] "!0"] none none

def drift : Piece := ⟨[], [⟨[⟨.exact 1, [("S1", .int 1)]⟩, ⟨.exact 1, [("D1", .int 1)]⟩]⟩]⟩

theorem slope_templates : ∀ t ∈ branching.transitions, ∃ e,
    slope.safe.family.get (toString t.destination) = .ok e := fun t mem =>
  exists_of_isOk ((by decide +kernel : ∀ t ∈ branching.transitions,
    (slope.safe.family.get (toString t.destination)).isOk) t mem)

theorem safeSteps_drift :
    standstill.noise.dimension.count = .ok 1 ∧ unguided.act branching.isAccepting = .ok [] ∧
      (∃ e, slope.safe.family.get (toString branching.id) = .ok e) ∧
      (∀ t ∈ branching.transitions, ∃ e, slope.safe.family.get (toString t.destination) = .ok e) ∧
      (∃ fs, slope.safeSteps standstill unguided drift branching = .ok fs ∧ fs.length = branching.transitions.length) ∧
      ∀ t ∈ branching.transitions, ∀ e, slope.safe.family.get (toString t.destination) = .ok e →
        standstill.noise.Fits (e.after (drift.nextUnder [])) := by
  have source : ∃ e, slope.safe.family.get (toString branching.id) = .ok e := exists_of_isOk (by decide +kernel)
  obtain ⟨fs, made⟩ : ∃ fs, slope.safeSteps standstill unguided drift branching = .ok fs :=
    exists_of_isOk (by decide +kernel)
  have counted : fs.length = branching.transitions.length := (safeSteps_spec made).length_eq.symm
  have given := (exists_safeSteps_iff_uniform rfl le_rfl rfl source slope_templates).mp ⟨fs, made, counted⟩
  refine ⟨rfl, rfl, source, slope_templates, ⟨fs, made, counted⟩, ?_⟩
  rcases given.2 with empty | ⟨_, fits⟩
  · cases empty
  · exact fits

theorem safeSteps_normal :
    ∃ noise, Noise.make (.number (.int 1)) (.text "normal")
        (.object [(.text "mean", .list [.number (.int 0)]), (.text "std_dev", .list [.number (.int 1)])]) = .ok noise ∧
      slope.safeSteps { standstill with noise := noise } unguided drift branching = .error (.missingKey "") := by
  let noise : Noise := ⟨.number (.int 1), .normal (.list [.number (.int 0)]) (.list [.number (.int 1)])⟩
  obtain ⟨moments, known⟩ : ∃ moments, noise.expectations Noise.usualOrder = .ok moments :=
    exists_of_isOk (by decide +kernel)
  obtain ⟨expected, mean⟩ : ∃ e, noise.expect
      (Equation.after ⟨[⟨.exact 2, [("S1", .int 1)]⟩]⟩ (drift.nextUnder [])) = .ok e :=
    exists_of_isOk (by decide +kernel)
  exact ⟨noise, rfl, safeSteps_eq_missingKey rfl rfl rfl slope_templates known rfl rfl mean⟩

end Certificate

end Supermartingale
