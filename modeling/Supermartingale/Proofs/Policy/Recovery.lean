import Supermartingale.Proofs.Policy.Report

/-!
# Coefficients that can be told from a report

A coefficient is reported under a name that tells its state and its number, but not its action. So the values of a
policy can be told from the report exactly if there is a single action.
-/

namespace Supermartingale

open List DecomposedPolicy Policy

open DecomposedPolicy (coefficientName)

theorem DecomposedPolicy.coefficientName_injective {accepting : Bool} {a i a' i' : ℕ}
    (same : coefficientName accepting a i = coefficientName accepting a' i') : a = a' ∧ i = i' := by
  have equal : ((a + 1 : ℕ) : ℤ) = (a' + 1 : ℕ) ∧ ((i + 1 : ℕ) : ℤ) = (i' + 1 : ℕ) :=
    joined_injective (stem accepting ++ "_") same
  omega

def Policy.unknowns (actions : List (String × Equation)) : List String := actions.flatMap (·.2.constants)

theorem Policy.unknowns_call {q : Policy} {accepting : Bool} {m count : ℕ}
    (constants : Forall₂ (fun i e => e.constants = (List.range count).map (coefficientName accepting i))
      (List.range m) q.transitions) :
    unknowns q.call = Answer.coefficients accepting m count := by
  have lists : q.transitions.map Equation.constants =
      (List.range m).map fun a => (List.range count).map (coefficientName accepting a) := by
    rw [← forall₂_eq_eq_eq, forall₂_map_left_iff, forall₂_map_right_iff]
    exact constants.flip
  have equations : q.call.map (·.2) = q.transitions := ext_getElem (by simp [call]) fun i _ _ => by simp [call]
  rw [unknowns, Answer.coefficients, flatMap_def, flatMap_def, ← lists, ← equations, map_map]
  rfl

namespace Answer

variable {m count : ℕ} {model refined : List (String × Value)} {states : List State} {accepting : Bool} {name : String}

/-- A model of the constraints: it gives values to the constants of the policies that act and to no others with
their stems, and none of its names is that of a reported coefficient. -/
structure Solves (p : DecomposedPolicy) (model : List (String × Value)) : Prop where
  distinct : (model.map (·.1)).Nodup
  constants : ∀ name, name ∈ model.map (·.1) ∧ isPolicyConstant name ↔
    ∃ accepting actions, p.act accepting = .ok actions ∧ name ∈ unknowns actions
  others : ∀ name ∈ model.map (·.1), ∀ state n, name ≠ reportName state n
  writable : ∀ accepting actions, p.act accepting = .ok actions → isWritable (unknowns actions).length

/-- The values of some constants can be told from what is reported for a state: each has a number of its own. -/
def Recoverable (model refined : List (String × Value)) (state : ℤ) (constants : List String) : Prop :=
  ∃ number : String → ℤ, (∀ c ∈ constants, ∀ c' ∈ constants, number c = number c' → c = c') ∧
    ∀ c ∈ constants, valueOf refined (reportName state (number c)) = valueOf model c

/-- The fields in terms of the names of the unknowns. -/
theorem solves_iff {p : DecomposedPolicy} {names : Bool → List String}
    (acts : ∀ accepting, ∃ actions, p.act accepting = .ok actions ∧ unknowns actions = names accepting) :
    Solves p model ↔ (model.map (·.1)).Nodup ∧
      (∀ name, name ∈ model.map (·.1) ∧ isPolicyConstant name ↔ ∃ accepting, name ∈ names accepting) ∧
      (∀ name ∈ model.map (·.1), ∀ state n, name ≠ reportName state n) ∧
      ∀ accepting, isWritable (names accepting).length := by
  choose actions act unknowns using acts
  constructor
  · intro ⟨distinct, constants, others, writable⟩
    refine ⟨distinct, fun name => ?_, others, fun accepting => ?_⟩
    · rw [constants]
      simp only [act, Except.ok.injEq, exists_eq_left', unknowns]
    · rw [← unknowns]
      exact writable accepting _ (act accepting)
  · intro ⟨distinct, constants, others, writable⟩
    refine ⟨distinct, fun name => ?_, others, fun accepting actions act' => ?_⟩
    · rw [constants]
      simp only [act, Except.ok.injEq, exists_eq_left', unknowns]
    · cases (act accepting).symm.trans act'
      rw [unknowns]
      exact writable accepting

theorem valueOf_filter (kept : isPolicyConstant name = false) :
    valueOf (model.filter fun (k, _) => !isPolicyConstant k) name = valueOf model name := by
  unfold valueOf
  rw [List.find?_filter]
  congr 2
  funext entry
  by_cases same : entry.1 = name
  · simp [same, kept]
  · simp [same]

/-- What is reported under the number of a coefficient is the value of some coefficient, or was there before. -/
theorem valueOf_spread_cases {own : State → List (ℤ × Value)} (distinct : ∀ s, ((own s).map (·.1)).Nodup)
    (rest : List (String × Value)) {state n : ℤ} {v : Value}
    (found : valueOf (states.foldl (fun model s => report (own s) s.id model) rest) (reportName state n) = some v) :
    (∃ s ∈ states, valueOf (own s) n = some v) ∨ valueOf rest (reportName state n) = some v := by
  induction states generalizing rest with
  | nil => exact .inr found
  | cons s states ih =>
    rcases ih _ found with ⟨s', mem, value⟩ | before
    · exact .inl ⟨s', mem_cons_of_mem _ mem, value⟩
    · by_cases same : s.id = state
      · rw [← same, valueOf_report (distinct s), Option.or_eq_some_iff] at before
        rcases before with value | ⟨_, value⟩
        · exact .inl ⟨s, mem_cons_self, value⟩
        · exact .inr (same ▸ value)
      · rw [valueOf_report_of_ne fun k h => same (reportName_injective h).1.symm] at before
        exact .inr before

theorem valueOf_spread_of_ne (own : State → List (ℤ × Value)) (rest : List (String × Value))
    (other : ∀ state n, name ≠ reportName state n) (states : List State) :
    valueOf (states.foldl (fun model s => report (own s) s.id model) rest) name = valueOf rest name := by
  induction states generalizing rest with
  | nil => rfl
  | cons s states ih => rw [foldl_cons, ih, valueOf_report_of_ne (other s.id)]

theorem nodup_coefficients : (coefficients accepting m count).Nodup := by
  refine nodup_flatMap.mpr ⟨fun a _ => ?_, nodup_range.imp fun {a a'} differ c first second => ?_⟩
  · exact nodup_range.map fun i i' same => (coefficientName_injective same).2
  · obtain ⟨i, _, rfl⟩ := mem_map.mp first
    obtain ⟨i', _, same⟩ := mem_map.mp second
    exact differ (coefficientName_injective same).1.symm

/-- More than one action has more coefficients than a state has numbers. -/
theorem Gives.single_of_recoverable (gives : Gives m count model) (positive : 1 ≤ m)
    (result : refine model states = .ok refined)
    (others : ∀ name ∈ model.map (·.1), ∀ state n, name ≠ reportName state n) {state : ℤ}
    (nonzero : count ≠ 0) (recoverable : Recoverable model refined state
      (coefficients accepting m count)) : m = 1 := by
  obtain ⟨number, injective, values⟩ := recoverable
  obtain ⟨own, takes, result'⟩ := gives.refine_eq positive states
  cases result.symm.trans result'
  have numbers : (coefficients accepting m count).map number ⊆ (List.range count).map fun i => ((i + 1 : ℕ) : ℤ) := by
    intro n mem
    obtain ⟨c, coefficient, rfl⟩ := mem_map.mp mem
    obtain ⟨a, action, i, bound, rfl⟩ := mem_coefficients.mp coefficient
    obtain ⟨v, given⟩ := gives.valueOf_isSome accepting action bound
    rcases valueOf_spread_cases (fun s => (takes _).distinct) _ ((values _ coefficient).trans given)
      with ⟨s, _, value⟩ | before
    · obtain ⟨_, _, j, inside, number, _⟩ := (takes _).source _ v value
      exact mem_map.mpr ⟨j, mem_range.mpr inside, number.symm⟩
    · have entry := (valueOf_eq_some (gives.distinct.sublist (filter_sublist.map _))).mp before
      exact absurd rfl (others _ (mem_map_of_mem (mem_of_mem_filter entry)) _ _)
  have fewer := (nodup_coefficients.map_on injective).length_le_of_subset numbers
  rw [length_map, length_map, length_coefficients, length_range] at fewer
  have most : m ≤ 1 := Nat.le_of_mul_le_mul_right (by omega) (Nat.pos_of_ne_zero nonzero)
  omega

/-- With a single action the last number of a name is enough. -/
theorem Gives.recoverable_of_single (gives : Gives 1 count model) (result : refine model states = .ok refined)
    (distinct : (states.map (·.id)).Nodup) {s : State} (mem : s ∈ states) :
    Recoverable model refined s.id (coefficients (!s.isAccepting) 1 count) := by
  obtain ⟨own, takes, result'⟩ := gives.refine_eq (Nat.le_refl 1) states
  cases result.symm.trans result'
  refine ⟨numberOf, ?_, ?_⟩
  · intro c coefficient c' coefficient' same
    obtain ⟨a, action, i, bound, rfl⟩ := mem_coefficients.mp coefficient
    obtain ⟨a', action', i', bound', rfl⟩ := mem_coefficients.mp coefficient'
    rw [gives.numberOf_eq _ a bound, gives.numberOf_eq _ a' bound'] at same
    rw [show a = a' by omega, show i = i' by omega]
  · intro c coefficient
    obtain ⟨a, action, i, inside, rfl⟩ := mem_coefficients.mp coefficient
    obtain rfl : a = 0 := by omega
    obtain ⟨v, given⟩ := gives.valueOf_isSome (!s.isAccepting) action inside
    rw [gives.numberOf_eq _ 0 inside, given]
    refine valueOf_spread (fun s => (takes _).distinct) _ mem fun s' mem' same => ?_
    rw [inj_on_of_nodup_map distinct mem' mem same, (takes _).valueOf_eq inside, given]

/-- The coefficients of the policy that a state is reported with can be told from the report for every state
exactly if there is a single action (or nothing to report), and whatever belongs to neither policy is kept. -/
theorem coefficients_recoverable_iff {actions dimension degree given : Value} {sets : ℕ}
    {limits : List (String × Value)} {shelf shelf' : Powers.Shelf} {p : DecomposedPolicy} (sound : shelf.Sound)
    (some : 1 ≤ sets) (counted : actions.count = .ok m) (positive : 1 ≤ m)
    (made : make actions dimension degree sets given limits shelf = .ok (p, shelf'))
    (solves : Solves p model) {states : List State} (distinct : (states.map (·.id)).Nodup) :
    ∃ count refined, (∀ accepting, ∃ polynomials, p.act accepting = .ok polynomials ∧ polynomials.length = m ∧
        ∀ a ∈ polynomials, a.2.constants.length = count) ∧
      refine model states = .ok refined ∧
      ((∀ s ∈ states, ∃ polynomials, p.act (!s.isAccepting) = .ok polynomials ∧
          Recoverable model refined s.id (unknowns polynomials)) ↔ states = [] ∨ count = 0 ∨ m = 1) ∧
      ∀ name ∈ model.map (·.1), isPolicyConstant name = false → valueOf refined name = valueOf model name := by
  obtain ⟨count, acts⟩ := act_constants sound some counted positive made
  have names (accepting : Bool) : ∃ polynomials, p.act accepting = .ok polynomials ∧
      unknowns polynomials = coefficients accepting m count := by
    obtain ⟨q, act, constants⟩ := acts accepting
    exact ⟨q.call, act, unknowns_call constants⟩
  obtain ⟨different, constants, _, writable⟩ := (solves_iff names).mp solves
  have gives := Gives.of_coefficients different constants positive (writable true)
  obtain ⟨own, takes, result⟩ := gives.refine_eq positive states
  refine ⟨count, _, fun accepting => ?_, result, ⟨fun recoverable => ?_, fun few s member => ?_⟩, ?_⟩
  · obtain ⟨q, act, constants⟩ := acts accepting
    refine ⟨q.call, act, ?_, fun a member => ?_⟩
    · rw [call, length_mapIdx, ← constants.length_eq, length_range]
    · obtain ⟨i, bound, rfl⟩ := mem_mapIdx.mp member
      obtain ⟨_, _, same⟩ := exists_of_mem_right constants (getElem_mem bound)
      rw [same, length_map, length_range]
  · cases states with
    | nil => exact .inl rfl
    | cons s states =>
      obtain ⟨polynomials, act, recoverable⟩ := recoverable s mem_cons_self
      obtain ⟨polynomials', act', same⟩ := names !s.isAccepting
      cases act.symm.trans act'
      rw [same] at recoverable
      refine .inr (Classical.or_iff_not_imp_left.mpr fun nonzero => ?_)
      exact gives.single_of_recoverable positive result solves.others nonzero recoverable
  · obtain ⟨polynomials, act, same⟩ := names !s.isAccepting
    refine ⟨polynomials, act, ?_⟩
    rw [same]
    rcases few with rfl | rfl | rfl
    · cases member
    · exact ⟨fun _ => 0, by simp [coefficients], by simp [coefficients]⟩
    · exact gives.recoverable_of_single result distinct member
  · intro name member other
    rw [valueOf_spread_of_ne _ _ (solves.others name member), valueOf_filter other]

theorem exists_two_constants : ∃ p shelf,
    make (.int 2) (.int 1) (.int 0) 1 (.list []) [] {} = .ok (p, shelf) ∧
    ∀ accepting, ∃ polynomials, p.act accepting = .ok polynomials ∧
      unknowns polynomials = coefficients accepting 2 1 := by
  obtain ⟨⟨p, shelf⟩, made⟩ : ∃ result,
      make (.int 2) (.int 1) (.int 0) 1 (.list []) [] {} = .ok result :=
    exists_of_isOk (by decide +kernel)
  obtain ⟨count, acts⟩ :=
    act_constants Powers.Shelf.sound_empty (Nat.le_refl 1) rfl (by decide : 1 ≤ 2) made
  have computed : ((make (.int 2) (.int 1) (.int 0) 1 (.list []) [] {}).toOption.bind
      fun result => (result.1.act false).toOption.map fun polynomials => (unknowns polynomials).length) =
        some 2 := by decide +kernel
  obtain ⟨q, act, constants⟩ := acts false
  have two : 2 * count = 2 := by
    simpa [made, Except.toOption, act, unknowns_call constants, length_coefficients] using computed
  obtain rfl : count = 1 := by omega
  refine ⟨p, shelf, made, fun accepting => ?_⟩
  obtain ⟨q, act, constants⟩ := acts accepting
  exact ⟨q.call, act, unknowns_call constants⟩

def twofold : List (String × Value) :=
  [("Pa_1_1", .int 1), ("Pa_2_1", .int 2), ("V_safe_0_1", .int 7), ("Pb0_1_1", .int 3), ("Pb0_2_1", .int 4)]

theorem not_recoverable_twofold : ∃ p shelf refined,
    make (.int 2) (.int 1) (.int 0) 1 (.list []) [] {} = .ok (p, shelf) ∧ Solves p twofold ∧
      refine twofold [.make 0 [] [] none none] = .ok refined ∧
      ¬ ∃ polynomials, p.act true = .ok polynomials ∧ Recoverable twofold refined 0 (unknowns polynomials) := by
  obtain ⟨p, shelf, made, acts⟩ := exists_two_constants
  have solves : Solves p twofold := by
    refine (solves_iff acts).mpr ⟨by decide +kernel, fun name => ?_, fun name member state n same => ?_, ?_⟩
    · have names : (twofold.map (·.1)).filter isPolicyConstant = coefficients false 2 1 ++ coefficients true 2 1 := by
        decide +kernel
      rw [Bool.exists_bool, ← mem_append, ← names, mem_filter]
    · -- no name of the model begins as those of a report do
      have second := congrArg (fun s => s.toList.take 2) same
      rw [show (reportName state n).toList.take 2 = ['P', '_'] by simp [reportName]] at second
      revert second member
      clear same
      revert name
      decide +kernel
    · decide +kernel
  have single : (([.make 0 [] [] none none] : List State).map (·.id)).Nodup := by decide
  obtain ⟨count, refined, constants, result, exactly, _⟩ := coefficients_recoverable_iff Powers.Shelf.sound_empty
    (Nat.le_refl 1) rfl (by decide : 1 ≤ 2) made solves single
  refine ⟨p, shelf, refined, made, solves, result, fun recoverable => ?_⟩
  rcases exactly.mp (forall_mem_singleton.mpr recoverable) with none | zero | single
  · cases none
  · obtain ⟨polynomials, act, _, lengths⟩ := constants true
    obtain ⟨polynomials', act', names⟩ := acts true
    cases act.symm.trans act'
    have first : coefficientName true 0 0 ∈ unknowns polynomials := by
      rw [names]
      decide +kernel
    obtain ⟨a, member, inside⟩ := mem_flatMap.mp first
    have length := lengths a member
    rw [zero, length_eq_zero_iff] at length
    rw [length] at inside
    cases inside
  · cases single

/-- Of two actions only the values of the second one are reported. -/
theorem refine_twofold :
    refine twofold [.make 0 [] [] none none] = .ok [("V_safe_0_1", .int 7), ("P_0_1", .int 4)] := rfl

end Answer

end Supermartingale
