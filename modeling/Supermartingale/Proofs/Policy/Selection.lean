import Supermartingale.Certificate.Step
import Supermartingale.Proofs.Policy.Synthesis

/-!
# Which policy acts in a state

Three conditions pick the policy of an automaton state: the invariant looks at all policies for acceptance sets, the
expected change takes the first one, and the largest change asks for the only one. They agree where the state is not
accepting, or there is a single acceptance set.
-/

namespace Supermartingale

open Certificate DecomposedPolicy InvariantTemplate

namespace DecomposedPolicy

variable {actions states degree given : Value} {sets : ℕ} {limits : List (String × Value)}
  {shelf shelf' : Powers.Shelf} {p : DecomposedPolicy}

theorem length_synthesiseAll {parts : List (String × PolicyGoal)} {policies : List Policy}
    (made : synthesiseAll actions states degree parts shelf = .ok (policies, shelf')) :
    policies.length = parts.length := by
  induction parts generalizing shelf policies with
  | nil =>
    cases made
    rfl
  | cons part parts ih =>
    obtain ⟨⟨q, shelf₁⟩, _, made⟩ := bind_eq_ok.mp made
    obtain ⟨⟨qs, shelf₂⟩, rest, made⟩ := bind_eq_ok.mp made
    cases made
    simp [ih rest]

/-- The policies of a system with actions: one for reaching acceptance, and one for each of the sets. -/
structure Splits (p : DecomposedPolicy) (reach : Policy) (again : List Policy) : Prop where
  active : p.isIdle = false
  policies : p.policies = reach :: again

theorem exists_splits (active : actions.isInt 0 = false)
    (made : make actions states degree sets given limits shelf = .ok (p, shelf')) :
    ∃ reach again, p.Splits reach again ∧ again.length = sets := by
  unfold make at made
  rw [if_neg (by simp [active])] at made
  obtain ⟨_, _, made⟩ := bind_eq_ok.mp made
  dsimp only at made
  split at made
  · cases made
  · obtain ⟨⟨policies, shelf₁⟩, synthesised, made⟩ := bind_eq_ok.mp made
    cases made
    have length := length_synthesiseAll synthesised
    cases policies with
    | nil => simp [parts] at length
    | cons reach again => exact ⟨reach, again, ⟨active, rfl⟩, by simpa [parts] using length⟩

namespace Splits

variable {reach : Policy} {again : List Policy}

theorem get_reach (splits : p.Splits reach again) : p.get .reach = .ok reach := by
  simp [get, position, splits.policies, bind, Except.bind, pure, Except.pure]

theorem get_numbered (splits : p.Splits reach again) {n : ℕ} (inside : n < again.length) :
    p.get .buchi (some (Int.ofNat n)) = .ok again[n] := by
  have refused : ¬ (Int.ofNat n < 0 || (p.policies.length : ℤ) - 1 ≤ Int.ofNat n) := by
    simp [splits.policies]
    omega
  have position : p.position .buchi (some (Int.ofNat n)) = .ok (n + 1) := if_neg refused
  rw [get, position]
  simp [splits.policies, inside, bind, Except.bind, pure, Except.pure]

theorem mapM_get (splits : p.Splits reach again) :
    ((List.range again.length).map Int.ofNat).mapM (fun n => p.get .buchi (some n)) = .ok again := by
  rw [mapM_eq_ok, List.forall₂_map_left_iff, List.forall₂_iff_get]
  refine ⟨by simp, fun i _ inside => ?_⟩
  simpa using splits.get_numbered inside

theorem get_unnumbered {first : Policy} (splits : p.Splits reach (first :: again)) :
    p.get .buchi = if again.isEmpty then .ok first else .error .policyNumberMissing := by
  cases again with
  | nil => simp [get, position, splits.policies, bind, Except.bind, pure, Except.pure]
  | cons second rest => simp [get, position, splits.policies, bind, Except.bind]

end Splits

end DecomposedPolicy

/-! ## Three ways to pick a policy -/

/-- The three conditions pick the same policy, and only that one. -/
def Model.PicksOnePolicy (m : Model) (p : DecomposedPolicy) (s : State) : Prop :=
  ∃ actions, p.act s.isAccepting = .ok actions ∧ actingPolicy p s = .ok actions ∧
    ∃ possible, possibleActions m p s = .ok possible ∧ ∀ other, other ∈ possible ↔ other = actions

namespace DecomposedPolicy.Splits

variable {p : DecomposedPolicy} {reach first : Policy} {again : List Policy} {m : Model} {s : State}

theorem picks_reach (splits : p.Splits reach again) (elsewhere : s.isAccepting = false) :
    p.act s.isAccepting = .ok reach.call ∧ actingPolicy p s = .ok reach.call ∧
      possibleActions m p s = .ok [reach.call] := by
  have got := splits.get_reach
  have active := splits.active
  refine ⟨?_, ?_, ?_⟩
  · simp [act, active, elsewhere, got, bind, Except.bind, pure, Except.pure]
  · simp [actingPolicy, active, elsewhere, got, bind, Except.bind, pure, Except.pure]
  · simp [possibleActions, active, elsewhere, got, bind, Except.bind, pure, Except.pure, Except.map]

/-- In an accepting state the first policy, the only one and all of them are taken. -/
theorem picks_again (splits : p.Splits reach (first :: again)) (accepting : s.isAccepting)
    (listed : m.automaton.sets = (List.range (again.length + 1)).map Int.ofNat) :
    p.act s.isAccepting = .ok first.call ∧
      actingPolicy p s = (if again.isEmpty then .ok first.call else .error .policyNumberMissing) ∧
      possibleActions m p s = .ok ((first :: again).map Policy.call) := by
  have active := splits.active
  have numbered : p.get .buchi (some 0) = .ok first := splits.get_numbered (n := 0) (by simp)
  have unnumbered := splits.get_unnumbered
  have all : m.automaton.sets.mapM (fun n => p.get .buchi (some n)) = .ok (first :: again) := by
    rw [listed]
    exact splits.mapM_get
  refine ⟨?_, ?_, ?_⟩
  · simp [act, active, accepting, numbered, bind, Except.bind, pure, Except.pure]
  · cases again with
    | nil => simp [actingPolicy, active, accepting, unnumbered, bind, Except.bind, pure, Except.pure]
    | cons second rest => simp [actingPolicy, active, accepting, unnumbered, bind, Except.bind]
  · simp [possibleActions, active, accepting, all, bind, Except.bind, pure, Except.pure]

end DecomposedPolicy.Splits

def Model.patrolling (k : ℕ) : Model where
  space := []
  initial := []
  dynamics := ⟨.number (.int 1), []⟩
  noise := ⟨.number (.int 0), .uniform (.list []) (.list [])⟩
  automaton :=
    ⟨"0", [.make 0 ((List.range k).map Int.ofNat) [.make 0 [] ""] none none], (List.range k).map Int.ofNat, [], [], []⟩

/-- The conditions agree on the policy of a state exactly if it is not accepting or there is only one
acceptance set. -/
theorem Model.picksOnePolicy_iff {actions states degree given : Value} {k n : ℕ}
    {limits : List (String × Value)} {shelf shelf' : Powers.Shelf} {p : DecomposedPolicy}
    (dimension : actions.count = .ok n) (some : 1 ≤ n) (sets : 1 ≤ k)
    (made : make actions states degree k given limits shelf = .ok (p, shelf')) {m : Model}
    (listed : m.automaton.sets = (List.range k).map Int.ofNat) (s : State) :
    m.PicksOnePolicy p s ↔ (s.isAccepting → k = 1) := by
  have active : actions.isInt 0 = false := by
    obtain ⟨i, known, size⟩ := Value.count_eq_ok.mp dimension
    simp only [Value.isInt, known, Number.same, beq_eq_false_iff_ne]
    omega
  obtain ⟨reach, again, splits, length⟩ := exists_splits active made
  cases accepting : s.isAccepting with
  | false =>
    obtain ⟨acts, acting, possible⟩ := splits.picks_reach (m := m) accepting
    exact iff_of_true ⟨_, acts, acting, _, possible, by simp⟩ (by simp)
  | true =>
    cases again with
    | nil =>
      simp at length
      omega
    | cons first again =>
      obtain ⟨acts, acting, possible⟩ := splits.picks_again accepting (by simpa [← length] using listed)
      cases again with
      | nil => exact iff_of_true ⟨_, acts, acting, _, possible, by simp⟩ (fun _ => by simpa using length.symm)
      | cons second again =>
        -- the condition that asks for the only policy is refused
        refine iff_of_false ?_ (fun single => ?_)
        · rintro ⟨_, _, other, _⟩
          simp [acting] at other
        · have one := single rfl
          simp at length
          omega

theorem Model.patrolling_picksOnePolicy_iff :
    ∃ p shelf, (Value.number (.int 1)).count = .ok 1 ∧ make (.number (.int 1)) (.number (.int 1))
        (.number (.int 1)) 1 (.list []) [] {} = .ok (p, shelf) ∧
      (patrolling 1).automaton.sets = (List.range 1).map Int.ofNat ∧
      ∃ s ∈ (patrolling 1).automaton.states, s.isAccepting ∧
        ((patrolling 1).PicksOnePolicy p s ↔ (s.isAccepting → 1 = 1)) := by
  obtain ⟨⟨p, shelf⟩, made⟩ := exists_of_isOk (x := make (.number (.int 1)) (.number (.int 1))
    (.number (.int 1)) 1 (.list []) [] {}) (by decide +kernel)
  refine ⟨p, shelf, rfl, made, rfl, _, List.mem_singleton_self _, rfl, ?_⟩
  exact picksOnePolicy_iff (n := 1) rfl le_rfl le_rfl made rfl _

/-- With two acceptance sets no policy is agreed on. -/
theorem Model.not_picksOnePolicy_patrolling :
    ∃ p shelf, make (.number (.int 1)) (.number (.int 1)) (.number (.int 1)) 2 (.list []) [] {} =
        .ok (p, shelf) ∧
      ∃ s ∈ (patrolling 2).automaton.states, s.isAccepting ∧ ¬ (patrolling 2).PicksOnePolicy p s := by
  obtain ⟨⟨p, shelf⟩, made⟩ := exists_of_isOk (x := make (.number (.int 1)) (.number (.int 1))
    (.number (.int 1)) 2 (.list []) [] {}) (by decide +kernel)
  refine ⟨p, shelf, made, _, List.mem_singleton_self _, rfl, ?_⟩
  obtain ⟨reach, again, splits, length⟩ := exists_splits (by decide) made
  match again, length with
  | [first, second], _ =>
    rintro ⟨_, _, other, _⟩
    have refused := (splits.picks_again (m := patrolling 2) (s := .make 0 ((List.range 2).map Int.ofNat)
      [.make 0 [] ""] none none) rfl rfl).2.1
    cases refused.symm.trans other

end Supermartingale
