import Supermartingale.Policy
import Supermartingale.Proofs.Policy.Naming
import Supermartingale.Proofs.Polynomial.Template

/-!
# Policies to be found

A decomposed policy has one template for every action and every goal; in accepting states the one of the first
acceptance set acts, elsewhere the one that reaches acceptance.
-/

namespace Supermartingale

open List Policy

/-! ## Policies -/

/-- A policy has a template with the stem for every action. -/
def Policy.Sought (q : Policy) (stem : String) (actions dimension : ℕ) (d : ℤ) : Prop :=
  Forall₂ (fun i e => Powers.equation (Powers.stateNames dimension)
      (actionStem stem (i + 1)) (Powers.table d dimension) = .ok e)
    (List.range actions) q.transitions

theorem Policy.make_spec {goal : PolicyGoal} {actions states degree : Value} {stem : String}
    {shelf shelf' : Powers.Shelf} {q : Policy} (sound : shelf.Sound)
    (made : make goal actions states degree [] stem shelf = .ok (q, shelf')) :
    shelf'.Sound ∧ ∃ (d : ℤ) (k n : ℕ), degree.IsDegree d ∧ actions.count = .ok k ∧
      states.count = .ok n ∧ q.Sought stem k n d := by
  cases idle : actions.isInt 0 with
  | true =>
    rw [make, if_pos idle] at made
    cases made
  | false =>
    have synthesised : synthesise goal actions states degree stem shelf = .ok (q, shelf') := by
      rw [make, if_neg (by simp [idle])] at made
      exact made
    unfold synthesise at synthesised
    dsimp only at synthesised
    split at synthesised
    · cases synthesised
    · obtain ⟨⟨rows, shelf₁⟩, got, rest⟩ := bind_eq_ok.mp synthesised
      obtain ⟨kept, d, n, isDegree, dimension, rfl⟩ := sound.get got
      obtain ⟨n', counted, rest⟩ := bind_eq_ok.mp rest
      cases dimension.symm.trans counted
      obtain ⟨k, number, rest⟩ := bind_eq_ok.mp rest
      obtain ⟨transitions, templates, rest⟩ := bind_eq_ok.mp rest
      cases rest
      refine ⟨kept, d, k, n, isDegree, number, dimension, ?_⟩
      exact forall₂_map_left_iff.mp (mapM_eq_ok.mp templates)

namespace DecomposedPolicy

variable {actions states degree given : Value} {sets : ℕ} {limits : List (String × Value)}
  {shelf shelf' : Powers.Shelf} {p : DecomposedPolicy}

theorem synthesiseAll_spec {parts : List (String × PolicyGoal)} {policies : List Policy} (sound : shelf.Sound)
    (made : synthesiseAll actions states degree parts shelf = .ok (policies, shelf')) :
    shelf'.Sound ∧ Forall₂ (fun (part : String × PolicyGoal) (q : Policy) =>
      ∃ (d : ℤ) (k n : ℕ), degree.IsDegree d ∧ actions.count = .ok k ∧ states.count = .ok n ∧
        q.Sought part.1 k n d) parts policies := by
  induction parts generalizing shelf policies with
  | nil =>
    cases made
    exact ⟨sound, .nil⟩
  | cons part parts ih =>
    obtain ⟨stem, goal⟩ := part
    obtain ⟨⟨q, shelf₁⟩, first, made⟩ := bind_eq_ok.mp made
    obtain ⟨⟨qs, shelf₂⟩, rest, made⟩ := bind_eq_ok.mp made
    cases made
    obtain ⟨kept, spec⟩ := make_spec sound first
    obtain ⟨last, specs⟩ := ih kept rest
    exact ⟨last, .cons spec specs⟩

/-- The stem of the constants of the policy that acts: that of the first acceptance set or that of the
policy for reaching acceptance. -/
def stem (accepting : Bool) : String := if accepting then "Pb0" else "Pa"

theorem act_spec (sound : shelf.Sound) (some : 1 ≤ sets) (active : actions.isInt 0 = false)
    (made : make actions states degree sets given limits shelf = .ok (p, shelf')) :
    ∃ (d : ℤ) (k n : ℕ), degree.IsDegree d ∧ actions.count = .ok k ∧ states.count = .ok n ∧
      ∀ accepting, ∃ q : Policy, p.act accepting = .ok q.call ∧ q.Sought (stem accepting) k n d := by
  unfold make at made
  rw [if_neg (by simp [active])] at made
  obtain ⟨_, _, made⟩ := bind_eq_ok.mp made
  dsimp only at made
  split at made
  · cases made
  · obtain ⟨⟨policies, shelf₁⟩, synthesised, made⟩ := bind_eq_ok.mp made
    cases made
    obtain ⟨_, specs⟩ := synthesiseAll_spec sound synthesised
    obtain ⟨more, rfl⟩ : ∃ more, sets = more + 1 := ⟨sets - 1, by omega⟩
    rw [parts, range_succ_eq_map, map_cons] at specs
    obtain ⟨reach, rest, ⟨d, k, n, isDegree, number, dimension, reaches⟩, later, same⟩ :=
      forall₂_cons_left_iff.mp specs
    obtain ⟨again, others, ⟨d', k', n', isDegree', number', dimension', repeats⟩, _, rfl⟩ :=
      forall₂_cons_left_iff.mp later
    cases isDegree.unique isDegree'
    cases number.symm.trans number'
    cases dimension.symm.trans dimension'
    refine ⟨d, k, n, isDegree, number, dimension, fun accepting => ?_⟩
    cases accepting with
    | true =>
      have known : ¬ ((others.length : ℤ) + 1 ≤ 0) := by omega
      refine ⟨again, ?_, repeats⟩
      simp [known, act, isIdle, active, get, position, same, bind, Except.bind, pure, Except.pure]
    | false =>
      refine ⟨reach, ?_, reaches⟩
      simp [act, isIdle, active, get, position, same, bind, Except.bind, pure, Except.pure]

/-- The name of a coefficient of an action in the policy that acts. -/
def coefficientName (accepting : Bool) (action i : ℕ) : String :=
  actionStem (stem accepting) (action + 1) ++ "_" ++ toString (i + 1)

theorem act_constants {m : ℕ} (sound : shelf.Sound) (some : 1 ≤ sets) (counted : actions.count = .ok m)
    (positive : 1 ≤ m) (made : make actions states degree sets given limits shelf = .ok (p, shelf')) :
    ∃ count, ∀ accepting, ∃ q : Policy, p.act accepting = .ok q.call ∧
      Forall₂ (fun i e => e.constants = (List.range count).map (coefficientName accepting i)) (List.range m)
        q.transitions := by
  have active : actions.isInt 0 = false := by
    obtain ⟨i, known, number⟩ := Value.count_eq_ok.mp counted
    simp only [Value.isInt, known, Number.same, beq_eq_false_iff_ne]
    omega
  obtain ⟨d, k, n, _, number, _, acts⟩ := act_spec sound some active made
  cases counted.symm.trans number
  refine ⟨(Powers.table d n).length, fun accepting => ?_⟩
  obtain ⟨q, act, sought⟩ := acts accepting
  refine ⟨q, act, sought.imp fun i e template => ?_⟩
  rw [Powers.constants_equation template (Powers.plain_stateNames n), Powers.constants_table]
  rfl

theorem act_single (sound : shelf.Sound) (some : 1 ≤ sets) (single : actions.count = .ok 1)
    (made : make actions states degree sets given limits shelf = .ok (p, shelf')) :
    ∃ count, ∀ accepting, ∃ e, p.act accepting = .ok [("A1", e)] ∧
      e.constants = (List.range count).map (coefficientName accepting 0) := by
  obtain ⟨count, acts⟩ := act_constants sound some single (Nat.le_refl 1) made
  refine ⟨count, fun accepting => ?_⟩
  obtain ⟨q, act, constants⟩ := acts accepting
  obtain ⟨e, rest, own, others, same⟩ := forall₂_cons_left_iff.mp constants
  cases forall₂_nil_left_iff.mp others
  refine ⟨e, ?_, own⟩
  rw [act, call, same]
  rfl

end DecomposedPolicy

end Supermartingale
