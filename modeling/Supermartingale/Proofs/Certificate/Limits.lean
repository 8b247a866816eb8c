import Supermartingale.Proofs.Certificate.Step
import Supermartingale.Proofs.Certificate.Template
import Supermartingale.Proofs.Constraint.Truth

/-!
# Limits of actions

The constraints on the limits hold exactly if every polynomial of every policy stays between the limits that are
given, in all states of the space.
-/

namespace Supermartingale

open List

theorem Powers.isNumeric_equation {names : List String} {stem : String} {rows : List (String × List ℕ)} {e : Equation}
    (made : equation names stem rows = .ok e) : e.IsNumeric := by
  rw [equation_eq stem (fits_of_equation made)] at made
  cases made
  intro m mem
  obtain ⟨row, -, rfl⟩ := mem_map.mp mem
  exact Monomial.isNumeral_canonical (by decide +kernel) _

theorem DecomposedPolicy.make_spec {actions states degree given : Value} {sets : ℕ}
    {limits : List (String × Value)} {shelf shelf' : Powers.Shelf} {p : DecomposedPolicy} (sound : shelf.Sound)
    (made : make actions states degree sets given limits shelf = .ok (p, shelf')) :
    p.limits = limits ∧ ∀ e ∈ p.policies.flatMap Policy.transitions, e.IsNumeric := by
  unfold make at made
  split at made
  · cases made
    exact ⟨rfl, forall_mem_nil _⟩
  · obtain ⟨_, _, made⟩ := bind_eq_ok.mp made
    dsimp only at made
    split at made
    · cases made
    · obtain ⟨⟨policies, shelf₁⟩, synthesised, made⟩ := bind_eq_ok.mp made
      cases made
      refine ⟨rfl, fun e mem => ?_⟩
      obtain ⟨q, listed, mem⟩ := mem_flatMap.mp mem
      obtain ⟨part, -, d, k, n, -, -, -, sought⟩ := exists_of_mem_right (synthesiseAll_spec sound synthesised).2 listed
      obtain ⟨i, -, template⟩ := exists_of_mem_right sought mem
      exact Powers.isNumeric_equation template

/-- A limit is not given, or it is a number that is read as it is spelled. -/
def Value.IsLimit (v : Value) : Option ℚ → Prop
  | none => v.isNull
  | some q => v.isNull = false ∧ Spells v.toText q ∧ ReadsExactly v.toText ∧ (Equation.ofText v.toText).isOk

namespace Certificate

variable {v : Value} {limit lower upper : Option ℚ}

theorem limitEquation_spec (h : v.IsLimit limit) : ∃ e, limitEquation v = .ok e ∧ (limit = none → e = none) ∧
    ∀ {action : Equation} (relation : Relation) (ρ : String → ℝ), action.IsNumeric →
      ((∀ i ∈ (e.map (Inequality.make action relation)).toList, i.Holds ρ) ↔
        ∀ b ∈ limit, relation.relax.Compares (action.eval ρ) b) := by
  cases limit with
  | none => exact ⟨none, if_pos h, fun _ => rfl, by simp⟩
  | some q =>
    obtain ⟨given, spells, exactly, read⟩ := h
    obtain ⟨e, made⟩ := exists_of_isOk read
    obtain ⟨numeric, value⟩ := spells.stands exactly made
    refine ⟨some e, by simp [limitEquation, given, made, Except.map], by simp, fun relation ρ known => ?_⟩
    simp [Inequality.holds_make relation ρ known numeric, value]

/-- The constraints on the limits are made, and they hold of the constants exactly if all actions of all policies stay
within the limits in every state of the space. -/
theorem actionLimits_hold_iff {actions states degree given : Value} {sets : ℕ} {limits : List (String × Value)}
    {shelf shelf' : Powers.Shelf} {p : DecomposedPolicy} (sound : shelf.Sound)
    (made : DecomposedPolicy.make actions states degree sets given limits shelf = .ok (p, shelf'))
    (least : (p.limit "min").IsLimit lower) (greatest : (p.limit "max").IsLimit upper) (c : Certificate) (m : Model) :
    ∃ ks, c.actionLimits m p = .ok ks ∧ (lower = none → upper = none → ks = []) ∧
      ∀ guards ρ, (∀ k ∈ ks, k.Holds guards ρ) ↔
        ∀ σ, (∀ s ∉ c.names, σ s = ρ s) → (∀ i ∈ m.space, i.Holds σ) →
          ∀ q ∈ p.policies, ∀ action ∈ q.transitions,
            (∀ b ∈ lower, (b : ℝ) ≤ action.eval σ) ∧ ∀ b ∈ upper, action.eval σ ≤ b := by
  have numeric := (DecomposedPolicy.make_spec sound made).2
  obtain ⟨low, readLow, noLow, holdsLow⟩ := limitEquation_spec least
  obtain ⟨high, readHigh, noHigh, holdsHigh⟩ := limitEquation_spec greatest
  set bounds : Equation → List Inequality := fun action =>
    (low.map (Inequality.make action .ge)).toList ++ (high.map (Inequality.make action .le)).toList with bounds_eq
  set constraint : List Inequality → Constraint := fun is =>
    .implication c.names (some (.joined (.ofInequalities m.space) .absent (.known .conjunction)))
      (.joined (.ofInequalities is) .absent (.known .conjunction)) with constraint_eq
  have hold_bounds {action : Equation} (known : action.IsNumeric) (σ : String → ℝ) :
      (∀ i ∈ bounds action, i.Holds σ) ↔ (∀ b ∈ lower, (b : ℝ) ≤ action.eval σ) ∧ ∀ b ∈ upper, action.eval σ ≤ b := by
    rw [bounds_eq, forall_mem_append, holdsLow .ge σ known, holdsHigh .le σ known]
    rfl
  refine ⟨(((p.policies.flatMap Policy.transitions).map bounds).filter fun is => !is.isEmpty).map constraint,
    ?_, fun none none' => ?_, fun guards ρ => ?_⟩
  · exact bind_eq_ok.mpr ⟨low, readLow, bind_eq_ok.mpr ⟨high, readHigh, mapM_pure⟩⟩
  · simp [bounds_eq, noLow none, noHigh none']
  · have holds (is : List Inequality) : (constraint is).Holds guards ρ ↔
        ∀ σ, (∀ s ∉ c.names, σ s = ρ s) → (∀ i ∈ m.space, i.Holds σ) → ∀ i ∈ is, i.Holds σ := by
      simp [constraint_eq, Constraint.Holds]
    constructor
    · intro all σ same inside q listed action mem
      have known := mem_flatMap.mpr ⟨q, listed, mem⟩
      rw [← hold_bounds (numeric action known)]
      intro i bound
      have nonempty : (!(bounds action).isEmpty) = true := by simpa using ne_nil_of_mem bound
      refine (holds (bounds action)).mp (all _ (mem_map_of_mem (mem_filter.mpr ⟨?_, nonempty⟩))) σ same inside i
        bound
      exact mem_map_of_mem known
    · intro within k mem
      obtain ⟨is, chosen, rfl⟩ := mem_map.mp mem
      obtain ⟨action, known, rfl⟩ := mem_map.mp (mem_of_mem_filter chosen)
      obtain ⟨q, listed, own⟩ := mem_flatMap.mp known
      refine (holds _).mpr fun σ same inside => (hold_bounds (numeric action known) σ).mpr ?_
      exact within σ same inside q listed action own

/-- One action that must not be negative, and without an upper limit. -/
theorem nonnegative_action_limits : ∃ p, (∃ shelf, DecomposedPolicy.make (.number (.int 1)) (.number (.int 1))
      (.number (.int 1)) 1 (.list []) [("min", .number (.int 0))] {} = .ok (p, shelf)) ∧
    ∀ c m, ∃ ks, actionLimits c m p = .ok ks ∧ ∀ guards ρ, (∀ k ∈ ks, k.Holds guards ρ) ↔
      ∀ σ, (∀ s ∉ c.names, σ s = ρ s) → (∀ i ∈ m.space, i.Holds σ) →
        ∀ q ∈ p.policies, ∀ action ∈ q.transitions, 0 ≤ action.eval σ := by
  obtain ⟨⟨p, shelf⟩, made⟩ := exists_of_isOk (x := DecomposedPolicy.make (.number (.int 1)) (.number (.int 1))
    (.number (.int 1)) 1 (.list []) [("min", .number (.int 0))] {}) (by decide +kernel)
  have kept := (DecomposedPolicy.make_spec Powers.Shelf.sound_empty made).1
  have zero : (p.limit "min").IsLimit (some 0) := by
    rw [DecomposedPolicy.limit, kept]
    exact ⟨rfl, .of_whole spellsWhole_zero, readsExactly_sound (by decide +kernel), by decide +kernel⟩
  have absent : (p.limit "max").IsLimit none := by
    rw [DecomposedPolicy.limit, kept]
    rfl
  refine ⟨p, ⟨shelf, made⟩, fun c m => ?_⟩
  obtain ⟨ks, result, -, holds⟩ := actionLimits_hold_iff Powers.Shelf.sound_empty made zero absent c m
  exact ⟨ks, result, by simpa using holds⟩

end Certificate

end Supermartingale
