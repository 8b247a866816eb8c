import Supermartingale.Constraint
import Supermartingale.Proofs.Polynomial.Arithmetic

/-!
# The truth of constraints

A formula is true or false where names have real values and guards are true or false. An absent operand
and an empty list are neutral. An implication is true if it holds for all values of its bound variables.
-/

namespace Supermartingale

namespace Joining

/-- Whether a joining is a disjunction. One that is not known has a single operand, so that it does not
matter what it is. -/
def isDisjunction : Joining → Bool
  | .known .disjunction => true
  | _ => false

def Joins (joining : Joining) (p q : Prop) : Prop := if joining.isDisjunction then p ∨ q else p ∧ q

def Neutral (joining : Joining) : Prop := joining.isDisjunction = false

end Joining

mutual

def Formula.Holds (guards : Guard → Prop) (ρ : String → ℝ) : Formula → Prop
  | .inequality i => i.Holds ρ
  | .guarded guard body joining => guards guard ∧ Operand.Holds guards ρ joining body
  | .joined first second joining =>
    joining.Joins (Operand.Holds guards ρ joining first) (Operand.Holds guards ρ joining second)
  | .hole => False

def Operand.Holds (guards : Guard → Prop) (ρ : String → ℝ) (joining : Joining) : Operand → Prop
  | .absent => joining.Neutral
  | .one f => Formula.Holds guards ρ f
  | .list fs => Formula.MembersHold guards ρ joining fs

def Formula.MembersHold (guards : Guard → Prop) (ρ : String → ℝ) (joining : Joining) :
    List Formula → Prop
  | [] => joining.Neutral
  | f :: fs => joining.Joins (Formula.Holds guards ρ f) (Formula.MembersHold guards ρ joining fs)

end

variable (guards : Guard → Prop) (ρ : String → ℝ)

@[simp]
theorem Formula.holds_inequality (i : Inequality) : Formula.Holds guards ρ (.inequality i) ↔ i.Holds ρ := by
  rw [Formula.Holds]

@[simp]
theorem Formula.holds_conjunction (first second : Operand) :
    Formula.Holds guards ρ (.joined first second (.known .conjunction)) ↔
      Operand.Holds guards ρ (.known .conjunction) first ∧
        Operand.Holds guards ρ (.known .conjunction) second := by
  rw [Formula.Holds]
  exact Iff.rfl

@[simp]
theorem Formula.holds_guarded (guard : Guard) (body : Operand) :
    Formula.Holds guards ρ (.guarded guard body (.known .conjunction)) ↔
      guards guard ∧ Operand.Holds guards ρ (.known .conjunction) body := by
  rw [Formula.Holds]

@[simp]
theorem Operand.holds_absent : Operand.Holds guards ρ (.known .conjunction) .absent ↔ True := by
  rw [Operand.Holds]
  exact iff_true_intro rfl

@[simp]
theorem Operand.holds_one (f : Formula) :
    Operand.Holds guards ρ (.known .conjunction) (.one f) ↔ Formula.Holds guards ρ f := by
  rw [Operand.Holds]

@[simp]
theorem Operand.holds_list (fs : List Formula) :
    Operand.Holds guards ρ (.known .conjunction) (.list fs) ↔ ∀ f ∈ fs, Formula.Holds guards ρ f := by
  rw [Operand.Holds]
  induction fs with
  | nil =>
    rw [Formula.MembersHold]
    exact iff_of_true rfl (List.forall_mem_nil _)
  | cons f fs ih =>
    rw [Formula.MembersHold, List.forall_mem_cons, ← ih]
    exact Iff.rfl

@[simp]
theorem Operand.holds_ofInequality (i : Inequality) :
    Operand.Holds guards ρ (.known .conjunction) (.ofInequality i) ↔ i.Holds ρ := by
  rw [ofInequality, holds_one, Formula.holds_inequality]

@[simp]
theorem Operand.holds_ofInequalities (is : List Inequality) :
    Operand.Holds guards ρ (.known .conjunction) (.ofInequalities is) ↔ ∀ i ∈ is, i.Holds ρ := by
  rw [ofInequalities, holds_list, List.forall_mem_map]
  simp only [Formula.holds_inequality]

/-- Whether a constraint on the constants is true: an implication holds for all values of its bound
variables. The truth of a guard may depend on them. -/
def Constraint.Holds (guards : Guard → (String → ℝ) → Prop) (ρ : String → ℝ) : Constraint → Prop
  | .implication bound premise conclusion => ∀ σ : String → ℝ, (∀ s ∉ bound, σ s = ρ s) →
    (∀ f ∈ premise, f.Holds (fun g => guards g σ) σ) → conclusion.Holds (fun g => guards g σ) σ
  | .constant f => f.Holds (fun g => guards g ρ) ρ

/-- A constraint is an implication whose conclusion has a meaning where names have values. -/
def Constraint.Concludes (k : Constraint) (meaning : (String → ℝ) → Prop) : Prop :=
  ∃ names premise conclusion, k = .implication names premise conclusion ∧
    ∀ guards ρ, conclusion.Holds guards ρ ↔ meaning ρ

end Supermartingale
