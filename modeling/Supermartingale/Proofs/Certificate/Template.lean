import Supermartingale.Proofs.Dynamics.Loop
import Supermartingale.Proofs.Noise.Table
import Supermartingale.Proofs.Policy.Synthesis
import Supermartingale.Proofs.Polynomial.Arithmetic

/-!
# Templates of a certificate and of a policy

A certificate has two families of templates over the same variables, and parameters that stand for its own unknowns.
The policies to be found are templates, too, so what acts in a state is a polynomial over the state variable.
-/

namespace Supermartingale

open Equation

/-! ## Families -/

/-- All polynomials of a family are templates of a degree over the state variable. -/
def Family.Templates (family : Family) (stem : String) (d : ℤ) : Prop :=
  ∀ state e, family.get state = .ok e →
    ∃ i : ℕ, Powers.equation ["S1"] (stem ++ "_" ++ toString i) (Powers.table d 1) = .ok e

variable {e : Equation} {s stem state : String} {states actions degree : Value} {shelf shelf' : Powers.Shelf}
  {v : CertificateVariables} {family : Family} {d : ℤ} {c : Certificate} {q bound : ℚ} {count k : ℕ}

theorem Family.exists_of_get (got : family.get state = .ok e) : ∃ key, (key, e) ∈ family.equations := by
  unfold get at got
  split at got
  · rename_i key e' found
    cases got
    exact ⟨key, List.mem_of_find?_eq_some found⟩
  · cases got

theorem Family.templates_make
    (made : make ["S1"] stem count (Powers.table d 1) = .ok family) : family.Templates stem d := by
  intro state e got
  obtain ⟨equations, read, same⟩ := bind_eq_ok.mp made
  cases same
  obtain ⟨key, mem⟩ := exists_of_get got
  obtain ⟨⟨key', stem'⟩, inside, template⟩ := exists_of_mem_mapM read mem
  obtain ⟨i, _, same⟩ := List.mem_map.mp inside
  cases same
  obtain ⟨e', template, same⟩ := bind_eq_ok.mp template
  cases same
  exact ⟨i, template⟩

theorem Family.Templates.overState
    (templates : family.Templates stem d) (isStem : IsStem stem) (writable : isWritable d.toNat)
    (got : family.get state = .ok e) : e.OverState := by
  obtain ⟨i, made⟩ := templates state e got
  exact Powers.overState_equation (isStem.indexed i) writable made

theorem stateNames_one : Powers.stateNames 1 = ["S1"] := by decide

theorem Template.make_spec {kind : TemplateKind} {number : Option ℤ} {t : Template} (sound : shelf.Sound)
    (single : states.count = .ok 1) (isDegree : degree.IsDegree d)
    (made : make kind number states actions degree count ["S1"] shelf = .ok (t, shelf')) :
    shelf'.Sound ∧ t.family.Templates (kind.signature ++ number.elim "" toString) d := by
  unfold make at made
  dsimp only at made
  split at made
  · cases made
  · obtain ⟨⟨rows, shelf₁⟩, got, made⟩ := bind_eq_ok.mp made
    obtain ⟨family, templates, made⟩ := bind_eq_ok.mp made
    cases made
    obtain ⟨kept, d', n, isDegree', dimension, rfl⟩ := sound.get got
    cases isDegree.unique isDegree'
    cases single.symm.trans dimension
    exact ⟨kept, Family.templates_make templates⟩

/-! ## Parameters -/

theorem Equation.stands_name (unknown : IsUnknown s) (made : ofText s = .ok e) : e.Stands fun ρ => ρ s := by
  let p : Phrase .sum := .plain (.single (.unsigned (.lone (.name s unknown))))
  have text : p.text = s := String.ofList_toList
  rw [← text] at made
  exact (Phrase.readsExactly rfl).phrase made

theorem Equation.stands_zero (made : ofText "0" = .ok e) : e.Stands fun _ => 0 := by
  let p : Phrase .sum := .plain .zero
  have text : p.text = "0" := rfl
  rw [← text] at made
  obtain ⟨numeric, value⟩ := (Phrase.readsExactly (p := p) rfl).phrase made
  refine ⟨numeric, fun ρ => ?_⟩
  rw [value, ← p.evalPowers_eq_eval]
  exact Phrase.evalPowers_zero fun s n => ρ s ^ n

theorem Spells.exists_phrase (spells : Spells s q) :
    ∃ p : Phrase .sum, p.text = s ∧ p.names = [] ∧ p.tree.number = q := by
  obtain ⟨n, chars, rfl⟩ := spells
  have closed := n.names_signed (p := .lone n.atom) n.closed
  refine ⟨.plain (.single (n.signed (.lone n.atom))), ?_, closed, n.number_lone⟩
  rw [Phrase.text, Phrase.chars, Phrase.chars, ← SignedNumeral.chars, chars, String.ofList_toList]

theorem Spells.spelled_eq (spells : Spells s q) : Expression.spelled s = q := by
  obtain ⟨p, text, _, number⟩ := spells.exists_phrase
  rw [Expression.spelled, ← text, p.read_text]
  exact number

theorem Spells.stands (spells : Spells s q) (exactly : ReadsExactly s)
    (made : ofText s = .ok e) : e.Stands fun _ => q := by
  obtain ⟨p, text, closed, number⟩ := spells.exists_phrase
  rw [← text] at made exactly
  obtain ⟨numeric, values⟩ := exactly.phrase made
  refine ⟨numeric, fun ρ => ?_⟩
  rw [values, p.eval_of_closed closed, number]
  rfl

namespace CertificateVariables

theorem make_spec {probability step : Value} {v : CertificateVariables} (made : make probability step = .ok v) :
    ofText step.toText = .ok v.stepBound ∧ ofText "0" = .ok v.zero ∧
      ofText "Epsilon_safe" = .ok v.safeDecrease ∧
      ofText "Epsilon_live" = .ok v.liveDecrease ∧
      ofText "Beta_safe" = .ok v.safeOffset ∧ ofText "Delta_live" = .ok v.liveStep := by
  unfold make at made
  dsimp only at made
  split at made
  swap
  · cases made
  rw [pure_bind] at made
  split at made
  · cases made
  split at made
  swap
  · cases made
  rw [pure_bind] at made
  split at made
  · cases made
  obtain ⟨_, _, made⟩ := bind_eq_ok.mp made
  obtain ⟨_, _, made⟩ := bind_eq_ok.mp made
  obtain ⟨_, stepBound, made⟩ := bind_eq_ok.mp made
  obtain ⟨_, zero, made⟩ := bind_eq_ok.mp made
  obtain ⟨_, _, made⟩ := bind_eq_ok.mp made
  obtain ⟨_, safeDecrease, made⟩ := bind_eq_ok.mp made
  obtain ⟨_, liveDecrease, made⟩ := bind_eq_ok.mp made
  obtain ⟨_, safeOffset, made⟩ := bind_eq_ok.mp made
  obtain ⟨_, _, made⟩ := bind_eq_ok.mp made
  obtain ⟨_, _, made⟩ := bind_eq_ok.mp made
  obtain ⟨_, liveStep, made⟩ := bind_eq_ok.mp made
  cases made
  exact ⟨stepBound, zero, safeDecrease, liveDecrease, safeOffset, liveStep⟩

/-- The parameters stand for the unknowns of a certificate, for zero and for the step bound. -/
structure Mean (v : CertificateVariables) (bound : ℚ) : Prop where
  stepBound : v.stepBound.Stands fun _ => bound
  zero : v.zero.Stands fun _ => 0
  safeDecrease : v.safeDecrease.Stands fun ρ => ρ "Epsilon_safe"
  liveDecrease : v.liveDecrease.Stands fun ρ => ρ "Epsilon_live"
  safeOffset : v.safeOffset.Stands fun ρ => ρ "Beta_safe"
  liveStep : v.liveStep.Stands fun ρ => ρ "Delta_live"

end CertificateVariables

theorem CertificateVariables.mean_make {probability step : Value}
    (made : make probability step = .ok v) (spells : Spells step.toText bound)
    (exactly : ReadsExactly step.toText) : v.Mean bound := by
  obtain ⟨stepBound, zero, safeDecrease, liveDecrease, safeOffset, liveStep⟩ := make_spec made
  have name {s : String} (mem : s ∈ constants) {e : Equation} (made : ofText s = .ok e) :
      e.Stands fun ρ => ρ s := stands_name (isUnknown_parameter mem) made
  exact ⟨spells.stands exactly stepBound, stands_zero zero, name (by decide) safeDecrease,
    name (by decide) liveDecrease, name (by decide) safeOffset, name (by decide) liveStep⟩

theorem Certificate.make_spec {count sets : ℕ} (sound : shelf.Sound)
    (single : states.count = .ok 1) (isDegree : degree.IsDegree d)
    (made : make states actions degree count sets v shelf = .ok (c, shelf')) :
    c.safe.family.Templates "V_safe" d ∧ c.live.family.Templates "V_live0" d ∧ c.parameters = v := by
  obtain ⟨n, counted, made⟩ := bind_eq_ok.mp made
  cases single.symm.trans counted
  obtain ⟨⟨live, shelf₁⟩, first, made⟩ := bind_eq_ok.mp made
  obtain ⟨⟨safe, shelf₂⟩, second, made⟩ := bind_eq_ok.mp made
  cases made
  rw [stateNames_one] at first second
  obtain ⟨kept, liveTemplates⟩ := Template.make_spec sound single isDegree first
  obtain ⟨_, safeTemplates⟩ := Template.make_spec kept single isDegree second
  exact ⟨safeTemplates, liveTemplates, rfl⟩

/-- A certificate of a degree for one state variable, with a step bound that is read exactly. -/
inductive Certificate.Sought : Certificate → ℕ → ℚ → Prop where
  | intro {states actions degree probability step : Value} {count sets d : ℕ} {v : CertificateVariables}
      {shelf shelf' : Powers.Shelf} {c : Certificate} {bound : ℚ} (sound : shelf.Sound)
      (single : states.count = .ok 1) (isDegree : degree.IsDegree d) (writable : isWritable d)
      (parameters : CertificateVariables.make probability step = .ok v)
      (spells : Spells step.toText bound) (exactly : ReadsExactly step.toText)
      (made : Certificate.make states actions degree count sets v shelf = .ok (c, shelf')) :
      Sought c d bound

theorem Certificate.Sought.spec {d : ℕ} (sought : c.Sought d bound) : isWritable d ∧
    c.safe.family.Templates "V_safe" d ∧ c.live.family.Templates "V_live0" d ∧ c.parameters.Mean bound := by
  obtain ⟨sound, single, isDegree, writable, parameters, spells, exactly, made⟩ := sought
  obtain ⟨safe, live, rfl⟩ := Certificate.make_spec sound single isDegree made
  exact ⟨writable, safe, live, CertificateVariables.mean_make parameters spells exactly⟩

/-! ## Policies -/

/-- A decomposed policy to be found for one state variable and some actions. -/
inductive DecomposedPolicy.Synthesised : DecomposedPolicy → ℕ → Prop where
  | intro {actions states degree given : Value} {sets k : ℕ} {d : ℤ} {limits : List (String × Value)}
      {shelf shelf' : Powers.Shelf} {p : DecomposedPolicy} (sound : shelf.Sound)
      (single : states.count = .ok 1) (number : actions.count = .ok k) (isDegree : degree.IsDegree d)
      (writable : isWritable d.toNat) (some : 1 ≤ sets)
      (made : make actions states degree sets given limits shelf = .ok (p, shelf')) : Synthesised p k

theorem isStem_policy (accepting : Bool) : IsStem (DecomposedPolicy.stem accepting) := by
  cases accepting with
  | true =>
    refine ⟨⟨'P', ['b', '0'], by decide, by decide, by decide⟩, ?_⟩
    unfold IsConstant
    decide
  | false =>
    refine ⟨⟨'P', ['a'], by decide, by decide, by decide⟩, ?_⟩
    unfold IsConstant
    decide

theorem Policy.Sought.exists_feedback {q : Policy}
    (sought : q.Sought stem k 1 d) (isStem : IsStem stem) (writable : isWritable d.toNat) :
    ∃ u : Feedback k, u.table = q.call := by
  refine ⟨⟨q.transitions, ?_, fun e mem => ?_⟩, rfl⟩
  · rw [← sought.length_eq, List.length_range]
  · obtain ⟨i, _, template⟩ := exists_of_mem_right sought mem
    rw [stateNames_one] at template
    exact Powers.overState_equation (isStem.indexed (i + 1)) writable template

theorem DecomposedPolicy.Synthesised.exists_feedback {p : DecomposedPolicy}
    (synthesised : p.Synthesised k) (accepting : Bool) : ∃ u : Feedback k, p.act accepting = .ok u.table := by
  obtain ⟨sound, single, number, isDegree, writable, some, made⟩ := synthesised
  rename_i actions states degree given sets d limits shelf shelf'
  cases idle : actions.isInt 0 with
  | false =>
    obtain ⟨d', k', n, isDegree', number', dimension, acts⟩ := act_spec sound some idle made
    cases isDegree.unique isDegree'
    cases number.symm.trans number'
    cases single.symm.trans dimension
    obtain ⟨q, act, sought⟩ := acts accepting
    obtain ⟨u, same⟩ := sought.exists_feedback (isStem_policy accepting) writable
    exact ⟨u, same ▸ act⟩
  | true =>
    unfold make at made
    rw [if_pos idle] at made
    cases made
    have none : k = 0 := by
      obtain ⟨i, known, rfl⟩ := Value.count_eq_ok.mp number
      simp only [Value.isInt, known, Number.same, beq_iff_eq] at idle
      omega
    subst none
    refine ⟨⟨[], rfl, List.forall_mem_nil _⟩, ?_⟩
    rw [act, isIdle, if_pos idle]
    rfl

end Supermartingale
