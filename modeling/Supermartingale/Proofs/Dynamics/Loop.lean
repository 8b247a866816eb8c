import Supermartingale.Model
import Supermartingale.Proofs.Polynomial.Template

/-!
# One state variable in closed loop

The next state is a polynomial over the state variable, the actions and the disturbances, and every action is one over
the state variable and unknown constants. With up to nine actions, the text of a template at the next state is a
phrase with the value that the template has there.
-/

namespace Supermartingale

open List Function Phrase Equation

/-! ## Names -/

/-- A name without the letters of variables. -/
def IsConstant (s : String) : Prop := ∀ c ∈ letters, c ∉ s.toList

theorem Apart.of_letter {letter : Char} (n : ℕ) {s : String} (absent : letter ∉ s.toList) :
    Apart (variableOf letter n) s := by
  refine .inr fun inside => absent (inside.subset ?_)
  rw [toList_variableOf]
  exact mem_cons_self

theorem not_mem_variableOf {c letter : Char} (other : c ≠ letter) (nondigit : c.isDigit = false) (n : ℕ) :
    c ∉ (variableOf letter n).toList := by
  rw [toList_variableOf]
  intro inside
  rcases mem_cons.mp inside with same | digit
  · exact other same
  · rw [isDigit_toDigits n c digit] at nondigit
    cases nondigit

theorem not_mem_of_overState {s : String} (h : s = "S1" ∨ IsConstant s) {c : Char}
    (letter : c ∈ ['A', 'D']) : c ∉ s.toList := by
  rcases h with rfl | constant
  · exact (by decide : ∀ c ∈ ['A', 'D'], c ∉ "S1".toList) c letter
  · exact constant c (mem_cons_of_mem _ letter)

/-- A name is a disturbance or does not have their letter. -/
def Disturbs (disturbances : ℕ) (s : String) : Prop := 'D' ∉ s.toList ∨ ∃ i < disturbances, s = variableOf 'D' (i + 1)

theorem Disturbs.apart {s : String} (h : Disturbs 1 s) : Apart "D1" s := by
  rcases h with absent | ⟨i, bound, rfl⟩
  · exact .of_letter 1 absent
  · exact apart_variableOf 'D' 1 (by omega)

/-- The start of the names of constants. -/
structure IsStem (s : String) : Prop where
  spelled : ∃ c cs, s.toList = c :: cs ∧ Token.startsName c ∧ ∀ d ∈ cs, Token.continuesName d
  constant : IsConstant s

namespace IsStem

variable {stem : String} (h : IsStem stem) (n : ℕ)
include h

theorem isUnknown : IsUnknown (stem ++ "_" ++ toString n) := by
  obtain ⟨c, cs, chars, starts, continues⟩ := h.spelled
  exact isUnknown_constant chars starts continues n

theorem indexed : IsStem (stem ++ "_" ++ toString n) := by
  have digits : (toString n).toList = Nat.toDigits 10 n := Nat.toList_repr
  constructor
  · obtain ⟨c, cs, chars, starts, continues⟩ := h.spelled
    refine ⟨c, cs ++ '_' :: Nat.toDigits 10 n, ?_, starts, fun d mem => ?_⟩
    · rw [String.toList_append, String.toList_append, chars, digits]
      simp
    · rcases mem_append.mp mem with old | new
      · exact continues d old
      · rcases mem_cons.mp new with rfl | digit
        · decide
        · exact continuesName_of_isDigit (isDigit_toDigits n d digit)
  · intro c letter mem
    rw [String.toList_append, String.toList_append, digits, mem_append, mem_append] at mem
    rcases mem with (old | mark) | digit
    · exact h.constant c letter old
    · exact (by decide : ∀ c ∈ letters, c ∉ "_".toList) c letter mark
    · have isDigit := isDigit_toDigits n c digit
      rw [(by decide : ∀ c ∈ letters, c.isDigit = false) c letter] at isDigit
      cases isDigit

end IsStem

/-- A polynomial over the state variable and constants. -/
structure Equation.OverState (e : Equation) : Prop where
  written : e.IsWritten
  names : ∀ s ∈ e.names, s = "S1" ∨ IsConstant s

theorem Equation.IsWritten.evalPowers_congr {R : Type} [CommRing R] [Algebra ℚ R] {e : Equation}
    (written : e.IsWritten) {values values' : String → ℕ → R} (agree : ∀ s ∈ e.names, values s = values' s) :
    e.evalPowers values = e.evalPowers values' := by
  obtain ⟨p, writes⟩ := exists_phrase written
  rw [← writes.value, ← writes.value]
  refine p.evalPowers_congr fun s mem => agree s ?_
  rw [← writes.names]
  exact mem

theorem Powers.overState_equation {stem : String} (isStem : IsStem stem) {d : ℤ}
    (writable : isWritable d.toNat) {e : Equation} (made : equation ["S1"] stem (table d 1) = .ok e) :
    e.OverState := by
  have constants : ∀ row ∈ table d 1, ∃ i : ℕ, constantName stem row = stem ++ "_" ++ toString i := by
    intro row mem
    obtain ⟨⟨i, index⟩, _⟩ := mem_table mem
    exact ⟨i + 1, by rw [constantName, index]⟩
  obtain ⟨written, names⟩ := equation_spec made (fun row mem => (mem_table mem).2.1)
    (fun s mem => by
      cases mem_singleton.mp mem
      exact isUnknown_variableOf (by decide : 'S' ∈ letters) 1)
    (fun row mem => by
      obtain ⟨i, name⟩ := constants row mem
      rw [name]
      exact isStem.isUnknown i)
    (fun row mem p power => by
      rw [isWritable_iff] at writable ⊢
      exact ((mem_table mem).2.2 p power).trans_lt writable)
  refine ⟨written, fun s mem => ?_⟩
  rcases names s mem with state | ⟨row, inside, rfl⟩
  · exact .inl (mem_singleton.mp state)
  · obtain ⟨i, name⟩ := constants row inside
    rw [name]
    exact .inr (isStem.indexed i).constant

def powerConstant (stem : String) (k : ℕ) : String := stem ++ "_" ++ toString (k + 1)

theorem IsStem.powerConstant_ne {stem s : String} (isStem : IsStem stem) (k : ℕ) {c : Char}
    (letter : c ∈ letters) (inside : c ∈ s.toList) : powerConstant stem k ≠ s := by
  rintro rfl
  exact (isStem.indexed (k + 1)).constant c letter inside

theorem Powers.evalPowers_template {R : Type} [CommRing R] [Algebra ℚ R] {stem : String} (isStem : IsStem stem)
    {d : ℕ} {e : Equation} (made : equation ["S1"] stem (table d 1) = .ok e) (values : String → ℕ → R) (y : R) :
    e.evalPowers (update values "S1" fun n => y ^ n) =
      ∑ k ∈ Finset.range (d + 1), y ^ k * values (powerConstant stem k) 1 := by
  rw [evalPowers_equation_one made]
  change _ = ((List.range (d + 1)).map fun k => y ^ k * values (powerConstant stem k) 1).sum
  refine congrArg List.sum (map_congr_left fun k _ => ?_)
  have other : powerConstant stem k ≠ "S1" := isStem.powerConstant_ne k (by decide : 'S' ∈ letters) (by decide)
  rw [← powerConstant, update_of_ne other, update_self]
  split
  · rename_i zero
    rw [zero, pow_zero]
  · rfl

theorem Equation.evalPowers_update {R : Type} [CommRing R] [Algebra ℚ R] (e : Equation) (σ : String → R) (y : R) :
    e.evalPowers (update (fun s n => σ s ^ n) "S1" fun n => y ^ n) =
      e.eval (update σ "S1" y) := by
  rw [← Equation.evalPowers_eq_eval]
  congr 1
  funext s
  by_cases state : s = "S1"
  · subst state
    simp
  · simp [update_of_ne state]

theorem Powers.eval_template {R : Type} [CommRing R] [Algebra ℚ R] {stem : String} (isStem : IsStem stem)
    {d : ℕ} {e : Equation} (made : equation ["S1"] stem (table d 1) = .ok e) (ρ : String → R) (y : R) :
    e.eval (update ρ "S1" y) =
      ∑ k ∈ Finset.range (d + 1), y ^ k * ρ (powerConstant stem k) := by
  rw [← evalPowers_update, evalPowers_template isStem made]
  simp only [pow_one]

/-! ## Transforms and actions -/

/-- The polynomials of actions over the state variable. -/
structure Feedback (actions : ℕ) where
  equations : List Equation
  length : equations.length = actions
  overState : ∀ e ∈ equations, e.OverState

/-- The polynomial of the next state over the state variable, actions and disturbances. -/
structure Transform (actions disturbances : ℕ) where
  equation : Equation
  written : equation.IsWritten
  names : ∀ s ∈ equation.names, s = "S1" ∨ (∃ i < actions, s = variableOf 'A' (i + 1)) ∨
    ∃ i < disturbances, s = variableOf 'D' (i + 1)

variable {actions disturbances : ℕ}

namespace Feedback

variable (u : Feedback actions)

def table : List (String × Equation) := u.equations.mapIdx fun i e => ("A" ++ toString (i + 1), e)

theorem mem_table {a : String × Equation} (mem : a ∈ u.table) :
    (∃ i < actions, a.1 = variableOf 'A' (i + 1)) ∧ a.2 ∈ u.equations := by
  obtain ⟨i, bound, rfl⟩ := mem_mapIdx.mp mem
  exact ⟨⟨i, u.length ▸ bound, (variableOf_eq 'A' (i + 1)).symm⟩, getElem_mem bound⟩

theorem mem_of_lookup {s : String} {e : Equation} (found : u.table.lookup s = some e) :
    (∃ i < actions, s = variableOf 'A' (i + 1)) ∧ e ∈ u.equations := by
  obtain ⟨before, after, split, _⟩ := lookup_eq_some_iff.mp found
  refine u.mem_table (a := (s, e)) ?_
  rw [split]
  simp

/-- The values of powers where every action has the value of its polynomial. -/
def acting {R : Type} [CommRing R] [Algebra ℚ R] (values : String → ℕ → R) (s : String) : ℕ → R :=
  match u.table.lookup s with
  | some e => fun n => e.evalPowers values ^ n
  | none => values s

theorem exists_entries : ∃ entries : List (String × Phrase .sum),
    Forall₂ (fun a v => v.1 = a.1 ∧ v.2.Writes a.2) u.table entries := by
  refine exists_forall₂ fun a mem => ?_
  obtain ⟨p, writes⟩ := exists_phrase (u.overState _ (u.mem_table mem).2).written
  exact ⟨(a.1, p), rfl, writes⟩

theorem lookup_entries {R : Type} [CommRing R] [Algebra ℚ R] (values : String → ℕ → R)
    {table : List (String × Equation)} {entries : List (String × Phrase .sum)}
    (same : Forall₂ (fun a v => v.1 = a.1 ∧ v.2.Writes a.2) table entries) (s : String) :
    (match entries.lookup s with
      | some v => fun n => v.evalPowers values ^ n
      | none => values s) =
    match table.lookup s with
      | some e => fun n => e.evalPowers values ^ n
      | none => values s := by
  induction same with
  | nil => rfl
  | @cons a v _ _ first _ ih =>
    obtain ⟨k, e⟩ := a
    obtain ⟨k', v⟩ := v
    obtain ⟨rfl, writes⟩ := first
    by_cases found : s = k'
    · subst found
      simp [writes.value R values]
    · simpa [lookup_cons, beq_eq_false_iff_ne.mpr found] using ih

theorem texts_entries {table : List (String × Equation)} {entries : List (String × Phrase .sum)}
    (same : Forall₂ (fun a v => v.1 = a.1 ∧ v.2.Writes a.2) table entries) :
    entries.map (fun v => (v.1, v.2.text)) = table.map fun a => (a.1, a.2.text) := by
  induction same with
  | nil => rfl
  | cons first _ ih => rw [map_cons, map_cons, ih, first.1, first.2.text]

end Feedback

namespace Transform

variable (f : Transform actions disturbances) (u : Feedback actions)

def moved {R : Type} [CommRing R] [Algebra ℚ R] (values : String → ℕ → R) : R := f.equation.evalPowers (u.acting values)

theorem moved_congr {R : Type} [CommRing R] [Algebra ℚ R] {values values' : String → ℕ → R}
    (transform : ∀ s ∈ f.equation.names, values s = values' s)
    (policies : ∀ e ∈ u.equations, ∀ s ∈ e.names, values s = values' s) :
    f.moved u values = f.moved u values' := by
  refine f.written.evalPowers_congr fun s mem => ?_
  unfold Feedback.acting
  cases found : u.table.lookup s with
  | none => exact transform s mem
  | some e =>
    have inside := (u.mem_of_lookup found).2
    dsimp only
    rw [(u.overState e inside).written.evalPowers_congr (policies e inside)]

def piece (condition : List Inequality) : Piece := ⟨condition, [f.equation]⟩

def nextText : String := f.equation.substitute (u.table.map fun a => (a.1, a.2.text))

theorem nextUnder_piece (condition : List Inequality) :
    (f.piece condition).nextUnder u.table = [("S1", f.nextText u)] := rfl

theorem exists_next (few : actions ≤ 9) : ∃ p : Phrase .sum, p.text = f.nextText u ∧
    (∀ s ∈ p.names, Disturbs disturbances s) ∧
    (f.equation.isRational → (∀ e ∈ u.equations, e.isRational) → p.isExact) ∧
    (∀ P : String → List Char → Prop, (∀ s ds, s = "S1" ∨ IsConstant s → P s ds) →
      f.equation.AllPowers P → p.AllPowers P) ∧
    ∀ (R : Type) [CommRing R] [Algebra ℚ R] (values : String → ℕ → R),
      p.evalPowers values = f.moved u values := by
  obtain ⟨p, writes⟩ := exists_phrase f.written
  obtain ⟨entries, same⟩ := u.exists_entries
  have entry : ∀ v ∈ entries, (∃ i < actions, v.1 = variableOf 'A' (i + 1)) ∧
      (∀ s ∈ v.2.names, s = "S1" ∨ IsConstant s) ∧ ∃ e ∈ u.equations, v.2.Writes e := by
    intro v mem
    obtain ⟨a, inside, name, text⟩ := exists_of_mem_right same mem
    obtain ⟨action, policy⟩ := u.mem_table inside
    exact ⟨name ▸ action, fun s other => (u.overState _ policy).names s (text.names ▸ other), a.2, policy, text⟩
  refine ⟨p.substAll entries, ?_, ?_, ?_, ?_, ?_⟩
  · -- all names that come up while the actions are put in are apart from the actions
    rw [nextText, substitute, ← Feedback.texts_entries same, ← writes.text]
    refine (substituteText_text
      (fun s => 'A' ∉ s.toList ∨ ∃ i < actions, s = variableOf 'A' (i + 1)) ?_ ?_ ?_).symm
    · intro v mem
      obtain ⟨⟨i, _, key⟩, _⟩ := entry v mem
      rw [key]
      refine ⟨isKey_variableOf (by decide) _, fun s hs => ?_⟩
      rcases hs with absent | ⟨j, bound, rfl⟩
      · exact .of_letter _ absent
      · exact apart_variableOf 'A' _ (by omega)
    · intro v mem s name
      exact .inl (not_mem_of_overState ((entry v mem).2.1 s name) (by decide))
    · intro s mem
      rw [writes.names] at mem
      rcases f.names s mem with state | action | ⟨i, _, rfl⟩
      · exact .inl (not_mem_of_overState (.inl state) (by decide))
      · exact .inr action
      · exact .inl (not_mem_variableOf (by decide) (by decide) _)
  · refine names_substAll _ (fun v mem s name => ?_) fun s mem => ?_
    · exact .inl (not_mem_of_overState ((entry v mem).2.1 s name) (by decide))
    · rw [writes.names] at mem
      rcases f.names s mem with state | ⟨i, _, rfl⟩ | disturbance
      · exact .inl (not_mem_of_overState (.inl state) (by decide))
      · exact .inl (not_mem_variableOf (by decide) (by decide) _)
      · exact .inr disturbance
  · intro rational policies
    refine isExact_substAll (fun v mem => ?_) (writes.exact rational)
    obtain ⟨_, _, e, inside, text⟩ := entry v mem
    exact text.exact (policies e inside)
  · intro P plain powers
    refine allPowers_substAll (fun v mem => ?_) (writes.powers P powers)
    exact v.2.allPowers_of_names fun s name ds => plain s ds ((entry v mem).2.1 s name)
  · intro R _ _ values
    rw [evalPowers_substAll, writes.value, moved]
    · congr 1
      funext s
      exact Feedback.lookup_entries values same s
    · intro v mem w other name
      obtain ⟨⟨i, _, key⟩, _⟩ := entry w other
      refine not_mem_of_overState ((entry v mem).2.1 _ name) (by decide : 'A' ∈ ['A', 'D']) ?_
      rw [key, toList_variableOf]
      exact mem_cons_self

/-- The text of a template at the next state is a phrase, whose value is that of the template there. -/
theorem exists_after (few : actions ≤ 9) {e : Equation} (inState : e.OverState) (condition : List Inequality) :
    ∃ p : Phrase .sum, p.text = e.after ((f.piece condition).nextUnder u.table) ∧
      (∀ s ∈ p.names, Disturbs disturbances s) ∧
      (e.isRational → f.equation.isRational → (∀ a ∈ u.equations, a.isRational) → p.isExact) ∧
      (∀ P : String → List Char → Prop, (∀ s ds, s = "S1" ∨ IsConstant s → P s ds) →
        f.equation.AllPowers P → p.AllPowers P) ∧
      ∀ (R : Type) [CommRing R] [Algebra ℚ R] (values : String → ℕ → R), p.evalPowers values =
        e.evalPowers (update values "S1" fun n => f.moved u values ^ n) := by
  obtain ⟨p, writes⟩ := exists_phrase inState.written
  obtain ⟨v, text, names, exact, powers, value⟩ := f.exists_next u few
  have apart : ∀ s ∈ p.names, Apart "S1" s := by
    intro s mem
    rw [writes.names] at mem
    rcases inState.names s mem with state | constant
    · exact .inl state
    · exact .of_letter 1 (constant 'S' (by decide))
  have key : IsKey "S1" := isKey_variableOf (by decide : 'S' ∈ letters) 1
  have put : e.substitute [("S1", f.nextText u)] = (p.subst "S1" v).text := by
    rw [substitute, ← writes.text, ← text, ← replaceAll_text key v p apart]
    rfl
  refine ⟨(p.subst "S1" v).unblank, ?_, ?_, ?_, ?_, ?_⟩
  · rw [nextUnder_piece, Equation.after, put, Text.replaceAll_of_nonempty (by decide), Phrase.text, Phrase.text,
      Phrase.chars_unblank, ← Text.replaceFrom_blank]
    simp
  · rw [(unblank_spec _).1]
    refine forall_names_subst names fun s mem => ?_
    rw [writes.names] at mem
    exact .inl (not_mem_of_overState (inState.names s mem) (by decide))
  · intro rational transform policies
    rw [(unblank_spec _).2.1]
    exact isExact_subst (exact transform policies) (writes.exact rational)
  · intro P plain transform
    refine (unblank_spec _).2.2 P (allPowers_subst (powers P plain transform) ?_)
    refine p.allPowers_of_names fun s name ds _ => plain s ds (inState.names s ?_)
    rw [← writes.names]
    exact name
  · intro R _ _ values
    rw [evalPowers_unblank, evalPowers_subst, value, writes.value]

end Transform

/-- Where a piece moves the state variable to: names have values, and an action has the value of its
polynomial. -/
def Piece.nextState {R : Type} [CommRing R] [Algebra ℚ R] (piece : Piece)
    (actions : List (String × Equation)) (σ : String → R) : R :=
  match piece.transforms with
  | [] => 0
  | f :: _ => f.eval fun s => match actions.lookup s with
    | some e => e.eval σ
    | none => σ s

namespace Transform

variable (f : Transform actions disturbances) (u : Feedback actions) (condition : List Inequality)
  {R : Type} [CommRing R] [Algebra ℚ R]

theorem nextState_eq (σ : String → R) :
    (f.piece condition).nextState u.table σ = f.moved u fun s n => σ s ^ n := by
  have values : (fun (s : String) (n : ℕ) => (match u.table.lookup s with
      | some e => e.eval σ
      | none => σ s) ^ n) = u.acting fun s n => σ s ^ n := by
    funext s n
    unfold Feedback.acting
    cases u.table.lookup s with
    | none => rfl
    | some e => exact congrArg (· ^ n) (e.evalPowers_eq_eval σ).symm
  rw [moved, ← values, Equation.evalPowers_eq_eval]
  rfl

/-- The text of a template at the next state spells the value of the template there. -/
theorem exists_after_eval (few : actions ≤ 9) {e : Equation} (inState : e.OverState) :
    ∃ p : Phrase .sum, p.text = e.after ((f.piece condition).nextUnder u.table) ∧
      ∀ σ : String → R, p.tree.eval σ =
        e.eval (update σ "S1" ((f.piece condition).nextState u.table σ)) := by
  obtain ⟨p, text, _, _, _, value⟩ := f.exists_after u few inState condition
  refine ⟨p, text, fun σ => ?_⟩
  rw [← p.evalPowers_eq_eval, value, nextState_eq, evalPowers_update]

end Transform

end Supermartingale
