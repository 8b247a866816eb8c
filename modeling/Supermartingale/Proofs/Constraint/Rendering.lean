import Supermartingale.Proofs.Constraint.Truth
import Supermartingale.Proofs.Guard.Balance

/-!
# What the solver reads of a constraint

The text of a formula is read as one expression. Its connectives join the members of the formula, every member
once and in order, and it is true where the formula is.
-/

namespace Supermartingale

open String Constraint Smt Smt.Sexp

def exprsOf (text : Except Error String) : List Sexp :=
  match text with
  | .ok t => (Sexp.read t).getD []
  | .error _ => []

theorem exprsOf_ok {text : String} {xs : List Sexp} (reads : Reads text.toList xs) : exprsOf (.ok text) = xs := by
  rw [exprsOf, reads.read_eq]
  rfl

/-- Whether a guard is true as the solver reads it. One without label always is. -/
def Guard.Told (other : Sexp → (String → ℝ) → Prop) (ρ : String → ℝ) (g : Guard) : Prop :=
  g.label.isEmpty ∨ ∀ s ∈ exprsOf g.smt, s.Holds other ρ

/-! ## Formulas that can be written -/

def Joining.IsKnown (joining : Joining) : Prop := ∃ c, joining = .known c

def Operand.size : Operand → ℕ
  | .absent => 0
  | .one _ => 1
  | .list fs => fs.length

mutual

/-- A formula of written inequalities and guards that can be read. Where several members are joined, it is
known how. -/
def Formula.IsBuilt : Formula → Prop
  | .inequality i => i.left.IsWritten ∧ i.right.IsWritten
  | .guarded guard body joining => guard.IsProper ∧ 1 ≤ body.size ∧ (2 ≤ body.size → joining.IsKnown) ∧
    Operand.IsBuilt body
  | .joined first second joining => 1 ≤ first.size + second.size ∧
    (2 ≤ first.size + second.size → joining.IsKnown) ∧ Operand.IsBuilt first ∧ Operand.IsBuilt second
  | .hole => False

def Operand.IsBuilt : Operand → Prop
  | .absent => True
  | .one f => Formula.IsBuilt f
  | .list fs => fs ≠ [] ∧ Formula.AreBuilt fs

def Formula.AreBuilt : List Formula → Prop
  | [] => True
  | f :: fs => Formula.IsBuilt f ∧ Formula.AreBuilt fs

end

mutual

def Formula.parts : Formula → List Sexp
  | .inequality i => exprsOf i.smt
  | .guarded guard body _ => exprsOf guard.smt ++ Operand.parts body
  | .joined first second _ => Operand.parts first ++ Operand.parts second
  | .hole => []

def Operand.parts : Operand → List Sexp
  | .absent => []
  | .one f => Formula.parts f
  | .list fs => Formula.allParts fs

def Formula.allParts : List Formula → List Sexp
  | [] => []
  | f :: fs => Formula.parts f ++ Formula.allParts fs

end

/-! ## Reading -/

/-- A text is read as an expression that joins these parts and has this truth. -/
def Tells (other : Sexp → (String → ℝ) → Prop) (text : String) (parts : List Sexp)
    (truth : (String → ℝ) → Prop) : Prop :=
  ∃ s, Reads text.toList [s] ∧ s.leaves = parts.flatMap leaves ∧ ∀ ρ, s.Holds other ρ ↔ truth ρ

theorem Tells.congr {other : Sexp → (String → ℝ) → Prop} {text : String} {parts parts' : List Sexp}
    {p q : (String → ℝ) → Prop} (tells : Tells other text parts p) (same : parts = parts') (iff : ∀ ρ, p ρ ↔ q ρ) :
    Tells other text parts' q := by
  obtain ⟨s, reads, leaves, holds⟩ := tells
  exact ⟨s, reads, same ▸ leaves, fun ρ => (holds ρ).trans (iff ρ)⟩

theorem Joining.joins_neutral (joining : Joining) (p : Prop) : joining.Joins p joining.Neutral ↔ p := by
  unfold Joins Neutral
  split <;> simp_all

theorem Joining.neutral_joins (joining : Joining) (p : Prop) : joining.Joins joining.Neutral p ↔ p := by
  unfold Joins Neutral
  split <;> simp_all

theorem Joining.joins_assoc (joining : Joining) (p q r : Prop) :
    joining.Joins (joining.Joins p q) r ↔ joining.Joins p (joining.Joins q r) := by
  unfold Joins
  split
  · exact or_assoc
  · exact and_assoc

section

variable (other : Sexp → (String → ℝ) → Prop)

theorem isWord_word (c : Connective) : IsWord c.word := by cases c <;> decide

variable {other} in
theorem Tells.join {a b : String} {xs ys : List Sexp} {p q : (String → ℝ) → Prop} (first : Tells other a xs p)
    (second : Tells other b ys q) (c : Connective) :
    Tells other ("(" ++ c.word ++ " " ++ a ++ " " ++ b ++ ")") (xs ++ ys)
      fun ρ => (Joining.known c).Joins (p ρ) (q ρ) := by
  obtain ⟨s, readss, leavess, holdss⟩ := first
  obtain ⟨t, readst, leavest, holdst⟩ := second
  refine ⟨joined c [s, t], .binary (isWord_word c) readss readst, ?_, fun ρ => ?_⟩
  · rw [leaves_joined, List.flatMap_append, ← leavess, ← leavest]
    simp
  · rw [holds_joined]
    cases c with
    | conjunction | disjunction => simp [Connective.Holds, holdss, holdst, Joining.Joins, Joining.isDisjunction]

theorem tells_inequality {i : Inequality} (left : i.left.IsWritten) (right : i.right.IsWritten) :
    ∃ text, i.smt = .ok text ∧ Tells other text (exprsOf i.smt) i.Holds := by
  obtain ⟨text, a, b, made, reads, holds⟩ := Inequality.exists_reads left right
  refine ⟨text, made, _, reads, ?_, fun ρ => ?_⟩
  · rw [made, exprsOf_ok reads]
    simp
  · rw [holds_compared]
    exact holds ρ

def always : Sexp := compared .gt (atom "1") (atom "0")

theorem tells_always : Tells other "(> 1 0)" [always] fun _ => True := by
  have text : "(> 1 0)" = "(" ++ Relation.gt.sign ++ " " ++ "1" ++ " " ++ "0" ++ ")" := by decide
  have one : IsWord "1" := by decide
  have zero : IsWord "0" := by decide
  rw [text]
  refine ⟨always, .binary (by decide) one.reads zero.reads, by simp, fun ρ => ?_⟩
  have first : (atom "1").value ρ = 1 := (value_number isNumeral_one ρ).trans (by simp [Scalar.written])
  have second : (atom "0").value ρ = 0 :=
    (value_number (c := .given (.int 0)) (by decide +kernel) ρ).trans (by simp [Scalar.written])
  rw [always, holds_compared, first, second, Relation.Compares]
  simp

theorem Guard.told_iff (g : Guard) (ρ : String → ℝ) : g.Told other ρ ↔ ∀ s ∈ exprsOf g.smt, s.Holds other ρ := by
  refine ⟨fun told => ?_, Or.inr⟩
  rcases told with unlabelled | told
  · obtain ⟨s, reads, -, holds⟩ := tells_always other
    rw [show g.smt = .ok "(> 1 0)" by rw [smt, if_pos unlabelled]; rfl, exprsOf_ok reads]
    simp [holds]
  · exact told

variable {other} in
theorem Tells.guarded {g : Guard} (proper : g.IsProper) {t : String} (made : g.smt = .ok t) {b : String}
    {xs : List Sexp} {p : (String → ℝ) → Prop} (body : Tells other b xs p) :
    Tells other ("(and " ++ t ++ " " ++ b ++ ")") (exprsOf g.smt ++ xs) fun ρ => g.Told other ρ ∧ p ρ := by
  obtain ⟨gs, reads⟩ := (proper.balanced made).exists_reads
  obtain ⟨s, readss, leavess, holdss⟩ := body
  have own : exprsOf g.smt = gs := by rw [made, exprsOf_ok reads]
  have word : "(and " = "(" ++ Connective.conjunction.word ++ " " := by decide
  rw [word]
  refine ⟨joined .conjunction (gs ++ [s]), .binary (isWord_word _) reads readss, ?_, fun ρ => ?_⟩
  · rw [leaves_joined, own, List.flatMap_append, List.flatMap_append, ← leavess]
    simp
  · rw [holds_joined]
    refine List.forall_mem_append.trans (and_congr ?_ (by simp [holdss]))
    rw [← own]
    exact (Guard.told_iff other g ρ).symm

theorem Operand.IsBuilt.eq_absent_or_present {o : Operand} (built : o.IsBuilt) : o = .absent ∨ 1 ≤ o.size := by
  cases o with
  | absent => exact .inl rfl
  | one f => exact .inr le_rfl
  | list fs =>
    rw [Operand.IsBuilt] at built
    exact .inr (List.length_pos_iff.mpr built.1)

mutual

theorem Formula.tells : (f : Formula) → f.IsBuilt →
    ∃ text, f.smt = .ok text ∧ Tells other text f.parts fun ρ => f.Holds (fun g => g.Told other ρ) ρ
  | .inequality i, built => by
    rw [Formula.IsBuilt] at built
    obtain ⟨text, made, tells⟩ := tells_inequality other built.1 built.2
    refine ⟨text, by rw [Formula.smt, made], ?_⟩
    simpa only [Formula.parts, Formula.Holds] using tells
  | .guarded guard body joining, built => by
    rw [Formula.IsBuilt] at built
    obtain ⟨proper, present, known, inner⟩ := built
    obtain ⟨t, made⟩ := proper.exists_smt
    obtain ⟨b, text, tells⟩ := Operand.tells body joining inner present known
    refine ⟨"(and " ++ t ++ " " ++ b ++ ")", ?_, ?_⟩
    · rw [Formula.smt, made]
      exact bind_eq_ok.mpr ⟨t, rfl, bind_eq_ok.mpr ⟨_, text, rfl⟩⟩
    · refine (tells.guarded proper made).congr (by rw [Formula.parts]) fun ρ => ?_
      rw [Formula.Holds]
  | .joined first second joining, built => by
    rw [Formula.IsBuilt] at built
    obtain ⟨present, known, left, right⟩ := built
    rcases left.eq_absent_or_present with rfl | one
    · -- the second operand alone
      rw [Operand.size, Nat.zero_add] at present known
      obtain ⟨b, text, tells⟩ := Operand.tells second joining right present known
      refine ⟨b, ?_, tells.congr (by simp [Formula.parts, Operand.parts]) fun ρ => ?_⟩
      · rw [Formula.smt, Formula.operandSmt, text]
        rfl
      · rw [Formula.Holds, Operand.Holds, Joining.neutral_joins]
    · obtain ⟨a, texta, tellsa⟩ := Operand.tells first joining left one fun two => known (by omega)
      rcases right.eq_absent_or_present with rfl | other
      · refine ⟨a, ?_, tellsa.congr (by simp [Formula.parts, Operand.parts]) fun ρ => ?_⟩
        · rw [Formula.smt, Formula.operandSmt, texta]
          rfl
        · rw [Formula.Holds, Operand.Holds, Joining.joins_neutral]
      · obtain ⟨b, textb, tellsb⟩ := Operand.tells second joining right other fun two => known (by omega)
        obtain ⟨c, rfl⟩ := known (by omega)
        refine ⟨_, ?_, (tellsa.join tellsb c).congr (by rw [Formula.parts]) fun ρ => by rw [Formula.Holds]⟩
        rw [Formula.smt, texta, textb]
        rfl
  | .hole, built => by
    rw [Formula.IsBuilt] at built
    exact built.elim

theorem Operand.tells : (o : Operand) → (joining : Joining) → o.IsBuilt → 1 ≤ o.size →
    (2 ≤ o.size → joining.IsKnown) → ∃ text, Formula.operandSmt joining o = .ok (some text) ∧
      Tells other text o.parts fun ρ => o.Holds (fun g => g.Told other ρ) ρ joining
  | .absent, _, _, present, _ => by simp [Operand.size] at present
  | .one f, joining, built, _, _ => by
    rw [Operand.IsBuilt] at built
    obtain ⟨text, made, tells⟩ := Formula.tells f built
    refine ⟨text, by rw [Formula.operandSmt, made]; rfl, ?_⟩
    exact tells.congr (by rw [Operand.parts]) fun ρ => by rw [Operand.Holds]
  | .list [], joining, built, present, _ => by simp [Operand.size] at present
  | .list (f :: fs), joining, built, _, known => by
    rw [Operand.IsBuilt, Formula.AreBuilt] at built
    obtain ⟨first, made, tells⟩ := Formula.tells f built.2.1
    have several : 1 ≤ fs.length → joining.IsKnown := fun _ => known (by simp [Operand.size]; omega)
    obtain ⟨text, joined, all⟩ := Formula.tellMembers fs joining built.2.2 several tells
    refine ⟨text, ?_, ?_⟩
    · rw [Formula.operandSmt, made]
      exact bind_eq_ok.mpr ⟨first, rfl, bind_eq_ok.mpr ⟨text, joined, rfl⟩⟩
    · exact all.congr (by rw [Operand.parts, Formula.allParts]) fun ρ => by rw [Operand.Holds, Formula.MembersHold]

theorem Formula.tellMembers : (fs : List Formula) → (joining : Joining) → Formula.AreBuilt fs →
    (1 ≤ fs.length → joining.IsKnown) → ∀ {start : String} {xs : List Sexp} {p : (String → ℝ) → Prop},
    Tells other start xs p → ∃ text, Formula.membersSmt joining start fs = .ok text ∧
      Tells other text (xs ++ Formula.allParts fs) fun ρ =>
        joining.Joins (p ρ) (Formula.MembersHold (fun g => g.Told other ρ) ρ joining fs)
  | [], joining, _, _, start, xs, p, tells => by
    refine ⟨start, by rw [Formula.membersSmt], tells.congr (by simp [Formula.allParts]) fun ρ => ?_⟩
    rw [Formula.MembersHold, Joining.joins_neutral]
  | f :: fs, joining, built, known, start, xs, p, tells => by
    rw [Formula.AreBuilt] at built
    obtain ⟨c, rfl⟩ := known (by simp)
    obtain ⟨t, made, next⟩ := Formula.tells f built.1
    obtain ⟨text, joined, all⟩ := Formula.tellMembers fs (.known c) built.2 (fun _ => ⟨c, rfl⟩) (tells.join next c)
    refine ⟨text, ?_, all.congr (by simp [Formula.allParts]) fun ρ => ?_⟩
    · rw [Formula.membersSmt]
      exact bind_eq_ok.mpr ⟨c, rfl, bind_eq_ok.mpr ⟨t, made, joined⟩⟩
    · rw [Formula.MembersHold, Joining.joins_assoc]

end

/-! ## Constraints -/

/-- A constraint whose sides can be written and whose variables are words. -/
def Constraint.IsBuilt : Constraint → Prop
  | .implication bound premise conclusion => (∀ v ∈ bound, IsWord v) ∧ (∀ f ∈ premise, f.IsBuilt) ∧ conclusion.IsBuilt
  | .constant f => f.IsBuilt

def Constraint.parts : Constraint → List Sexp
  | .implication _ premise conclusion => premise.elim [always] Formula.parts ++ conclusion.parts
  | .constant f => f.parts

theorem reads_declarations {bound : List String} (words : ∀ v ∈ bound, IsWord v) :
    Reads (intercalate " " (bound.map declare)).toList
      (bound.map fun v => list [atom v, atom "Real"]) := by
  have declaration {v : String} (word : IsWord v) :
      Reads (declare v).toList [list [atom v, atom "Real"]] := by
    have text : (declare v).toList = '(' :: (v.toList ++ ' ' :: "Real".toList ++ [')']) := by
      simp [declare]
    rw [text]
    exact (word.reads.blank (by decide : IsWord "Real").reads).list
  induction bound with
  | nil => exact reads_nil
  | cons v bound ih =>
    obtain ⟨word, others⟩ := List.forall_mem_cons.mp words
    cases bound with
    | nil => simpa using declaration word
    | cons w bound =>
      have rest := (declaration word).blank (ih others)
      rw [List.map_cons, List.map_cons, intercalate_cons_cons, toList_append, toList_append]
      simpa using rest

theorem bound_declarations (names : List String) :
    bound (names.map fun v => list [atom v, atom "Real"]) = names := by
  simp [bound, List.filterMap_map]

theorem Constraint.smt_implication {names : List String} {premise : Option Formula} {conclusion : Formula}
    {l r : String} (left : premise.elim (.ok "(> 1 0)") Formula.smt = .ok l) (right : conclusion.smt = .ok r) :
    (implication names premise conclusion).smt = .ok ("(assert (forall (" ++
      intercalate " " (names.map declare) ++ ") (=> " ++ l ++ " " ++ r ++ ")))") := by
  cases premise with
  | none =>
    cases left
    exact bind_eq_ok.mpr ⟨_, rfl, bind_eq_ok.mpr ⟨r, right, rfl⟩⟩
  | some f => exact bind_eq_ok.mpr ⟨l, left, bind_eq_ok.mpr ⟨r, right, rfl⟩⟩

theorem tells_premise {premise : Option Formula} (built : ∀ f ∈ premise, f.IsBuilt) :
    ∃ l, premise.elim (.ok "(> 1 0)") Formula.smt = .ok l ∧
      Tells other l (premise.elim [always] Formula.parts) fun σ =>
        ∀ f ∈ premise, f.Holds (fun g => g.Told other σ) σ := by
  cases premise with
  | none => exact ⟨_, rfl, (tells_always other).congr rfl (by simp)⟩
  | some f =>
    obtain ⟨l, made, tells⟩ := f.tells other (built f rfl)
    exact ⟨l, made, tells.congr rfl (by simp)⟩

theorem reads_assert {t : String} {s : Sexp} (reads : Reads t.toList [s]) :
    Reads ("(assert " ++ t ++ ")").toList [list [atom "assert", s]] := by
  have text : ("(assert " ++ t ++ ")").toList = '(' :: ("assert".toList ++ ' ' :: t.toList ++ [')']) := by simp
  rw [text]
  exact ((by decide : IsWord "assert").reads.blank reads).list

theorem reads_forall {d t : String} {ds : List Sexp} {s : Sexp} (declared : Reads d.toList ds)
    (reads : Reads t.toList [s]) :
    Reads ("(forall (" ++ d ++ ") " ++ t ++ ")").toList [list [atom "forall", list ds, s]] := by
  have text : ("(forall (" ++ d ++ ") " ++ t ++ ")").toList =
      '(' :: ("forall".toList ++ ' ' :: ('(' :: (d.toList ++ [')']) ++ ' ' :: t.toList) ++ [')']) := by
    simp
  rw [text]
  exact ((by decide : IsWord "forall").reads.blank (declared.list.blank reads)).list

/-- The text of a constraint is read as one assertion. Its connectives join the members of the constraint, each
once, and it is true exactly if the constraint is. -/
theorem Constraint.reading_keeps_structure {k : Constraint} (built : k.IsBuilt) :
    ∃ text s, k.smt = .ok text ∧ Sexp.read text = some [s] ∧ s.leaves = k.parts.flatMap leaves ∧
      ∀ ρ, s.Holds other ρ ↔ k.Holds (fun g σ => g.Told other σ) ρ := by
  cases k with
  | implication names premise conclusion =>
    obtain ⟨words, left, right⟩ := built
    obtain ⟨l, madel, s, readss, leavess, holdss⟩ := tells_premise other left
    obtain ⟨r, mader, t, readst, leavest, holdst⟩ := conclusion.tells other right
    have inner := reads_forall (reads_declarations words) (Reads.binary (by decide : IsWord "=>") readss readst)
    have text : "(assert (forall (" ++ intercalate " " (names.map declare) ++ ") (=> " ++ l ++ " " ++ r ++
        ")))" = "(assert " ++ ("(forall (" ++ intercalate " " (names.map declare) ++ ") " ++
          ("(" ++ "=>" ++ " " ++ l ++ " " ++ r ++ ")") ++ ")") ++ ")" := by
      rw [← toList_inj]
      simp
    have reads := reads_assert inner
    rw [← text] at reads
    refine ⟨_, _, smt_implication madel mader, reads.read_eq, ?_, fun ρ => ?_⟩
    · simp only [Sexp.leaves, List.singleton_append]
      rw [parts, List.flatMap_append, leavess, leavest]
    · rw [Sexp.Holds, Sexp.Holds, bound_declarations, Constraint.Holds]
      refine forall_congr' fun σ => imp_congr_right fun _ => ?_
      rw [List.singleton_append, Sexp.Holds, holdss, holdst]
  | constant f =>
    obtain ⟨text, made, s, reads, leaves, holds⟩ := f.tells other built
    refine ⟨_, _, bind_eq_ok.mpr ⟨text, made, rfl⟩, (reads_assert reads).read_eq, ?_, fun ρ => ?_⟩
    · rw [Sexp.leaves, parts, leaves]
    · rw [Sexp.Holds, holds, Constraint.Holds]

end

namespace Constraint

def nonnegative : Inequality := ⟨⟨[⟨.given (.int 1), [("S1", .int 1)]⟩]⟩, .ge, ⟨[]⟩⟩

def squareBelow : Inequality := ⟨⟨[⟨.given (.int 5), []⟩]⟩, .gt, ⟨[⟨.given (.int 1), [("S1", .int 2)]⟩]⟩⟩

def outside : Guard := ⟨"1 | !(0 | 2)", Guard.numbered 0 Guard.bands⟩

/-- A guard over two inequalities in a list, beside a choice that is not in one. -/
def layered : Constraint :=
  .implication ["S1"]
    (some (.joined
      (.list [.inequality nonnegative,
        .guarded outside (.list [.inequality nonnegative, .inequality squareBelow]) (.known .conjunction)])
      (.one (.joined (.one (.inequality squareBelow)) (.one (.inequality nonnegative)) (.known .disjunction)))
      (.known .conjunction)))
    (.joined .absent (.one (.inequality squareBelow)) .missing)

theorem isUnknown_first : ∀ name ∈ ["S1"], IsUnknown name := by
  rw [List.forall_mem_singleton]
  exact isUnknown_variableOf (by decide : 'S' ∈ letters) 1

theorem outside_isProper : outside.IsProper := by
  let p : Label.Formula .disjunction := .or (.factor (.index 1)) (.conjunction (.factor (.not (.group
    (.or (.factor (.index 0)) (.conjunction (.factor (.index 2))))))))
  refine Guard.isProper_of_label p (by decide) (by decide +kernel) ?_
  have checked : ∀ entry ∈ outside.lookup, Space.isOver ["S1"] entry.2 := by decide +kernel
  exact fun entry mem => Space.exists_comprises isUnknown_first (checked entry mem)

theorem layered_isBuilt : layered.IsBuilt := by
  have first : nonnegative.left.IsWritten ∧ nonnegative.right.IsWritten :=
    ⟨Equation.isWritten_of_isOver isUnknown_first (by decide +kernel),
      Equation.isWritten_of_isOver isUnknown_first (by decide +kernel)⟩
  have second : squareBelow.left.IsWritten ∧ squareBelow.right.IsWritten :=
    ⟨Equation.isWritten_of_isOver isUnknown_first (by decide +kernel),
      Equation.isWritten_of_isOver isUnknown_first (by decide +kernel)⟩
  have word : IsWord "S1" := by decide
  simp [layered, IsBuilt, Formula.IsBuilt, Operand.IsBuilt, Formula.AreBuilt, Operand.size, Joining.IsKnown, first,
    second, word, outside_isProper]

theorem layered_reading : layered.IsBuilt ∧ ∃ text s, layered.smt = .ok text ∧ Sexp.read text = some [s] ∧
    s.leaves = layered.parts.flatMap leaves ∧
    ∀ ρ, s.Holds (fun _ _ => False) ρ ↔ layered.Holds (fun g σ => g.Told (fun _ _ => False) σ) ρ :=
  ⟨layered_isBuilt, reading_keeps_structure _ layered_isBuilt⟩

end Constraint

end Supermartingale
