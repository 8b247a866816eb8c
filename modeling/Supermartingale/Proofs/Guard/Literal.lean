import Supermartingale.Proofs.Polynomial.Arithmetic
import Supermartingale.Proofs.Polynomial.Template
import Supermartingale.Proofs.Smt.Sentence

/-!
# The solver's texts of literals

A proposition stands for a list of inequalities between polynomials. The solver's text of the proposition is a
sentence that holds where all of them hold, and the text of its negation one that holds where a relaxed negation of
one does.
-/

namespace Supermartingale

open List

variable {is : List Inequality} {names : List String} {space : String} {e : Equation}

/-! ## Atoms -/

namespace Smt

theorem IsAtom.of_isUnknown {s : String} (unknown : IsUnknown s) : IsAtom s.toList := by
  obtain ⟨c, cs, chars, _⟩ := unknown.starts
  refine ⟨by simp [chars], fun d mem inside => ?_⟩
  have unnamed : ∀ d ∈ marks, Token.continuesName d = false := by decide
  have named := unknown.continues d mem
  rw [unnamed d inside] at named
  cases named

def numeralChars : List Char := '+' :: '-' :: '.' :: '/' :: 'e' :: digits

structure IsNumber (cs : List Char) : Prop where
  nonempty : cs ≠ []
  chars : ∀ c ∈ cs, c ∈ numeralChars

namespace IsNumber

theorem append {cs ds : List Char} (first : IsNumber cs) (second : ∀ c ∈ ds, c ∈ numeralChars) :
    IsNumber (cs ++ ds) :=
  ⟨by simp [first.nonempty], forall_mem_append.mpr ⟨first.chars, second⟩⟩

theorem cons {c : Char} {cs : List Char} (first : c ∈ numeralChars) (rest : IsNumber cs) : IsNumber (c :: cs) :=
  ⟨cons_ne_nil c cs, forall_mem_cons.mpr ⟨first, rest.chars⟩⟩

theorem toDigits (n : ℕ) : IsNumber (Nat.toDigits 10 n) :=
  ⟨Nat.toDigits_ne_nil, fun c mem => (by decide : digits ⊆ numeralChars) (mem_digits (isDigit_toDigits n c mem))⟩

theorem toString_int (n : ℤ) : IsNumber (toString n).toList := by
  rw [Int.toString_eq_repr, Int.repr_eq_if]
  split
  · rw [Nat.toList_repr]
    exact toDigits _
  · rw [String.toList_append, Nat.toList_repr]
    exact cons (by decide) (toDigits _)

theorem scalar {c : Scalar} (numeral : c.isNumeral) : IsNumber c.text.toList := by
  cases c with
  | given x =>
    cases x with
    | double x => cases numeral
    | int n => exact toString_int n
  | exact q =>
    rw [Scalar.text]
    split
    · exact toString_int q.num
    · rw [String.toList_append, String.toList_append]
      refine ((toString_int q.num).append (by decide)).append ?_
      rw [show (toString q.den).toList = Nat.toDigits 10 q.den from Nat.toList_repr]
      exact (toDigits q.den).chars
  | approx a =>
    obtain ⟨cs, x, spells, chars⟩ := a.exists_decimal
    obtain ⟨first, tail, split, _⟩ := spells.starts
    -- apart from its sign, an approximation is written as a decimal
    have decimal : IsNumber cs := by
      refine ⟨by simp [split], fun c mem => ?_⟩
      exact (by decide : '.' :: 'e' :: '+' :: '-' :: digits ⊆ numeralChars) (spells.chars c mem)
    rw [Scalar.text, chars]
    split
    · exact cons (by decide) decimal
    · exact decimal
  | symbolic x => cases numeral

end IsNumber

theorem IsAtom.scalar {c : Scalar} (numeral : c.isNumeral) : IsAtom c.text.toList := by
  obtain ⟨nonempty, chars⟩ := IsNumber.scalar numeral
  exact ⟨nonempty, fun d mem => (by decide : ∀ d ∈ numeralChars, d ∉ marks) d (chars d mem)⟩

end Smt

/-! ## Terms of polynomials -/

/-- Coefficients as they are written, and real values of names. -/
noncomputable def Reading.written (ρ : String → ℝ) : Reading ℝ where
  coefficient c := if c.isZero then 0 else c.written
  name := ρ
  zero _ zero := if_pos zero
  one := by simp [Scalar.written, Scalar.isZero, Scalar.value?, Number.value?]

theorem Scalar.coefficient_written {c : Scalar} (numeral : c.isNumeral) (ρ : String → ℝ) :
    (Reading.written ρ).coefficient c = c.written := by
  unfold Reading.written
  dsimp only
  split
  · rename_i zero
    rw [written_of_isZero numeral zero, Rat.cast_zero]
  · rfl

theorem Number.natural?_eq {p : Number} (exponent : p.isExponent) : p.natural? = some p.exponent := by
  cases p with
  | double x => cases exponent
  | int n =>
    obtain ⟨nonnegative, _⟩ : 0 ≤ n ∧ Supermartingale.isWritable n.natAbs := by
      simpa [isExponent] using exponent
    exact if_neg (not_lt.mpr nonnegative)

namespace Smt.Term

variable {t : Term} (leaves : t.Over (fun c => c.isNumeral) IsUnknown)
include leaves

theorem isPlain_of_over : t.IsPlain := by
  induction t with
  | number c => exact IsAtom.scalar leaves
  | var name => exact .of_isUnknown leaves
  | mul a b iha ihb | add a b iha ihb => exact ⟨iha leaves.1, ihb leaves.2⟩

theorem valueIn_written (ρ : String → ℝ) : t.valueIn (.written ρ) = t.value ρ := by
  induction t with
  | number c => exact Scalar.coefficient_written leaves ρ
  | var name => rfl
  | mul a b iha ihb | add a b iha ihb => rw [valueIn, value, iha leaves.1, ihb leaves.2]

end Smt.Term

namespace Monomial

variable {m : Monomial} (written : m.IsWritten)
include written

theorem IsWritten.negate : m.negate.IsWritten :=
  ⟨isNumeral_negate written.coefficient, fun v mem => written.powers v (mem_canonical mem).1⟩

theorem IsWritten.valueIn_eq (ρ : String → ℝ) : m.valueIn (.written ρ) = m.eval ρ := by
  have powers : (m.powers.map fun v => ρ v.1 ^ v.2.natural) = m.powers.map fun v => ρ v.1 ^ v.2.exponent :=
    map_congr_left fun v mem => by rw [Number.natural, Number.natural?_eq (written.powers v mem).2, Option.getD_some]
  rw [valueIn, Scalar.coefficient_written written.coefficient, eval, Rat.smul_def]
  exact congrArg _ (congrArg List.prod powers)

end Monomial

namespace Equation

variable {e f : Equation}

theorem eval_of_isZero (numeric : e.IsNumeric) (zero : e.isZero) (ρ : String → ℝ) : e.eval ρ = 0 := by
  refine sum_eq_zero fun x mem => ?_
  obtain ⟨m, inside, rfl⟩ := mem_map.mp mem
  exact Monomial.eval_of_isZero (numeric m inside) (all_eq_true.mp zero m inside) ρ

theorem IsWritten.term_spec (written : e.IsWritten) :
    ∃ t, e.term = .ok t ∧ t.Over (fun c => c.isNumeral) IsUnknown ∧ ∀ ρ, t.value ρ = e.eval ρ := by
  have natural : e.HasNaturalPowers := by
    intro m mem v power
    rw [Number.natural?_eq ((written m mem).powers v power).2]
    rfl
  obtain ⟨ts, denoted⟩ := exists_forall₂ fun m mem => Monomial.exists_isDenotedBy (natural m mem)
  have named : ∀ name ∈ e.names, IsUnknown name := by
    intro name mem
    obtain ⟨m, inside, v, power, rfl⟩ := exists_power_of_mem_names mem
    exact ((written m inside).powers v power).1
  have made := term_eq denoted
  have leaves := e.over_term (P := fun c => c.isNumeral) (by decide +kernel) isNumeral_one
    (fun m mem => (written m mem).coefficient) named made
  refine ⟨_, made, leaves, fun ρ => ?_⟩
  rw [← Smt.Term.valueIn_written leaves, valueIn_total _ denoted, valueIn, eval]
  exact congrArg List.sum (map_congr_left fun m mem => (written m mem).valueIn_eq ρ)

theorem IsWritten.sub (left : e.IsWritten) (right : f.IsWritten) : (e.sub f).IsWritten :=
  forall_mem_sub (fun _ => Monomial.IsWritten.negate) left right

end Equation

/-- Whether a polynomial is written with numbers and natural powers of some names. -/
def Equation.isOver (names : List String) (e : Equation) : Bool :=
  e.monomials.all fun m => m.coefficient.isNumeral && m.powers.all fun v => names.contains v.1 && v.2.isExponent

theorem Equation.isOver_iff : e.isOver names ↔
    ∀ m ∈ e.monomials, m.coefficient.isNumeral ∧ ∀ v ∈ m.powers, v.1 ∈ names ∧ v.2.isExponent := by
  simp [isOver]

theorem Equation.isWritten_of_isOver (unknown : ∀ name ∈ names, IsUnknown name)
    (checked : e.isOver names) : e.IsWritten := by
  intro m mem
  obtain ⟨coefficient, powers⟩ := isOver_iff.mp checked m mem
  exact ⟨coefficient, fun v power => ⟨unknown v.1 (powers v power).1, (powers v power).2⟩⟩

/-! ## Inequalities -/

namespace Inequality

/-- A comparison whose text the solver reads. -/
structure IsWritten (i : Inequality) : Prop where
  relation : i.relation = .ge
  left : i.left.IsWritten
  right : i.right.IsWritten

theorem relation_make (l r : Equation) {relation : Relation} (known : relation = .le ∨ relation = .ge) :
    (make l relation r).relation = .ge :=
  make_induction (P := fun _ => True) (Q := fun i => i.relation = .ge) known trivial trivial (fun _ _ _ => rfl)
    fun _ _ => rfl

theorem IsWritten.negate {i : Inequality} (written : i.IsWritten) : i.negate.IsWritten := by
  unfold Inequality.negate
  rw [written.relation]
  exact make_induction (.inl rfl) written.left written.right (fun left right _ => ⟨rfl, left, right⟩)
    fun left right => ⟨rfl, left.sub right, forall_mem_nil _⟩

/-- The text of a comparison is a sentence that holds where the comparison does. -/
theorem IsWritten.smt_spec {i : Inequality} (written : i.IsWritten) {openers : List Char}
    (subset : Smt.arithmetic ⊆ openers) : ∃ t, i.smt = .ok t.text ∧ Smt.Means openers t i.Holds := by
  obtain ⟨l, made, left, value⟩ := written.left.term_spec
  obtain ⟨r, made', right, value'⟩ := written.right.term_spec
  have plain := Smt.Term.isPlain_of_over left
  have plain' := Smt.Term.isPlain_of_over right
  refine ⟨.atLeast l r, ?_, ⟨plain, plain'⟩, Smt.Sentence.quiet_atLeast plain plain' subset, fun ρ => ?_⟩
  · have text : "(" ++ i.relation.sign ++ " " ++ l.render ++ " " ++ r.render ++ ")" =
        (Smt.Sentence.atLeast l r).text := by
      rw [written.relation, ← String.toList_inj]
      simp [Smt.Sentence.text, Smt.Sentence.chars, Relation.sign]
    unfold smt Equation.smt
    rw [made, made', ← text]
    rfl
  · rw [Inequality.Holds, written.relation, Smt.Sentence.Holds, value, value']
    rfl

end Inequality

/-- What joining two texts keeps holds of the joined texts of comparisons. -/
theorem Connective.join_induction (k : Connective) {R : String → ((String → ℝ) → Prop) → Prop}
    (join : ∀ {a b p q}, R a p → R b q →
      R ("(" ++ k.word ++ " " ++ a ++ " " ++ b ++ ")") fun ρ => k.Holds [p, q] fun r => r ρ)
    (nonempty : is ≠ []) (each : ∀ i ∈ is, ∃ text, i.smt = .ok text ∧ R text i.Holds) :
    ∃ texts text, is.mapM Inequality.smt = .ok texts ∧ k.join texts = .ok text ∧
      R text fun ρ => k.Holds is fun i => i.Holds ρ := by
  obtain ⟨texts, related⟩ := exists_forall₂ each
  have made : is.mapM Inequality.smt = .ok texts := mapM_eq_ok.mpr (related.imp fun _ _ known => known.1)
  have folded {is : List Inequality} {texts : List String}
      (related : Forall₂ (fun i text => i.smt = .ok text ∧ R text i.Holds) is texts) :
      ∀ {a p}, R a p → R (texts.foldl (fun acc t => "(" ++ k.word ++ " " ++ acc ++ " " ++ t ++ ")") a)
        fun ρ => k.Holds (p :: is.map Inequality.Holds) fun r => r ρ := by
    induction related with
    | nil =>
      intro a p first
      cases k <;> simpa [Connective.Holds] using first
    | cons second _ ih =>
      intro a p first
      have rest := ih (join first second.2)
      cases k with
      | conjunction => simpa [Connective.Holds, and_assoc] using rest
      | disjunction => simpa [Connective.Holds, or_assoc] using rest
  cases related with
  | nil => exact absurd rfl nonempty
  | cons first rest =>
    refine ⟨_, _, made, rfl, ?_⟩
    cases k <;> simpa [Connective.Holds] using folded rest first.2

/-! ## Spaces -/

theorem Text.splitFrom_ne_nil (separator : List Char) (skip : ℕ) (piece cs : List Char) :
    splitFrom separator skip piece cs ≠ [] := by
  fun_induction splitFrom separator skip piece cs with
  | case1 => simp
  | case2 _ _ _ _ ih => exact ih
  | case3 => simp
  | case4 _ _ _ _ ih => exact ih

theorem Text.splitOn_ne_nil (separator s : String) : splitOn separator s ≠ [] := by
  simp [splitOn, splitFrom_ne_nil]

namespace Space

variable {is : List Inequality} {space : String}

theorem relation_of_mem_cutSigns {piece cs : List Char} {x : Relation × List Char}
    (mem : x ∈ (cutSigns piece cs).2) : x.1 = .le ∨ x.1 = .ge := by
  fun_induction cutSigns piece cs with
  | case1 => cases mem
  | case2 piece cs operand rest cut ih =>
    rcases mem_cons.mp mem with rfl | later
    · exact .inl rfl
    · exact ih (by rw [cut]; exact later)
  | case3 piece cs operand rest cut ih =>
    rcases mem_cons.mp mem with rfl | later
    · exact .inr rfl
    · exact ih (by rw [cut]; exact later)
  | case4 piece c cs _ _ ih => exact ih mem

theorem compareTexts_relation {l r : List Char} {relation : Relation} (known : relation = .le ∨ relation = .ge)
    {i : Inequality} (compared : compareTexts l relation r = .ok i) : i.relation = .ge := by
  obtain ⟨left, _, rest⟩ := bind_eq_ok.mp compared
  obtain ⟨right, _, made⟩ := bind_eq_ok.mp rest
  cases made
  exact Inequality.relation_make left right known

theorem readChunk_spec {s : String} (result : readChunk s = .ok is) : is ≠ [] ∧ ∀ i ∈ is, i.relation = .ge := by
  have known := @relation_of_mem_cutSigns [] (relaxSigns s).toList
  unfold readChunk at result
  dsimp only at result
  split at result
  · cases result
  · rename_i a r b cut
    rw [cut] at known
    obtain ⟨i, compared, rest⟩ := bind_eq_ok.mp result
    cases rest
    refine ⟨cons_ne_nil i [], forall_mem_singleton.mpr ?_⟩
    exact compareTexts_relation (known (x := (r, b)) (by simp)) compared
  · rename_i a r b q c cut
    rw [cut] at known
    obtain ⟨i, first, rest⟩ := bind_eq_ok.mp result
    obtain ⟨j, second, same⟩ := bind_eq_ok.mp rest
    cases same
    refine ⟨cons_ne_nil i [j], forall_mem_cons.mpr ⟨?_, forall_mem_singleton.mpr ?_⟩⟩
    · exact compareTexts_relation (known (x := (r, b)) (by simp)) first
    · exact compareTexts_relation (known (x := (q, c)) (by simp)) second
  · cases result

theorem read_spec {s : String} (result : read s = .ok is) : is ≠ [] ∧ ∀ i ∈ is, i.relation = .ge := by
  unfold read at result
  split at result
  · cases result
  · obtain ⟨chunks, parts, rest⟩ := bind_eq_ok.mp result
    cases rest
    constructor
    · -- there is a first chunk, and it has a comparison
      intro empty
      obtain ⟨piece, pieces, split⟩ := exists_cons_of_ne_nil (Text.splitOn_ne_nil "and"
        (Text.replaceAll "&" "and" (Text.replaceAll "AND" "and" s)))
      rw [split] at parts
      obtain ⟨chunk, inside, made⟩ := exists_mem_of_mapM parts mem_cons_self
      exact (readChunk_spec made).1 (flatten_eq_nil_iff.mp empty chunk inside)
    · intro i mem
      obtain ⟨chunk, inside, listed⟩ := mem_flatten.mp mem
      obtain ⟨piece, _, made⟩ := exists_of_mem_mapM parts inside
      exact (readChunk_spec made).2 i listed

/-- A space stands for comparisons that the solver can be told. -/
structure Comprises (space : String) (is : List Inequality) : Prop where
  result : read space = .ok is
  written : ∀ i ∈ is, i.left.IsWritten ∧ i.right.IsWritten

theorem Comprises.isWritten (comprises : Comprises space is) : ∀ i ∈ is, i.IsWritten := by
  intro i mem
  obtain ⟨left, right⟩ := comprises.written i mem
  exact ⟨(read_spec comprises.result).2 i mem, left, right⟩

def isOver (names : List String) (space : String) : Bool :=
  match read space with
  | .ok is => is.all fun i => i.left.isOver names && i.right.isOver names
  | .error _ => false

theorem exists_comprises {names : List String} (unknown : ∀ name ∈ names, IsUnknown name)
    (checked : isOver names space) : ∃ is, Comprises space is := by
  unfold isOver at checked
  split at checked
  · rename_i is result
    refine ⟨is, result, fun i mem => ?_⟩
    obtain ⟨left, right⟩ := Bool.and_eq_true_iff.mp (all_eq_true.mp checked i mem)
    exact ⟨Equation.isWritten_of_isOver unknown left, Equation.isWritten_of_isOver unknown right⟩
  · cases checked

end Space

section

variable {R : Connective → String → ((String → ℝ) → Prop) → Prop} {Q : Inequality → Prop}

/-- What joining keeps holds of the texts of a proposition and its negation. -/
theorem Space.exists_literals
    (join : ∀ {k a b p q}, R k a p → R k b q →
      R k ("(" ++ k.word ++ " " ++ a ++ " " ++ b ++ ")") fun ρ => k.Holds [p, q] fun r => r ρ)
    (each : ∀ k {i}, Q i → ∃ text, i.smt = .ok text ∧ R k text i.Holds) (negated : ∀ {i}, Q i → Q i.negate)
    (result : read space = .ok is) (known : ∀ i ∈ is, Q i) :
    ∃ negative positive, (∀ proposition, Guard.literals proposition space =
        .ok [("!" ++ proposition, negative), (proposition, positive)]) ∧
      R .disjunction negative (fun ρ => ∃ i ∈ is, i.negate.Holds ρ) ∧
      R .conjunction positive fun ρ => ∀ i ∈ is, i.Holds ρ := by
  have nonempty := (read_spec result).1
  obtain ⟨texts, negative, made, joined, fails⟩ := Connective.disjunction.join_induction join
    (by simpa using nonempty) (forall_mem_map.mpr fun i mem => each .disjunction (negated (known i mem)))
  obtain ⟨texts', positive, made', joined', holds⟩ := Connective.conjunction.join_induction join nonempty
    fun i mem => each .conjunction (known i mem)
  rw [mapM_map] at made
  refine ⟨negative, positive, fun proposition => ?_, by simpa [Connective.Holds] using fails, holds⟩
  unfold Guard.literals
  rw [result]
  simp only [bind, Except.bind]
  rw [show is.mapM (fun i => i.negate.smt) = .ok texts from made, made']
  simp only [joined, joined']
  rfl

end

/-- The sentences of a proposition, for its negation and for itself. -/
structure Guard.Reads (space : String) (is : List Inequality) (sentence : Bool → Smt.Sentence) : Prop where
  literals (proposition : String) : Guard.literals proposition space =
    .ok [("!" ++ proposition, (sentence true).text), (proposition, (sentence false).text)]
  negative : Smt.Means ('o' :: Smt.arithmetic) (sentence true) fun ρ => ∃ i ∈ is, i.negate.Holds ρ
  positive : Smt.Means ('a' :: Smt.arithmetic) (sentence false) fun ρ => ∀ i ∈ is, i.Holds ρ

theorem Guard.Reads.isPlain {sentence : Bool → Smt.Sentence}
    (reads : Reads space is sentence) (negated : Bool) : (sentence negated).IsPlain := by
  cases negated with
  | false => exact reads.positive.plain
  | true => exact reads.negative.plain

theorem Space.Comprises.exists_reads (comprises : Comprises space is) :
    ∃ sentence, Guard.Reads space is sentence := by
  obtain ⟨_, _, literals, ⟨n, rfl, negative⟩, p, rfl, positive⟩ := exists_literals
    (R := fun k text meaning => ∃ t, text = Smt.Sentence.text t ∧ Smt.Means (Smt.opener k :: Smt.arithmetic) t meaning)
    (Q := Inequality.IsWritten)
    (fun ⟨s, first, means⟩ ⟨t, second, means'⟩ => ⟨_, by rw [first, second, s.text_join], means.join means'⟩)
    (fun k _ written =>
      have ⟨t, made, means⟩ := written.smt_spec (subset_cons_self (Smt.opener k) _)
      ⟨_, made, t, rfl, means⟩)
    Inequality.IsWritten.negate comprises.result comprises.isWritten
  exact ⟨fun negated => if negated then n else p, literals, negative, positive⟩

end Supermartingale
