import Supermartingale.Proofs.Guard.Rendering
import Supermartingale.Proofs.Polynomial.NextState
import Supermartingale.Proofs.Smt.Reading
import Supermartingale.Proofs.Space.Relaxation

/-!
# Guards with negations of any part

Only a negated proposition is replaced together with its sign, so a guard becomes a sentence exactly if parentheses
aside all negations stand before propositions. Then the sentence is true wherever the label is, with strict
comparisons read as strict.
-/

namespace Supermartingale

open List

/-! ## Negations before parentheses -/

namespace Text

/-- A replacement that leaves a negation before a parenthesis where it is. -/
structure Spares (pattern value : List Char) : Prop where
  nonempty : pattern ≠ []
  apart : ¬ ['!', '('] <:+: pattern
  last : ¬ ['!'] <:+ pattern
  opens : ['('] <+: pattern → ['('] <+: value

theorem Spares.replaceFrom {pattern value : List Char} (spares : Spares pattern value) (before after : List Char) :
    ['!', '('] <:+: Text.replaceFrom pattern value 0 (before ++ '!' :: '(' :: after) := by
  by_cases start : pattern <+: before ++ '!' :: '(' :: after
  · -- the occurrence ends before the negation
    have inside : pattern <+: before := by
      rcases prefix_or_prefix_of_prefix start (prefix_append before _) with inside | ⟨rest, rfl⟩
      · exact inside
      · have across := (prefix_append_right_inj before).mp start
        match rest with
        | [] => simp
        | [c] =>
          obtain ⟨rfl, _⟩ := cons_prefix_cons.mp across
          exact absurd (suffix_append before ['!']) spares.last
        | c :: d :: rest =>
          obtain ⟨rfl, next⟩ := cons_prefix_cons.mp across
          obtain ⟨rfl, _⟩ := cons_prefix_cons.mp next
          exact absurd ⟨before, rest, by simp⟩ spares.apart
    obtain ⟨rest, rfl⟩ := inside
    have shorter : rest.length < (pattern ++ rest).length := by
      have := length_pos_iff.mpr spares.nonempty
      rw [length_append]
      omega
    rw [append_assoc, replaceFrom_append value spares.nonempty]
    exact (spares.replaceFrom rest after).trans (suffix_append _ _).isInfix
  · match before with
    | [] =>
      rw [nil_append] at start ⊢
      rw [replaceFrom_cons value start]
      -- what follows the sign of the negation is a parenthesis again
      have front : ['('] <+: Text.replaceFrom pattern value 0 ('(' :: after) := by
        by_cases next : pattern <+: '(' :: after
        · obtain ⟨rest, same⟩ := next
          rw [← same, replaceFrom_append value spares.nonempty]
          obtain ⟨c, cs, split⟩ := exists_cons_of_ne_nil spares.nonempty
          rw [split, cons_append] at same
          have opening : ['('] <+: pattern := by
            rw [split, (List.cons.inj same).1]
            exact ⟨cs, rfl⟩
          exact (spares.opens opening).trans (prefix_append _ _)
        · rw [replaceFrom_cons value next]
          exact ⟨_, rfl⟩
      exact (cons_prefix_cons.mpr ⟨rfl, front⟩).isInfix
    | c :: before =>
      rw [cons_append] at start ⊢
      rw [replaceFrom_cons value start]
      exact (spares.replaceFrom before after).trans (suffix_cons c _).isInfix
termination_by before.length

theorem Spares.infix_replaceFrom {pattern value : List Char} (spares : Spares pattern value) {cs : List Char}
    (inside : ['!', '('] <:+: cs) : ['!', '('] <:+: Text.replaceFrom pattern value 0 cs := by
  obtain ⟨before, after, rfl⟩ := inside
  simpa using spares.replaceFrom before after

end Text

theorem Smt.Quiet.negation_not_mem {openers cs : List Char} (quiet : Quiet openers cs) : '!' ∉ cs := by
  have plain {c : Char} (outside : c ∉ operators) : '!' ≠ c := by
    rintro rfl
    exact outside (by decide)
  induction quiet with
  | nil => exact not_mem_nil
  | char outside _ ih => simp [plain outside, ih]
  | opening _ outside _ ih => simp [plain outside, ih]

theorem Smt.Sentence.IsPlain.quiet {t : Smt.Sentence} (plain : t.IsPlain) :
    Quiet ('a' :: 'o' :: arithmetic) t.chars := by
  induction t with
  | atLeast l r => exact quiet_atLeast plain.1 plain.2 (by decide)
  | join k gap l r ihl ihr =>
    obtain ⟨blanks, left, right⟩ := plain
    have blank : Quiet ('a' :: 'o' :: arithmetic) gap := .of_plain fun c mem => by
      rw [blanks c mem]
      decide
    exact Quiet.join (by cases k <;> decide) (blank.append (ihl left)) (blank.append (ihr right))

theorem Label.Part.Holds.mono {P Q : Literal → Prop} {r : Rank} {p : Part r} (holds : p.Holds P)
    (implies : ∀ l ∈ p.literals, P l → Q l) : p.Holds Q := by
  induction p with
  | literal l => exact implies l (mem_singleton_self l) holds
  | group p ih | factor p ih | conjunction p ih => exact ih holds implies
  | and p q ihp ihq =>
    obtain ⟨first, second⟩ := forall_mem_append.mp implies
    exact ⟨ihp holds.1 first, ihq holds.2 second⟩
  | or p q ihp ihq =>
    obtain ⟨first, second⟩ := forall_mem_append.mp implies
    exact holds.imp (ihp · first) (ihq · second)

namespace Guard

variable {spaces : List String} {leaf : Literal → Smt.Sentence} {r : Label.Rank} {n : ℕ} {l : Literal}

open Label

theorem opens_chars (t : Smt.Sentence) : ['('] <+: t.chars := by
  cases t with
  | atLeast l r => exact ⟨_, rfl⟩
  | join k gap l r => exact ⟨_, rfl⟩

theorem infix_foldl_entries {sentences : List (Bool → Smt.Sentence)} {k : ℕ} (few : k + sentences.length ≤ 10)
    {s : String} (inside : ['!', '('] <:+: s.toList) :
    ['!', '('] <:+: ((entries k sentences).foldl enter s).toList := by
  induction sentences generalizing k s with
  | nil => exact inside
  | cons sentence sentences ih =>
    rw [length_cons] at few
    have below : k < 10 := by omega
    obtain ⟨letter, negated⟩ := letters_spec below
    have spares (pattern : List Char) (listed : pattern ∈ [mark k] :: patterns k) (negated : Bool) :
        Text.Spares pattern (sentence negated).chars := by
      have all : ∀ k : Fin 10, ∀ pattern ∈ [mark k] :: patterns k,
          pattern ≠ [] ∧ ¬ ['!', '('] <:+: pattern ∧ ¬ ['!'] <:+ pattern := by decide
      obtain ⟨nonempty, apart, last⟩ := all ⟨k, below⟩ pattern listed
      exact ⟨nonempty, apart, last, fun _ => opens_chars _⟩
    rw [entries, foldl_cons, foldl_cons]
    refine ih (by omega) ?_
    rw [toList_enter (letter ▸ cons_ne_nil _ _), toList_enter (negated ▸ cons_ne_nil _ _), letter, negated]
    simp only [Smt.Sentence.text, String.toList_ofList]
    have first := (spares ['(', '!', mark k, ')'] (by simp [patterns]) true).infix_replaceFrom inside
    have second := (spares ['!', mark k] (by simp [patterns]) true).infix_replaceFrom first
    have third := (spares ['(', mark k, ')'] (by simp [patterns]) false).infix_replaceFrom second
    exact (spares [mark k] (by simp) false).infix_replaceFrom third

theorem mem_unwrapped {c : Char} (inner : c ≠ '(' ∧ c ≠ ')') {s : String} (mem : c ∈ s.toList) :
    c ∈ (unwrapped s).toList := by
  unfold unwrapped
  split
  · rename_i wrapped
    obtain ⟨starts, ends⟩ := Bool.and_eq_true_iff.mp wrapped
    rw [String.toList_ofList]
    generalize s.toList = cs at mem starts ends ⊢
    obtain ⟨front, starts⟩ : ∃ front, cs = '(' :: front :=
      ⟨_, (take_append_drop 2 cs).symm.trans (by rw [eq_of_beq starts]; rfl)⟩
    obtain ⟨back, ends⟩ : ∃ back, cs.reverse = ')' :: ')' :: back :=
      ⟨_, (take_append_drop 2 cs.reverse).symm.trans (by rw [eq_of_beq ends]; rfl)⟩
    have parts : cs = back.reverse ++ [')', ')'] := by simpa using congrArg List.reverse ends
    -- one parenthesis is cut off on either side, so the character is between them
    cases between : back.reverse with
    | nil => simp [parts, between] at starts
    | cons first middle =>
      obtain ⟨rfl, _⟩ : first = '(' ∧ middle ++ [')', ')'] = front := by simpa [parts, between] using starts
      have cut : (cs.drop 1).take (cs.length - 2) = middle ++ [')'] := by
        simp [parts, between, take_append]
      have kept : c ∈ middle := by simpa [parts, between, inner] using mem
      rw [cut]
      exact mem_append_left _ kept
  · exact mem

theorem mem_unwrapped_filled (sentences : List (Bool → Smt.Sentence)) (few : sentences.length ≤ 10)
    {p : Label.Formula r} (other : ¬ p.NegatesPropositions) : '!' ∈ (unwrapped (filled sentences p.form)).toList := by
  have start : ['!', '('] <:+: (letters (Text.replaceAll " " "" p.form)).toList := by
    have blank : " ".toList = [' '] := rfl
    rw [letters, String.toList_ofList, Text.replaceAll_of_nonempty (blank ▸ cons_ne_nil ' ' []),
      String.toList_ofList, blank, String.toList_empty, Text.replaceFrom_blank]
    exact ((Label.Formula.infix_form other).filter (· != ' ')).map letter
  have entered := infix_foldl_entries (by omega : 0 + sentences.length ≤ 10) start
  have inside : ['!', '('] <:+: (filled sentences p.form).toList := by
    rw [filled, Text.replaceAll_of_nonempty (by decide), Text.replaceAll_of_nonempty (by decide)]
    simp only [String.toList_ofList]
    have disjunctions : Text.Spares "|".toList "or".toList := ⟨by decide, by decide, by decide, by decide⟩
    have conjunctions : Text.Spares "&".toList "and".toList := ⟨by decide, by decide, by decide, by decide⟩
    exact conjunctions.infix_replaceFrom (disjunctions.infix_replaceFrom entered)
  exact mem_unwrapped (by decide) (inside.subset (by simp))

/-! ## Letters of sentences -/

def stateChars : List Char := '>' :: '=' :: 'S' :: (Smt.Term.frame ++ Smt.numeralChars)

theorem mem_stateName {name : String} (listed : name ∈ Powers.stateNames n) :
    ∀ c ∈ name.toList, c ∈ 'S' :: Smt.numeralChars := by
  obtain ⟨i, _, rfl⟩ := mem_stateNames.mp listed
  rw [variableOf, String.toList_ofList, forall_mem_cons]
  exact ⟨mem_cons_self, fun c mem => mem_cons_of_mem 'S' ((Smt.IsNumber.toDigits _).chars c mem)⟩

theorem mem_smt {i : Inequality} (relation : i.relation = .ge)
    (spanned : i.left.isOver (Powers.stateNames n) ∧ i.right.isOver (Powers.stateNames n)) {text : String}
    (made : i.smt = .ok text) : ∀ c ∈ text.toList, c ∈ stateChars := by
  have side {e : Equation} (spanned : e.isOver (Powers.stateNames n)) {s : String} (made : e.smt = .ok s) :
      ∀ c ∈ s.toList, c ∈ stateChars := by
    rw [Equation.isOver_iff] at spanned
    obtain ⟨t, term, same⟩ := bind_eq_ok.mp made
    cases same
    have number {c : Scalar} (numeral : c.isNumeral) : ∀ x ∈ c.text.toList, x ∈ 'S' :: Smt.numeralChars :=
      fun x mem => mem_cons_of_mem 'S' ((Smt.IsNumber.scalar numeral).chars x mem)
    have leaves := e.over_term (P := fun c => ∀ x ∈ c.text.toList, x ∈ 'S' :: Smt.numeralChars)
      (Q := fun name => ∀ x ∈ name.toList, x ∈ 'S' :: Smt.numeralChars) (number (c := .zero) (by decide +kernel))
      (number (c := .given (.int 1)) (by decide +kernel)) (fun m mem => number (spanned m mem).1)
      (fun name mem => ?_) term
    · intro c mem
      exact (by decide : Smt.Term.frame ++ 'S' :: Smt.numeralChars ⊆ stateChars) (Smt.Term.mem_render leaves c mem)
    · obtain ⟨m, inside, v, power, rfl⟩ := Equation.exists_power_of_mem_names mem
      exact mem_stateName ((spanned m inside).2 v power).1
  obtain ⟨l, left, rest⟩ := bind_eq_ok.mp made
  obtain ⟨r, right, same⟩ := bind_eq_ok.mp rest
  cases same
  have signs {cs : List Char} (subset : cs ⊆ stateChars) : ∀ x ∈ cs, x ∈ stateChars := fun x mem => subset mem
  simp only [relation, String.toList_append, forall_mem_append]
  exact ⟨⟨⟨⟨⟨⟨signs (by decide), signs (by decide)⟩, signs (by decide)⟩, side spanned.1 left⟩, signs (by decide)⟩,
    side spanned.2 right⟩, signs (by decide)⟩

theorem Reads.mem_chars {space : String} {is : List Inequality} {sentence : Bool → Smt.Sentence}
    (reads : Reads space is sentence) (result : Space.read space = .ok is)
    (spanned : ∀ i ∈ is, i.left.isOver (Powers.stateNames n) ∧ i.right.isOver (Powers.stateNames n)) (negated : Bool) :
    ∀ c ∈ (sentence negated).chars,
      c ∈ (if negated then ['o', 'r'] else ['a', 'n', 'd']) ++ stateChars := by
  have relation := (Space.read_spec result).2
  have inner {k : Connective} {cs : List Char} (subset : ∀ c ∈ cs, c ∈ stateChars) :
      ∀ c ∈ cs, c ∈ k.word.toList ++ stateChars := fun c mem => mem_append_right _ (subset c mem)
  have found := Space.exists_literals
    (R := fun k text _ => ∀ c ∈ text.toList, c ∈ k.word.toList ++ stateChars)
    (Q := fun i => i.relation = .ge ∧ i.left.isOver (Powers.stateNames n) ∧ i.right.isOver (Powers.stateNames n))
    (fun first second => ?_) (fun k i spanned => ?_) (fun spanned => ?_) result
    fun i inside => ⟨relation i inside, spanned i inside⟩
  · obtain ⟨_, _, literals, fails, holds⟩ := found
    have same := (literals "").symm.trans (reads.literals "")
    simp only [Except.ok.injEq, List.cons.injEq, Prod.mk.injEq, true_and, and_true] at same
    obtain ⟨rfl, rfl⟩ := same
    simp only [Smt.Sentence.text, String.toList_ofList] at fails holds
    cases negated with
    | false => exact holds
    | true => exact fails
  · simp only [String.toList_append, forall_mem_append]
    exact ⟨⟨⟨⟨⟨⟨inner (by decide), fun c mem => mem_append_left _ mem⟩, inner (by decide)⟩, first⟩, inner (by decide)⟩,
      second⟩, inner (by decide)⟩
  · obtain ⟨relation, left, right⟩ := spanned
    have unknown : ∀ name ∈ Powers.stateNames n, IsUnknown name := fun _ => isUnknown_stateName
    obtain ⟨text, _, _, made, _⟩ := Inequality.exists_reads (Equation.isWritten_of_isOver unknown left)
      (Equation.isWritten_of_isOver unknown right)
    exact ⟨text, made, inner (mem_smt relation ⟨left, right⟩ made)⟩
  · obtain ⟨relation, left, right⟩ := spanned
    rw [Inequality.negate, relation]
    exact ⟨Inequality.relation_make _ _ (.inl rfl), Inequality.isOver_make (.inl rfl) left right⟩

/-- Letters of up to three propositions are not found in the sentences that are there when they are replaced. -/
theorem mark_not_mem {j : ℕ} (few : j < 3) (precedes : Precedes l j) {cs : List Char}
    (chars : ∀ c ∈ cs, c ∈ (if l.negated then ['o', 'r'] else ['a', 'n', 'd']) ++ stateChars) : mark j ∉ cs := by
  have letters : ∀ j : Fin 3, mark j ∉ ['o', 'r'] ++ stateChars ∧
      (0 < j.val → mark j ∉ ['a', 'n', 'd'] ++ stateChars) := by
    decide
  obtain ⟨disjunction, conjunction⟩ := letters ⟨j, few⟩
  intro mem
  have inside := chars _ mem
  unfold Precedes at precedes
  split at inside
  · exact disjunction inside
  · rename_i plain
    rw [if_neg plain] at precedes
    exact conjunction (Nat.zero_lt_of_lt precedes) inside

/-! ## Sentences of guards -/

/-- A sentence that joins sentences with a property. -/
inductive Joins (P : Smt.Sentence → Prop) : Smt.Sentence → Prop where
  | leaf {t : Smt.Sentence} (holds : P t) : Joins P t
  | join {k : Connective} {gap : List Char} {l r : Smt.Sentence} (left : Joins P l) (right : Joins P r) :
      Joins P (.join k gap l r)

def IsSpace (spaces : List String) (t : Smt.Sentence) : Prop :=
  ∃ space ∈ spaces, ∃ is sentence negated, Reads space is sentence ∧ t = sentence negated

/-- The truth of a proposition, whose space is read as it is written. -/
def Truth (spaces : List String) (ρ : String → ℝ) (i : Fin 10) : Prop :=
  ∃ space, spaces[i.val]? = some space ∧ Space.Holds ρ space

/-- A well-formed combination of sentences of spaces that holds wherever a label does. -/
structure Formalises (spaces : List String) {r : Label.Rank} (p : Label.Formula r) (t : Smt.Sentence) : Prop where
  plain : t.IsPlain
  unnegated : '!' ∉ t.chars
  joins : Joins (IsSpace spaces) t
  holds : ∀ ρ, p.Holds (Truth spaces ρ) → t.Holds ρ

structure Tells (spaces : List String) (l : Literal) (t : Smt.Sentence) : Prop where
  plain : t.IsPlain
  isSpace : IsSpace spaces t
  chars : ∀ c ∈ t.chars, c ∈ (if l.negated then ['o', 'r'] else ['a', 'n', 'd']) ++ stateChars
  holds : ∀ ρ, Label.Formula.agreement (Truth spaces ρ) l → t.Holds ρ

theorem exists_sentences_of_spans (spans : ∀ space ∈ spaces, Space.Spans (Powers.stateNames n) space) :
    ∃ sentences : List (Bool → Smt.Sentence),
      Forall₂ (fun space sentence => ∃ is, Reads space is sentence) spaces sentences ∧
      ∀ l : Literal, l.index < spaces.length → Tells spaces l (sentenceOf sentences l) := by
  obtain ⟨comparisons, related⟩ := exists_forall₂ fun space mem =>
    (spans space mem).exists_comprises fun name => isUnknown_stateName
  obtain ⟨sentences, read, each⟩ := exists_sentences (related.imp fun _ _ known => known.1)
  refine ⟨sentences, read, fun l inside => ?_⟩
  have length := related.length_eq
  have length' := read.length_eq
  have compared : l.index.val < comparisons.length := by omega
  have listed := List.getElem?_eq_getElem (by omega : l.index.val < sentences.length)
  have spaced := List.getElem?_eq_getElem inside
  have reads := each l.index.val _ _ _ spaced (List.getElem?_eq_getElem compared) listed
  obtain ⟨comprises, spanned, -, truth⟩ := (forall₂_iff_get.mp related).2 l.index.val inside compared
  rw [sentenceOf_eq listed]
  refine ⟨reads.isPlain l.negated, ⟨_, getElem_mem inside, _, _, l.negated, reads, rfl⟩,
    reads.mem_chars comprises.result spanned l.negated, fun ρ agrees => ?_⟩
  unfold Label.Formula.agreement Truth at agrees
  simp only [spaced, Option.some.injEq, exists_eq_left'] at agrees
  split at agrees
  · rename_i negated
    rw [negated]
    exact (reads.negative.holds ρ).mpr ((truth ρ).2 agrees)
  · rename_i plain
    rw [Bool.not_eq_true _ |>.mp plain]
    exact (reads.positive.holds ρ).mpr ((truth ρ).1 agrees)

/-- No letter of up to three propositions is captured, so every literal gets the text of its sentence. -/
theorem Tells.settle_eq {sentences : List (Bool → Smt.Sentence)}
    (tells : Tells spaces l (sentenceOf sentences l)) (few : sentences.length ≤ 3)
    (inside : l.index < sentences.length) : settle 0 sentences pending l = (sentenceOf sentences l).chars := by
  have listed := List.getElem?_eq_getElem inside
  have chars := tells.chars
  rw [sentenceOf_eq listed] at chars ⊢
  rw [(settle_spec listed).2]
  exact fun j less precedes => mark_not_mem (by omega) precedes chars

theorem joins_sentence {P : Smt.Sentence → Prop} {q : Part r}
    (leaves : ∀ l ∈ q.literals, P (leaf l)) : Joins P (q.sentence leaf) := by
  induction q with
  | literal l => exact .leaf (leaves l (mem_singleton_self l))
  | group q ih | factor q ih | conjunction q ih => exact ih leaves
  | and q q' ih ih' | or q q' ih ih' =>
    obtain ⟨first, second⟩ := forall_mem_append.mp leaves
    exact .join (ih' second) (ih first)

theorem formalises_sentence {p : Label.Formula r} {q : Part r} (tells : ∀ l ∈ q.literals, Tells spaces l (leaf l))
    (truth : ∀ truth, q.Holds (Label.Formula.agreement truth) ↔ p.Holds truth) :
    Formalises spaces p (q.sentence leaf) := by
  have plain := Part.isPlain_sentence fun l mem => (tells l mem).plain
  refine ⟨plain, plain.quiet.negation_not_mem, joins_sentence fun l mem => (tells l mem).isSpace, fun ρ holds => ?_⟩
  rw [Part.holds_sentence]
  exact ((truth _).mpr holds).mono fun l mem => (tells l mem).holds ρ

/-- A guard over at most three propositions becomes a sentence that holds wherever its label does, exactly if
parentheses aside all negations of the label stand before propositions. -/
theorem smt_formalises_iff {n : ℕ} {spaces : List String}
    (spans : ∀ space ∈ spaces, Space.Spans (Powers.stateNames n) space) (few : spaces.length ≤ 3)
    {p : Label.Formula .disjunction} (known : ∀ i ∈ p.indices, i < spaces.length) {label : String}
    (spelled : label.toList.filter (· != ' ') = p.chars) :
    ∃ text, smt ⟨label, numbered 0 spaces⟩ = .ok text ∧
      ((∃ t, Formalises spaces p t ∧ text = t.text) ↔ p.NegatesPropositions) := by
  obtain ⟨sentences, read, tells⟩ := exists_sentences_of_spans spans
  have length := read.length_eq
  have prefixed := p.prefixForm_eq spelled
  have labelled : label ≠ "" := by
    rintro rfl
    exact p.chars_ne_nil spelled.symm
  have made := smt_of_prefixForm read (by omega) labelled prefixed
  refine ⟨_, made, fun ⟨t, formalises, same⟩ => ?_, fun negates => ?_⟩
  · by_contra other
    have left := mem_unwrapped_filled sentences (by omega) other
    rw [same, Smt.Sentence.text, String.toList_ofList] at left
    exact formalises.unnegated left
  · obtain ⟨q, form, inside, truth⟩ := Label.Formula.exists_part negates
    have below : ∀ l ∈ q.literals, l.index < spaces.length := fun l member => known _ (inside l member)
    have result := smt_eq_of_prefixForm read (by omega) below labelled (form ▸ prefixed)
    have settled : ∀ l ∈ q.literals, settle 0 sentences pending l = (sentenceOf sentences l).chars :=
      fun l member => (tells l (below l member)).settle_eq (by omega) (length ▸ below l member)
    refine ⟨_, formalises_sentence (fun l member => tells l (below l member)) truth, ?_⟩
    rw [Except.ok.inj (made.symm.trans result), Smt.Sentence.text, Part.chars_sentence]
    congr 1
    exact (Part.shown_inj fun l member => (congrArg List.length (settled l member)).ge).2.mpr settled

def corner : List String := ["S1 < 5", "0 <= S1 <= S2 + 1", "S1*S2 > 2"]

def outer : Label.Formula .disjunction :=
  .conjunction (.and (.not (.group (.conjunction (.factor (.index 0))))) (.factor (.group
    (.or (.factor (.index 1)) (.conjunction (.factor (.not (.index 2))))))))

theorem spans_corner : ∀ space ∈ corner, Space.Spans (Powers.stateNames 2) space := by
  have checked : ∀ space ∈ corner, (Space.read space).isOk ∧
      ∀ c ∈ Space.written space, c.isOver (Powers.stateNames 2) := by decide +kernel
  exact checked

theorem outer_smt_formalises_iff : (∀ space ∈ corner, Space.Spans (Powers.stateNames 2) space) ∧ corner.length ≤ 3 ∧
    (∀ i ∈ outer.indices, i < corner.length) ∧ "!(0) & (1 | !2)".toList.filter (· != ' ') = outer.chars ∧
    ∃ text, smt ⟨"!(0) & (1 | !2)", numbered 0 corner⟩ = .ok text ∧
      ((∃ t, Formalises corner outer t ∧ text = t.text) ↔ outer.NegatesPropositions) := by
  have few : corner.length ≤ 3 := by decide
  have known : ∀ i ∈ outer.indices, i < corner.length := by decide
  have spelled : "!(0) & (1 | !2)".toList.filter (· != ' ') = outer.chars := by decide
  exact ⟨spans_corner, few, known, spelled, smt_formalises_iff spans_corner few known spelled⟩

def excluded : Label.Formula .disjunction :=
  .conjunction (.factor (.not (.group (.conjunction (.and (.index 0) (.factor (.index 1)))))))

/-- The sign of a negated conjunction stays in the text. -/
theorem not_formalises_excluded : ∃ text, smt ⟨"!(0 & 1)", numbered 0 corner⟩ = .ok text ∧
    ∀ t, Formalises corner excluded t → text ≠ t.text := by
  obtain ⟨sentences, read, _⟩ := exists_sentences_of_spans spans_corner
  have few : sentences.length ≤ 10 := by
    rw [← read.length_eq]
    decide
  have spelled : "!(0 & 1)".toList.filter (· != ' ') = excluded.chars := by decide
  refine ⟨_, smt_of_prefixForm read (by decide) (by decide) (excluded.prefixForm_eq spelled),
    fun t formalises same => ?_⟩
  have other : ¬ excluded.NegatesPropositions := Bool.false_ne_true
  have left := mem_unwrapped_filled sentences few other
  rw [same, Smt.Sentence.text, String.toList_ofList] at left
  exact formalises.unnegated left

end Guard

end Supermartingale
