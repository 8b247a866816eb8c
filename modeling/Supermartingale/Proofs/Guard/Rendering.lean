import Supermartingale.Proofs.Guard.Capture

/-!
# The solver's text of a guard

The solver is told a guard as the tree of its label, in which every literal is the sentence of a space or of
its negation. Letters of propositions that occur in sentences are replaced as well.
-/

namespace Supermartingale.Guard

open List

variable {sentences : List (Bool → Smt.Sentence)} {table : Text.Table} {spaces : List String} {r : Label.Rank}

open Label

/-! ## Before and after -/

theorem letter_digit (i : Fin 10) : letter (digit i) = mark i ∧ digit i ≠ ' ' := by
  revert i
  decide

theorem toList_start (p : Part r) :
    (letters (Text.replaceAll " " "" p.form)).toList = p.shown (fun c => c.sign.toList) pending := by
  have blank : " ".toList = [' '] := rfl
  rw [letters, String.toList_ofList, Text.replaceAll_of_nonempty (blank ▸ cons_ne_nil ' ' []),
    String.toList_ofList, blank, String.toList_empty, Text.replaceFrom_blank]
  induction p with
  | literal l =>
    obtain ⟨negated, i⟩ := l
    obtain ⟨named, visible⟩ := letter_digit i
    have signs : letter '(' = '(' ∧ letter '!' = '!' ∧ letter ')' = ')' := by decide
    cases negated with
    | false => simp [Part.form, Part.shown, pending, named, visible]
    | true => simp [Part.form, Part.shown, pending, named, visible, signs]
  | group p ih | factor p ih | conjunction p ih => exact ih
  | and p q ihp ihq =>
    have signs : letter '(' = '(' ∧ letter '&' = '&' ∧ letter ')' = ')' := by decide
    rw [Part.shown, ← ihp, ← ihq]
    simp [Part.form, Connective.sign, signs]
  | or p q ihp ihq =>
    have signs : letter '(' = '(' ∧ letter '|' = '|' ∧ letter ')' = ')' := by decide
    rw [Part.shown, ← ihp, ← ihq]
    simp [Part.form, Connective.sign, signs]

-- the connectives when only disjunctions have become words
def worded : Connective → List Char
  | .conjunction => ['&']
  | .disjunction => ['o', 'r']

theorem replaceFrom_words {p : Part r} {leaf : Literal → List Char} {openers : List Char}
    (quiet : ∀ l ∈ p.literals, Smt.Quiet openers (leaf l)) :
    Text.replaceFrom ['&'] ['a', 'n', 'd'] 0
      (Text.replaceFrom ['|'] ['o', 'r'] 0 (p.shown (fun c => c.sign.toList) leaf)) =
      p.shown (fun c => c.word.toList) leaf := by
  have leaves {sign : Char} (operator : sign ∈ ['&', '|']) (value : List Char) :
      ∀ l ∈ p.literals, Text.Rewrites [sign] value (leaf l) (leaf l) := by
    intro l mem
    refine (quiet l mem).rewrites (fun c outside rest start => outside ?_) (fun c _ rest start => ?_) value
    · rw [← (cons_prefix_cons.mp start).1]
      exact (by decide : ['&', '|'] ⊆ Smt.operators) operator
    · have opens := (cons_prefix_cons.mp start).1
      rw [opens] at operator
      exact absurd operator (by decide)
  have disjunctions (c : Connective) :
      Text.Rewrites ['|'] ['o', 'r'] ('(' :: c.sign.toList) ('(' :: worded c) := by
    cases c with
    | conjunction => exact .of_not_mem (by decide : '|' ∉ ['(', '&']) _
    | disjunction => exact .cons (.of_not_mem (by decide : '|' ∉ ['(']) _) (.self (cons_ne_nil '|' []))
  have conjunctions (c : Connective) :
      Text.Rewrites ['&'] ['a', 'n', 'd'] ('(' :: worded c) ('(' :: c.word.toList) := by
    cases c with
    | conjunction => exact .cons (.of_not_mem (by decide : '&' ∉ ['(']) _) (.self (cons_ne_nil '&' []))
    | disjunction => exact .of_not_mem (by decide : '&' ∉ ['(', 'o', 'r']) _
  rw [(Part.rewrites_shown disjunctions (.of_not_mem (by decide) _) (leaves (by decide) _)).result]
  exact (Part.rewrites_shown conjunctions (.of_not_mem (by decide) _) (leaves (by decide) _)).result

/-! ## The table -/

def numbered : ℕ → List String → Text.Table
  | _, [] => []
  | k, space :: spaces => (toString k, space) :: numbered (k + 1) spaces

theorem setEntry_of_new {key : String} (new : ∀ entry ∈ table, entry.1 ≠ key)
    (value : String) : setEntry table key value = table ++ [(key, value)] := by
  unfold setEntry
  rw [if_neg]
  simp only [any_eq_true, beq_iff_eq, not_exists, not_and]
  exact new

def KeysBelow (k : ℕ) (table : Text.Table) : Prop :=
  ∀ entry ∈ table, ∃ j < k, entry.1 = "!" ++ toString j ∨ entry.1 = toString j

theorem key_inj {i j : ℕ} (hi : i < 10) (hj : j < 10) :
    (toString i = toString j → i = j) ∧ ("!" ++ toString i = "!" ++ toString j → i = j) ∧
      "!" ++ toString i ≠ toString j := by
  have all : ∀ i j : Fin 10, (toString i.val = toString j.val → i = j) ∧
      ("!" ++ toString i.val = "!" ++ toString j.val → i = j) ∧ "!" ++ toString i.val ≠ toString j.val := by
    decide +kernel
  obtain ⟨plain, negated, apart⟩ := all ⟨i, hi⟩ ⟨j, hj⟩
  exact ⟨fun same => congrArg Fin.val (plain same), fun same => congrArg Fin.val (negated same), apart⟩

theorem KeysBelow.setEntry {k : ℕ} (below : KeysBelow k table) (few : k < 10) (negative positive : String) :
    setEntry (setEntry table ("!" ++ toString k) negative) (toString k) positive =
        table ++ [("!" ++ toString k, negative), (toString k, positive)] ∧
      KeysBelow (k + 1) (table ++ [("!" ++ toString k, negative), (toString k, positive)]) := by
  constructor
  · have first : ∀ entry ∈ table, entry.1 ≠ "!" ++ toString k := by
      intro entry mem same
      obtain ⟨j, less, equal | equal⟩ := below entry mem
      · have := (key_inj few (by omega)).2.1 (same.symm.trans equal)
        omega
      · exact (key_inj few (by omega)).2.2 (same.symm.trans equal)
    have second : ∀ entry ∈ table ++ [("!" ++ toString k, negative)], entry.1 ≠ toString k := by
      rw [forall_mem_append, forall_mem_singleton]
      refine ⟨fun entry mem same => ?_, (key_inj few few).2.2⟩
      obtain ⟨j, less, equal | equal⟩ := below entry mem
      · exact (key_inj (by omega) few).2.2 (equal.symm.trans same)
      · have := (key_inj few (by omega)).1 (same.symm.trans equal)
        omega
    rw [setEntry_of_new first, setEntry_of_new second, append_assoc]
    rfl
  · intro entry mem
    rcases mem_append.mp mem with old | new
    · obtain ⟨j, less, key⟩ := below entry old
      exact ⟨j, by omega, key⟩
    · simp only [mem_cons, not_mem_nil, or_false] at new
      rcases new with rfl | rfl
      · exact ⟨k, by omega, .inl rfl⟩
      · exact ⟨k, by omega, .inr rfl⟩

theorem foldlM_literals
    (reads : Forall₂ (fun space sentence => ∃ is, Reads space is sentence) spaces sentences) {k : ℕ}
    (few : k + spaces.length ≤ 10) (below : KeysBelow k table) :
    (numbered k spaces).foldlM (fun table (k, v) => do
      let entries ← literals k v
      return entries.foldl (fun t (k, v) => setEntry t k v) table) table = .ok (table ++ entries k sentences) := by
  induction reads generalizing k table with
  | nil => simp [numbered, entries, pure, Except.pure]
  | @cons space sentence spaces sentences first _ ih =>
    obtain ⟨is, reads⟩ := first
    rw [length_cons] at few
    obtain ⟨set, below'⟩ := below.setEntry (by omega) (sentence true).text (sentence false).text
    have rest := ih (by omega) below'
    rw [numbered, foldlM_cons]
    dsimp only
    rw [reads.literals]
    simp only [bind, Except.bind, pure, Except.pure, foldl_cons, foldl_nil, set]
    refine Eq.trans rest ?_
    rw [entries, append_assoc]
    rfl

def filled (sentences : List (Bool → Smt.Sentence)) (form : String) : String :=
  Text.replaceAll "&" "and" (Text.replaceAll "|" "or"
    ((entries 0 sentences).foldl enter (letters (Text.replaceAll " " "" form))))

def unwrapped (s : String) : String :=
  if doublyWrapped s.toList then String.ofList ((s.toList.drop 1).take (s.toList.length - 2)) else s

section

variable {spaces : List String} {sentences : List (Bool → Smt.Sentence)}
  (reads : Forall₂ (fun space sentence => ∃ is, Reads space is sentence) spaces sentences)
  (few : spaces.length ≤ 10) {r : Label.Rank} {label : String}

include reads few

theorem smt_of_prefixForm {label form : String} (labelled : label ≠ "") (prefixed : prefixForm label = .ok form) :
    smt ⟨label, numbered 0 spaces⟩ = .ok (unwrapped (filled sentences form)) := by
  have table : literalTable (numbered 0 spaces) = .ok (entries 0 sentences) := by
    have filled := foldlM_literals reads (by omega : 0 + spaces.length ≤ 10) (forall_mem_nil _)
    exact filled
  unfold smt
  rw [if_neg (fun empty => labelled (String.isEmpty_iff.mp empty)), prefixed, table]
  rfl

theorem smt_eq_of_prefixForm {p : Part r} (known : ∀ l ∈ p.literals, l.index < spaces.length)
    (labelled : label ≠ "") (prefixed : prefixForm label = .ok p.form) :
    smt ⟨label, numbered 0 spaces⟩ =
      .ok (String.ofList (p.shown (fun c => c.word.toList) (settle 0 sentences pending))) := by
  have starts : ∀ l ∈ p.literals, Stands 0 l (pending l) := fun l _ => .pending (Nat.zero_le _) rfl
  have length := reads.length_eq
  obtain ⟨chars, stands⟩ := foldl_entries (fun sentence mem => by
    obtain ⟨space, _, is, reads⟩ := exists_of_mem_right reads mem
    exact ⟨space, is, reads⟩) (by omega : 0 + sentences.length ≤ 10) starts (toList_start p)
  -- every literal has had its turn
  have quiet : ∀ l ∈ p.literals,
      Smt.Quiet ('a' :: 'o' :: Smt.arithmetic) (settle 0 sentences pending l) := by
    intro l mem
    have inside := known l mem
    cases stands l mem with
    | pending later => omega
    | quiet _ quiet => exact quiet.mono (by unfold openers; split <;> simp)
  have words : (filled sentences p.form).toList =
      p.shown (fun c => c.word.toList) (settle 0 sentences pending) := by
    rw [filled, Text.replaceAll_of_nonempty (by decide), Text.replaceAll_of_nonempty (by decide)]
    simp only [String.toList_ofList, chars]
    exact replaceFrom_words quiet
  -- a quiet text does not start with two parentheses, so nothing is stripped in the end
  have whole := Part.quiet_shown (fun c => by cases c <;> decide) quiet
  rw [smt_of_prefixForm reads few labelled prefixed, unwrapped, words, whole.not_doublyWrapped,
    if_neg Bool.false_ne_true, ← words, String.ofList_toList]

/-- The solver's text of a guard, with all replacements made one after the other. -/
theorem smt_eq {p : Part r} (known : ∀ l ∈ p.literals, l.index < spaces.length)
    (spelled : label.toList.filter (· != ' ') = p.chars) :
    smt ⟨label, numbered 0 spaces⟩ =
      .ok (String.ofList (p.shown (fun c => c.word.toList) (settle 0 sentences pending))) := by
  refine smt_eq_of_prefixForm reads few known ?_ (p.prefixForm_eq spelled)
  rintro rfl
  exact p.chars_ne_nil spelled.symm

end

/-! ## Captured letters -/

/-- A text in which the letters of propositions from a number on are replaced. -/
def overwrite : ℕ → List (Bool → Smt.Sentence) → List Char → List Char
  | _, [], cs => cs
  | k, sentence :: sentences, cs => overwrite (k + 1) sentences (Text.fill (mark k) (sentence false).chars cs)

/-- A text does not get shorter, and it stays the same only if no letter occurs in it. -/
theorem overwrite_spec (k : ℕ) (sentences : List (Bool → Smt.Sentence)) (cs : List Char) :
    cs.length ≤ (overwrite k sentences cs).length ∧
      (overwrite k sentences cs = cs ↔ ∀ j, k ≤ j → j < k + sentences.length → mark j ∉ cs) := by
  induction sentences generalizing k cs with
  | nil =>
    refine ⟨le_rfl, iff_of_true rfl fun j least most => ?_⟩
    rw [length_nil] at most
    omega
  | cons sentence sentences ih =>
    obtain ⟨grows, captures⟩ := Text.length_fill_le (mark k) (sentence false).two_le_length_chars cs
    obtain ⟨longer, same⟩ := ih (k + 1) (Text.fill (mark k) (sentence false).chars cs)
    rw [overwrite, length_cons]
    refine ⟨grows.trans longer, ?_⟩
    by_cases inside : mark k ∈ cs
    · -- a captured letter makes the text longer for good
      have strictly := captures inside
      refine iff_of_false (fun equal => ?_) fun free => free k le_rfl (by omega) inside
      rw [equal] at longer
      omega
    · rw [Text.fill_of_not_mem inside] at same ⊢
      rw [same]
      constructor
      · intro free j least most
        rcases least.eq_or_lt with rfl | less
        · exact inside
        · exact free j less (by omega)
      · exact fun free j least most => free j (by omega) (by omega)

section

variable {sentences : List (Bool → Smt.Sentence)} {k : ℕ} {leaf : Literal → List Char} {l : Literal}
  {sentence : Bool → Smt.Sentence}

theorem settle_of_lt (earlier : l.index < k) : settle k sentences leaf l = overwrite k sentences (leaf l) := by
  induction sentences generalizing k leaf with
  | nil => rfl
  | cons sentence sentences ih =>
    rw [settle, ih (by omega), overwrite, replace, replaceNegation, if_neg fun both => earlier.ne both.2]

/-- A literal gets its text in its turn, and from then on letters are replaced in that text. -/
theorem settle_pending (start : leaf l = pending l) (later : k ≤ l.index)
    (listed : sentences[l.index - k]? = some sentence) :
    settle k sentences leaf l =
      if l.negated then overwrite l.index (sentences.drop (l.index - k)) (sentence true).chars
      else overwrite (l.index + 1) (sentences.drop (l.index - k + 1)) (sentence false).chars := by
  induction sentences generalizing k leaf with
  | nil => simp at listed
  | cons first sentences ih =>
    rw [settle]
    by_cases same : l.index = k
    · have head : first = sentence := by simpa [same] using listed
      rw [settle_of_lt (by omega), head, same, Nat.sub_self, drop_zero, drop_succ_cons, drop_zero]
      split
      · rename_i negated
        rw [overwrite, replace, replaceNegation, if_pos ⟨negated, same⟩]
      · rename_i plain
        rw [replace, replaceNegation, if_neg fun both => plain both.1, start, pending, if_neg plain, same]
        simp [Text.fill]
    · have index : l.index - k = l.index - (k + 1) + 1 := by omega
      rw [index, List.getElem?_cons_succ] at listed
      rw [index, drop_succ_cons, drop_succ_cons]
      refine ih ?_ (by omega) listed
      rw [replace, replaceNegation, if_neg fun both => same both.2, start,
        Text.fill_of_not_mem (mark_not_mem_pending (by omega) (Ne.symm same))]

def Precedes (l : Literal) (j : ℕ) : Prop := if l.negated then l.index ≤ j else l.index < j

instance (l : Literal) (j : ℕ) : Decidable (Precedes l j) :=
  inferInstanceAs (Decidable (if l.negated then l.index ≤ j else l.index < j))

theorem settle_spec (listed : sentences[l.index.val]? = some sentence) :
    (sentence l.negated).chars.length ≤ (settle 0 sentences pending l).length ∧
      (settle 0 sentences pending l = (sentence l.negated).chars ↔
        ∀ j < sentences.length, Precedes l j → mark j ∉ (sentence l.negated).chars) := by
  have inside : l.index.val < sentences.length := (List.getElem?_eq_some_iff.mp listed).1
  rw [settle_pending rfl (Nat.zero_le _) listed, Nat.sub_zero]
  unfold Precedes
  split
  · rename_i negated
    obtain ⟨longer, same⟩ := overwrite_spec l.index (sentences.drop l.index) (sentence true).chars
    rw [length_drop, Nat.add_sub_cancel' inside.le] at same
    rw [negated, same]
    exact ⟨longer, ⟨fun free j most least => free j least most, fun free j least most => free j most least⟩⟩
  · rename_i plain
    obtain ⟨longer, same⟩ := overwrite_spec (l.index + 1) (sentences.drop (l.index + 1)) (sentence false).chars
    rw [length_drop, Nat.add_sub_cancel' inside] at same
    rw [Bool.not_eq_true _ |>.mp plain, same]
    exact ⟨longer, ⟨fun free j most least => free j least most, fun free j least most => free j most least⟩⟩

end

theorem exists_sentences {comparisons : List (List Inequality)}
    (comprises : Forall₂ Space.Comprises spaces comparisons) :
    ∃ sentences, Forall₂ (fun space sentence => ∃ is, Reads space is sentence) spaces sentences ∧
      ∀ (i : ℕ) space is sentence, spaces[i]? = some space → comparisons[i]? = some is →
        sentences[i]? = some sentence → Reads space is sentence := by
  induction comprises with
  | nil => exact ⟨[], .nil, by simp⟩
  | cons first _ ih =>
    obtain ⟨sentence, reads⟩ := first.exists_reads
    obtain ⟨sentences, related, each⟩ := ih
    refine ⟨sentence :: sentences, .cons ⟨_, reads⟩ related, fun i => ?_⟩
    cases i with
    | zero =>
      intro space is sentence' h₁ h₂ h₃
      cases h₁
      cases h₂
      cases h₃
      exact reads
    | succ i => simpa using each i

def sentenceOf (sentences : List (Bool → Smt.Sentence)) (l : Literal) : Smt.Sentence :=
  match sentences[l.index.val]? with
  | some sentence => sentence l.negated
  | none => .atLeast (.var "") (.var "")

theorem sentenceOf_eq {l : Literal} {sentence : Bool → Smt.Sentence}
    (listed : sentences[l.index.val]? = some sentence) : sentenceOf sentences l = sentence l.negated := by
  rw [sentenceOf, listed]

/-- The text of a guard is the tree of its label with the sentences of its literals, and true where the label
is, exactly if no letter of a proposition occurs in the text of a literal that is there when the proposition
is replaced. -/
theorem smt_eq_tree_iff {spaces : List String} {comparisons : List (List Inequality)}
    (comprises : Forall₂ Space.Comprises spaces comparisons) (few : spaces.length ≤ 10)
    {p : Part .disjunction} (known : ∀ l ∈ p.literals, l.index < spaces.length) {label : String}
    (spelled : label.toList.filter (· != ' ') = p.chars) :
    ∃ (sentence : Literal → Smt.Sentence) (text : String),
      (∀ (i : Fin 10) space is, spaces[i.val]? = some space → comparisons[i.val]? = some is →
        Reads space is fun negated => sentence ⟨negated, i⟩) ∧
      smt ⟨label, numbered 0 spaces⟩ = .ok text ∧
      (p.sentence sentence).IsPlain ∧
      (∀ ρ, (p.sentence sentence).Holds ρ ↔ p.Holds fun l => (sentence l).Holds ρ) ∧
      (text = (p.sentence sentence).text ↔
        ∀ l ∈ p.literals, ∀ j < spaces.length, Precedes l j → mark j ∉ (sentence l).chars) := by
  obtain ⟨sentences, related, each⟩ := exists_sentences comprises
  have length := related.length_eq
  have listed {i : ℕ} (inside : i < spaces.length) : ∃ f ∈ sentences, sentences[i]? = some f := by
    have below : i < sentences.length := by omega
    exact ⟨sentences[i], getElem_mem below, List.getElem?_eq_getElem below⟩
  refine ⟨sentenceOf sentences, _, fun i space is spaced compared => ?_, smt_eq related few known spelled,
    Part.isPlain_sentence fun l member => ?_, fun ρ => Part.holds_sentence _ ρ p, ?_⟩
  · obtain ⟨f, _, got⟩ := listed (List.getElem?_eq_some_iff.mp spaced).1
    have same : (fun negated => sentenceOf sentences ⟨negated, i⟩) = f := funext fun negated => sentenceOf_eq got
    rw [same]
    exact each i space is f spaced compared got
  · obtain ⟨f, inside, got⟩ := listed (known l member)
    obtain ⟨space, _, is, reads⟩ := exists_of_mem_right related inside
    rw [sentenceOf_eq got]
    exact reads.isPlain l.negated
  · have settled : ∀ l ∈ p.literals,
        (sentenceOf sentences l).chars.length ≤ (settle 0 sentences pending l).length ∧
          (settle 0 sentences pending l = (sentenceOf sentences l).chars ↔
            ∀ j < spaces.length, Precedes l j → mark j ∉ (sentenceOf sentences l).chars) := by
      intro l member
      obtain ⟨f, _, got⟩ := listed (known l member)
      rw [sentenceOf_eq got, length]
      exact settle_spec got
    rw [Smt.Sentence.text, Part.chars_sentence, String.ofList_inj,
      (Part.shown_inj fun l member => (settled l member).1).2]
    exact forall₂_congr fun l member => (settled l member).2

def bands : List String := ["0 <= S1 <= 5", "S1 <= 1", "S1 <= 2", "S1 <= 3"]

def choice : Part .disjunction :=
  .conjunction (.and (.literal ⟨false, 0⟩) (.factor (.group
    (.or (.factor (.literal ⟨true, 1⟩)) (.conjunction (.factor (.literal ⟨false, 3⟩)))))))

theorem exists_comprises_bands : ∃ comparisons, Forall₂ Space.Comprises bands comparisons := by
  have checked : ∀ space ∈ bands, Space.isOver ["S1"] space := by decide +kernel
  have unknown : ∀ name ∈ ["S1"], IsUnknown name := by
    rw [forall_mem_singleton]
    exact isUnknown_variableOf (by decide : 'S' ∈ Supermartingale.letters) 1
  exact exists_forall₂ fun space mem => Space.exists_comprises unknown (checked space mem)

theorem choice_smt_eq_tree_iff : ∃ comparisons, Forall₂ Space.Comprises bands comparisons ∧
    bands.length ≤ 10 ∧ (∀ l ∈ choice.literals, l.index < bands.length) ∧
    "0 & (!1 | 3)".toList.filter (· != ' ') = choice.chars ∧
    ∃ (sentence : Literal → Smt.Sentence) (text : String),
      (∀ (i : Fin 10) space is, bands[i.val]? = some space → comparisons[i.val]? = some is →
        Reads space is fun negated => sentence ⟨negated, i⟩) ∧
      smt ⟨"0 & (!1 | 3)", numbered 0 bands⟩ = .ok text ∧
      (choice.sentence sentence).IsPlain ∧
      (∀ ρ, (choice.sentence sentence).Holds ρ ↔ choice.Holds fun l => (sentence l).Holds ρ) ∧
      (text = (choice.sentence sentence).text ↔
        ∀ l ∈ choice.literals, ∀ j < bands.length, Precedes l j → mark j ∉ (sentence l).chars) := by
  obtain ⟨comparisons, comprises⟩ := exists_comprises_bands
  have few : bands.length ≤ 10 := by decide
  have known : ∀ l ∈ choice.literals, l.index < bands.length := by decide
  have spelled : "0 & (!1 | 3)".toList.filter (· != ' ') = choice.chars := by decide
  exact ⟨comparisons, comprises, few, known, spelled, smt_eq_tree_iff comprises few known spelled⟩

/-- The letter of the last proposition is found in the conjunction that the first one stands for. -/
theorem smt_bands_ne_literal : ∃ text negative positive, smt ⟨"0", numbered 0 bands⟩ = .ok text ∧
    literals "0" "0 <= S1 <= 5" = .ok [("!0", negative), ("0", positive)] ∧ text ≠ positive := by
  have written : literals "0" "0 <= S1 <= 5" =
      .ok [("!0", "(or (>= (* -1 S1) 0) (>= (+ -5 (* 1 S1)) 0))"),
        ("0", "(and (>= (* 1 S1) 0) (>= (+ 5 (* -1 S1)) 0))")] := by decide +kernel
  obtain ⟨comparisons, comprises⟩ := exists_comprises_bands
  obtain ⟨sentences, related, _⟩ := exists_sentences comprises
  have text := smt_eq related (by decide) (p := .literal ⟨false, 0⟩) (by decide)
    (show "0".toList.filter (· != ' ') = _ from rfl)
  refine ⟨_, _, _, text, written, fun same => ?_⟩
  cases related with
  | @cons _ sentence _ others reads rest =>
    obtain ⟨is, reads⟩ := reads
    have chars : (sentence false).chars = "(and (>= (* 1 S1) 0) (>= (+ 5 (* -1 S1)) 0))".toList := by
      have positive := (reads.literals "0").symm.trans written
      simp only [Except.ok.injEq, List.cons.injEq, Prod.mk.injEq, and_true, true_and] at positive
      rw [← positive.2, Smt.Sentence.text, String.toList_ofList]
    have settled : settle 0 (sentence :: others) pending ⟨false, 0⟩ = (sentence false).chars := by
      rw [chars, ← same, String.toList_ofList]
      rfl
    have four : (sentence :: others).length = 4 := congrArg (· + 1) rest.length_eq.symm
    have listed : (sentence :: others)[(0 : Fin 10).val]? = some sentence := rfl
    have free := (settle_spec (l := ⟨false, 0⟩) listed).2.mp settled 3 (by omega) (by decide)
    rw [chars] at free
    exact free (by decide)

end Supermartingale.Guard
