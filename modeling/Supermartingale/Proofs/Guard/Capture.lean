import Supermartingale.Proofs.Guard.Label
import Supermartingale.Proofs.Guard.Literal

/-!
# Replacing the propositions of a guard

The propositions of a guard are replaced one after the other, and each replacement goes through what was put in before
it. So a literal keeps its text only if none of the letters that are replaced later occurs in it.
-/

namespace Supermartingale

open List Text

/-! ## Rewriting part by part -/

namespace Text

/-- A part of a text becomes another one, whatever stands behind it. -/
def Rewrites (pattern value cs ds : List Char) : Prop :=
  ∀ rest, replaceFrom pattern value 0 (cs ++ rest) = ds ++ replaceFrom pattern value 0 rest

def fill (x : Char) (value cs : List Char) : List Char := cs.flatMap fun c => if c = x then value else [c]

namespace Rewrites

variable {pattern value cs ds cs' ds' : List Char}

theorem result (rewrites : Rewrites pattern value cs ds) : replaceFrom pattern value 0 cs = ds := by
  have whole := rewrites []
  simpa using whole

theorem append (first : Rewrites pattern value cs ds) (second : Rewrites pattern value cs' ds') :
    Rewrites pattern value (cs ++ cs') (ds ++ ds') := by
  intro rest
  rw [append_assoc, first, second, append_assoc]

theorem cons {c : Char} (first : Rewrites pattern value [c] ds) (rest : Rewrites pattern value cs ds') :
    Rewrites pattern value (c :: cs) (ds ++ ds') :=
  first.append rest

theorem self (nonempty : pattern ≠ []) : Rewrites pattern value pattern value := replaceFrom_append value nonempty

theorem keep {c : Char} (absent : ∀ rest, ¬ pattern <+: c :: rest) : Rewrites pattern value [c] [c] :=
  fun rest => replaceFrom_cons value (absent rest)

theorem fill (x : Char) (value cs : List Char) : Rewrites [x] value cs (fill x value cs) := by
  induction cs with
  | nil => exact fun _ => rfl
  | cons c cs ih =>
    refine cons ?_ ih
    dsimp only
    by_cases same : c = x
    · subst same
      rw [if_pos rfl]
      exact self (cons_ne_nil c [])
    · rw [if_neg same]
      exact keep fun rest start => same (cons_prefix_cons.mp start).1.symm

end Rewrites

theorem fill_of_not_mem {x : Char} {cs : List Char} (absent : x ∉ cs) (value : List Char) :
    fill x value cs = cs := by
  unfold fill
  rw [flatMap_congr (g := fun c => [c]) fun c mem => if_neg (ne_of_mem_of_not_mem mem absent)]
  simp

theorem Rewrites.of_not_mem {x : Char} {cs : List Char} (absent : x ∉ cs) (value : List Char) :
    Rewrites [x] value cs cs := by
  have filled := Rewrites.fill x value cs
  rw [fill_of_not_mem absent] at filled
  exact filled

theorem length_fill_le (x : Char) {value : List Char} (long : 2 ≤ value.length) (cs : List Char) :
    cs.length ≤ (fill x value cs).length ∧ (x ∈ cs → cs.length < (fill x value cs).length) := by
  induction cs with
  | nil => simp [fill]
  | cons c cs ih =>
    have whole : (fill x value (c :: cs)).length =
        (if c = x then value else [c]).length + (fill x value cs).length := by
      simp [fill]
    rw [whole]
    by_cases same : c = x
    · rw [if_pos same, length_cons]
      exact ⟨by omega, fun _ => by omega⟩
    · rw [if_neg same, length_cons, length_singleton]
      refine ⟨by omega, fun mem => ?_⟩
      have := ih.2 ((mem_cons.mp mem).resolve_left (Ne.symm same))
      omega

end Text

namespace Smt.Quiet

variable {openers cs : List Char}

/-- A pattern that has to start with an operator of a label is not found in a quiet text. -/
theorem rewrites {pattern : List Char} (absent : ∀ c ∉ operators, ∀ rest, ¬ pattern <+: c :: rest)
    (apart : ∀ c ∈ openers, ∀ rest, ¬ pattern <+: '(' :: c :: rest) (quiet : Quiet openers cs)
    (value : List Char) : Text.Rewrites pattern value cs cs := by
  induction quiet with
  | nil => exact fun _ => rfl
  | @char c cs plain _ ih => exact .cons (.keep (absent c plain)) ih
  | @opening c cs known plain _ ih =>
    intro rest
    have next := Text.Rewrites.cons (.keep (absent c plain)) ih rest
    rw [cons_append, cons_append, replaceFrom_cons value (apart c known _)]
    exact congrArg ('(' :: ·) next

theorem fill {openers' value : List Char} (quiet : Quiet openers cs) (subset : openers ⊆ openers')
    (filled : Quiet openers' value) {x : Char} (outside : x ∉ openers) (letter : x ≠ '(') :
    Quiet openers' (Text.fill x value cs) := by
  induction quiet with
  | nil => exact .nil
  | @char c cs plain _ ih =>
    have first : Quiet openers' (if c = x then value else [c]) := by
      split
      · exact filled
      · exact .char plain .nil
    exact first.append ih
  | @opening c cs known plain _ ih =>
    have kept : Text.fill x value ('(' :: c :: cs) = '(' :: c :: Text.fill x value cs := by
      simp [Text.fill, letter.symm, ne_of_mem_of_not_mem known outside]
    rw [kept]
    exact .opening (subset known) plain ih

theorem not_doublyWrapped (quiet : Quiet openers cs) : Guard.doublyWrapped cs = false := by
  cases quiet with
  | nil => rfl
  | @char c cs plain _ | @opening c cs known plain _ =>
    have other : c ≠ '(' := fun same => plain (by rw [same]; decide)
    simp [Guard.doublyWrapped, other]

end Smt.Quiet

/-! ## Trees of labels -/

namespace Label.Part

variable {r : Rank} {leaf leaf' : Literal → List Char} {p : Part r}

def shown (word : Connective → List Char) (leaf : Literal → List Char) : {r : Rank} → Part r → List Char
  | _, literal l => leaf l
  | _, group p => p.shown word leaf
  | _, factor p => p.shown word leaf
  | _, and p q => '(' :: word .conjunction ++ q.shown word leaf ++ p.shown word leaf ++ [')']
  | _, conjunction p => p.shown word leaf
  | _, or p q => '(' :: word .disjunction ++ q.shown word leaf ++ p.shown word leaf ++ [')']

def sentence (leaf : Literal → Smt.Sentence) : {r : Rank} → Part r → Smt.Sentence
  | _, literal l => leaf l
  | _, group p => p.sentence leaf
  | _, factor p => p.sentence leaf
  | _, and p q => .join .conjunction [] (q.sentence leaf) (p.sentence leaf)
  | _, conjunction p => p.sentence leaf
  | _, or p q => .join .disjunction [] (q.sentence leaf) (p.sentence leaf)

theorem chars_sentence (leaf : Literal → Smt.Sentence) (p : Part r) :
    (p.sentence leaf).chars = p.shown (fun k => k.word.toList) fun l => (leaf l).chars := by
  induction p with
  | literal l => rfl
  | group p ih | factor p ih | conjunction p ih => exact ih
  | and p q ihp ihq | or p q ihp ihq =>
    rw [sentence, Smt.Sentence.chars, ihp, ihq]
    rfl

theorem isPlain_sentence {leaf : Literal → Smt.Sentence}
    (plain : ∀ l ∈ p.literals, (leaf l).IsPlain) : (p.sentence leaf).IsPlain := by
  induction p with
  | literal l => exact plain l (mem_singleton_self l)
  | group p ih | factor p ih | conjunction p ih => exact ih plain
  | and p q ihp ihq | or p q ihp ihq =>
    obtain ⟨first, second⟩ := forall_mem_append.mp plain
    exact ⟨forall_mem_nil _, ihq second, ihp first⟩

theorem holds_sentence (leaf : Literal → Smt.Sentence) (ρ : String → ℝ) (p : Part r) :
    (p.sentence leaf).Holds ρ ↔ p.Holds fun l => (leaf l).Holds ρ := by
  induction p with
  | literal l => rfl
  | group p ih | factor p ih | conjunction p ih => exact ih
  | and p q ihp ihq =>
    rw [sentence, Smt.Sentence.Holds, Holds, ihp, ihq]
    exact and_comm
  | or p q ihp ihq =>
    rw [sentence, Smt.Sentence.Holds, Holds, ihp, ihq]
    exact or_comm

theorem rewrites_shown {pattern value : List Char} {word word' : Connective → List Char}
    (opens : ∀ k, Text.Rewrites pattern value ('(' :: word k) ('(' :: word' k))
    (closes : Text.Rewrites pattern value [')'] [')'])
    (leaves : ∀ l ∈ p.literals, Text.Rewrites pattern value (leaf l) (leaf' l)) :
    Text.Rewrites pattern value (p.shown word leaf) (p.shown word' leaf') := by
  induction p with
  | literal l => exact leaves l (mem_singleton_self l)
  | group p ih | factor p ih | conjunction p ih => exact ih leaves
  | and p q ihp ihq | or p q ihp ihq =>
    obtain ⟨first, second⟩ := forall_mem_append.mp leaves
    exact (((opens _).append (ihq second)).append (ihp first)).append closes

theorem quiet_shown {leaf : Literal → List Char} {openers : List Char} (known : ∀ k, Smt.opener k ∈ openers)
    (leaves : ∀ l ∈ p.literals, Smt.Quiet openers (leaf l)) :
    Smt.Quiet openers (p.shown (fun k => k.word.toList) leaf) := by
  induction p with
  | literal l => exact leaves l (mem_singleton_self l)
  | group p ih | factor p ih | conjunction p ih => exact ih leaves
  | and p q ihp ihq | or p q ihp ihq =>
    obtain ⟨first, second⟩ := forall_mem_append.mp leaves
    exact Smt.Quiet.join (known _) (ihq second) (ihp first)

/-- No part is shorter, so the parts of equal texts have equal lengths and can be cut off. -/
theorem enclosed_inj (head : List Char) {a a' b b' : List Char} {A B : Prop} (lengtha : a'.length ≤ a.length)
    (lengthb : b'.length ≤ b.length) (samea : a = a' ↔ A) (sameb : b = b' ↔ B) :
    (head ++ a' ++ b' ++ [')']).length ≤ (head ++ a ++ b ++ [')']).length ∧
      (head ++ a ++ b ++ [')'] = head ++ a' ++ b' ++ [')'] ↔ B ∧ A) := by
  refine ⟨by simp only [length_append]; omega, ?_⟩
  rw [← samea, ← sameb]
  constructor
  · intro same
    have total := congrArg List.length same
    simp only [length_append] at total
    have cut := append_cancel_right same
    obtain ⟨start, last⟩ := append_inj cut (by simp only [length_append]; omega)
    exact ⟨last, append_cancel_left start⟩
  · rintro ⟨rfl, rfl⟩
    rfl

/-- Trees with longer texts of literals are the same only if all texts are the same. -/
theorem shown_inj {word : Connective → List Char} (longer : ∀ l ∈ p.literals, (leaf' l).length ≤ (leaf l).length) :
    (p.shown word leaf').length ≤ (p.shown word leaf).length ∧
      (p.shown word leaf = p.shown word leaf' ↔ ∀ l ∈ p.literals, leaf l = leaf' l) := by
  induction p with
  | literal l => exact ⟨longer l (mem_singleton_self l), by simp [shown, literals]⟩
  | group p ih | factor p ih | conjunction p ih => exact ih longer
  | and p q ihp ihq | or p q ihp ihq =>
    obtain ⟨first, second⟩ := forall_mem_append.mp longer
    obtain ⟨lengthp, samep⟩ := ihp first
    obtain ⟨lengthq, sameq⟩ := ihq second
    rw [literals, forall_mem_append]
    exact enclosed_inj _ lengthq lengthp sameq samep

end Label.Part

/-! ## One proposition after the other -/

namespace Guard

variable {k : ℕ}

open Label

def mark (i : ℕ) : Char := Char.ofNat ('a'.toNat + i)

def pending (l : Literal) : List Char :=
  if l.negated then ['(', '!', mark l.index, ')'] else [mark l.index]

def replaceNegation (k : ℕ) (sentence : Bool → Smt.Sentence) (leaf : Literal → List Char) (l : Literal) :
    List Char :=
  if l.negated ∧ l.index = k then (sentence true).chars else leaf l

def replace (k : ℕ) (sentence : Bool → Smt.Sentence) (leaf : Literal → List Char) (l : Literal) : List Char :=
  Text.fill (mark k) (sentence false).chars (replaceNegation k sentence leaf l)

def settle : ℕ → List (Bool → Smt.Sentence) → (Literal → List Char) → Literal → List Char
  | _, [], leaf => leaf
  | k, sentence :: sentences, leaf => settle (k + 1) sentences (replace k sentence leaf)

def openers (k : ℕ) : List Char :=
  -- the letter of the first proposition starts the word of conjunctions, but none has been put in before it
  if k = 0 then 'o' :: Smt.arithmetic else 'a' :: 'o' :: Smt.arithmetic

/-- A literal before a proposition is replaced: as at the start or quiet. -/
inductive Stands (k : ℕ) (l : Literal) : List Char → Prop where
  | pending {cs : List Char} (later : k ≤ l.index) (start : cs = pending l) : Stands k l cs
  | quiet {cs : List Char} (earlier : l.index < k) (quiet : Smt.Quiet (openers k) cs) : Stands k l cs

theorem mark_inj {i j : ℕ} (hi : i < 10) (hj : j < 10) (same : mark i = mark j) : i = j := by
  have all : ∀ i j : Fin 10, mark i = mark j → i = j := by decide
  exact congrArg Fin.val (all ⟨i, hi⟩ ⟨j, hj⟩ same)

theorem mark_spec (few : k < 10) :
    mark k ∉ openers k ∧ mark k ∉ 'o' :: Smt.arithmetic ∧
      ∀ c ∈ ['(', ')', '!', '&', '|'], mark k ≠ c := by
  have all : ∀ k : Fin 10, mark k ∉ openers k ∧ mark k ∉ 'o' :: Smt.arithmetic ∧
    ∀ c ∈ ['(', ')', '!', '&', '|'], mark k ≠ c := by decide
  exact all ⟨k, few⟩

theorem mark_not_mem_pending (few : k < 10) {l : Literal} (other : k ≠ l.index) : mark k ∉ pending l := by
  have others := (mark_spec few).2.2
  have differs : mark k ≠ mark l.index := fun equal => other (mark_inj few l.index.isLt equal)
  unfold pending
  split
  · simp [others, differs]
  · simp [differs]

-- what is searched for in the turn of a proposition, up to the letter itself
def patterns (k : ℕ) : List (List Char) := [['(', '!', mark k, ')'], ['!', mark k], ['(', mark k, ')']]

/-- Where a pattern does not start. -/
structure Surrounds (k : ℕ) (pattern : List Char) : Prop where
  other {c : Char} (differs : '(' ≠ c ∧ '!' ≠ c) (rest : List Char) : ¬ pattern <+: c :: rest
  opening {c : Char} (differs : '!' ≠ c ∧ mark k ≠ c) (rest : List Char) : ¬ pattern <+: '(' :: c :: rest
  negation {c : Char} (differs : mark k ≠ c) (rest : List Char) : ¬ pattern <+: '!' :: c :: rest
  negated {c : Char} (differs : mark k ≠ c) (rest : List Char) : ¬ pattern <+: '(' :: '!' :: c :: rest

theorem surrounds (few : k < 10) {pattern : List Char} (listed : pattern ∈ patterns k) : Surrounds k pattern := by
  have bang : mark k ≠ '!' := (mark_spec few).2.2 '!' (by decide)
  simp only [patterns, mem_cons, not_mem_nil, or_false] at listed
  rcases listed with rfl | rfl | rfl
  all_goals
    constructor
    all_goals simp_all [cons_prefix_cons]

namespace Surrounds

variable {k : ℕ} {pattern value : List Char}

theorem rewrites_opening (few : k < 10) (surrounds : Surrounds k pattern) (c : Connective) :
    Text.Rewrites pattern value ('(' :: c.sign.toList) ('(' :: c.sign.toList) := by
  have sign : ∃ d, c.sign.toList = [d] ∧ ('(' ≠ d ∧ '!' ≠ d) ∧ mark k ≠ d := by
    cases c with
    | conjunction => exact ⟨'&', rfl, by decide, (mark_spec few).2.2 '&' (by decide)⟩
    | disjunction => exact ⟨'|', rfl, by decide, (mark_spec few).2.2 '|' (by decide)⟩
  obtain ⟨d, spelled, plain, differs⟩ := sign
  intro rest
  simp only [spelled, cons_append, nil_append]
  rw [replaceFrom_cons value (surrounds.opening ⟨plain.2, differs⟩ rest),
    replaceFrom_cons value (surrounds.other plain rest)]

theorem rewrites_closing (surrounds : Surrounds k pattern) : Text.Rewrites pattern value [')'] [')'] :=
  .keep (surrounds.other (by decide))

theorem rewrites_quiet (surrounds : Surrounds k pattern) {openers cs : List Char}
    (plain : '!' ∉ openers ∧ mark k ∉ openers) (quiet : Smt.Quiet openers cs) :
    Text.Rewrites pattern value cs cs := by
  refine quiet.rewrites (fun c outside => surrounds.other ?_) (fun c known => surrounds.opening ?_) value
  · constructor
    · rintro rfl
      exact outside (by decide)
    · rintro rfl
      exact outside (by decide)
  · constructor
    · rintro rfl
      exact plain.1 known
    · rintro rfl
      exact plain.2 known

theorem rewrites_pending (surrounds : Surrounds k pattern) {l : Literal}
    (differs : l.negated → mark k ≠ mark l.index) : Text.Rewrites pattern value (pending l) (pending l) := by
  have marks := (mark_spec l.index.isLt).2.2
  have letter : '(' ≠ mark l.index ∧ '!' ≠ mark l.index := ⟨(marks '(' (by decide)).symm, (marks '!' (by decide)).symm⟩
  unfold pending
  split
  · rename_i negated
    have other := differs negated
    intro rest
    -- the pattern would have to go on with its own letter
    simp only [cons_append, nil_append]
    rw [replaceFrom_cons value (surrounds.negated other _),
      replaceFrom_cons value (surrounds.negation other _),
      replaceFrom_cons value (surrounds.other letter _),
      replaceFrom_cons value (surrounds.other (by decide) _)]
  · exact .keep (surrounds.other letter)

end Surrounds

/-! ### The step -/

section

variable {k : ℕ} {sentence : Bool → Smt.Sentence} {space : String} {is : List Inequality}

theorem openers_spec (k : ℕ) : '!' ∉ openers k ∧ openers k ⊆ openers (k + 1) := by
  cases k with
  | zero => exact ⟨by decide, by decide⟩
  | succ k => exact ⟨(by decide : '!' ∉ openers 1), fun _ mem => mem⟩

theorem Stands.eq_pending {l : Literal} {cs : List Char} (stands : Stands k l cs) (later : k ≤ l.index) :
    cs = Guard.pending l := by
  cases stands with
  | pending _ start => exact start
  | quiet earlier => omega

variable {leaf : Literal → List Char}

theorem Stands.rewrites_negation (few : k < 10) (reads : Reads space is sentence) {l : Literal}
    (stands : Stands k l (leaf l)) {pattern : List Char} (listed : pattern ∈ patterns k) (value : List Char) :
    Text.Rewrites pattern value (replaceNegation k sentence leaf l) (replaceNegation k sentence leaf l) := by
  obtain ⟨outside, outside', _⟩ := mark_spec few
  have surrounds := surrounds few listed
  unfold replaceNegation
  split
  · exact surrounds.rewrites_quiet ⟨by decide, outside'⟩ reads.negative.quiet
  · rename_i other
    cases stands with
    | pending _ start =>
      -- a negation that is still there is that of another proposition
      rw [start]
      refine surrounds.rewrites_pending fun negated same => other ⟨negated, ?_⟩
      exact (mark_inj few l.index.isLt same).symm
    | quiet _ quiet => exact surrounds.rewrites_quiet ⟨(openers_spec k).1, outside⟩ quiet

theorem Stands.rewrites (few : k < 10) (reads : Reads space is sentence) {l : Literal} (stands : Stands k l (leaf l)) :
    Text.Rewrites ['(', '!', mark k, ')'] (sentence true).chars (leaf l) (replaceNegation k sentence leaf l) := by
  by_cases replaced : l.negated ∧ l.index = k
  · have letter : leaf l = ['(', '!', mark k, ')'] := by
      rw [stands.eq_pending replaced.2.ge, Guard.pending, if_pos replaced.1, replaced.2]
    rw [letter, replaceNegation, if_pos replaced]
    exact .self (cons_ne_nil _ _)
  · have kept := stands.rewrites_negation few reads (mem_cons_self (l := [['!', mark k], ['(', mark k, ')']]))
      (sentence true).chars
    rw [replaceNegation, if_neg replaced] at kept ⊢
    exact kept

theorem Stands.replace (few : k < 10) (reads : Reads space is sentence) {l : Literal} (stands : Stands k l (leaf l)) :
    Stands (k + 1) l (replace k sentence leaf l) := by
  obtain ⟨outside, outside', others⟩ := mark_spec few
  have parenthesis := others '(' (by decide)
  have positive : Smt.Quiet (openers (k + 1)) (sentence false).chars := reads.positive.quiet.mono (by simp [openers])
  unfold Guard.replace replaceNegation
  split
  · rename_i replaced
    exact .quiet (by omega) (reads.negative.quiet.fill (by simp [openers]) positive outside' parenthesis)
  · rename_i other
    cases stands with
    | quiet earlier quiet =>
      exact .quiet (by omega) (quiet.fill (openers_spec k).2 positive outside parenthesis)
    | pending later start =>
      rw [start]
      -- a literal without negation gets its text by the letter alone
      by_cases same : l.index = k
      · have letter : Guard.pending l = [mark k] := by
          rw [Guard.pending, if_neg fun negated => other ⟨negated, same⟩, same]
        rw [letter]
        refine .quiet (by omega) ?_
        simpa [Text.fill] using positive
      · rw [fill_of_not_mem (mark_not_mem_pending few (Ne.symm same))]
        exact .pending (by omega) rfl

theorem replaceFrom_shown (few : k < 10) (reads : Reads space is sentence) {r : Label.Rank} {p : Part r}
    (stands : ∀ l ∈ p.literals, Stands k l (leaf l)) :
    replaceFrom [mark k] (sentence false).chars 0
      (replaceFrom ['(', mark k, ')'] (sentence false).chars 0
        (replaceFrom ['!', mark k] (sentence true).chars 0
          (replaceFrom ['(', '!', mark k, ')'] (sentence true).chars 0
            (p.shown (fun c => c.sign.toList) leaf)))) =
      p.shown (fun c => c.sign.toList) (replace k sentence leaf) := by
  have tree {pattern value : List Char} (listed : pattern ∈ patterns k) {leaf leaf' : Literal → List Char}
      (leaves : ∀ l ∈ p.literals, Text.Rewrites pattern value (leaf l) (leaf' l)) :
      replaceFrom pattern value 0 (p.shown (fun c => c.sign.toList) leaf) =
        p.shown (fun c => c.sign.toList) leaf' :=
    (Part.rewrites_shown ((surrounds few listed).rewrites_opening few) (surrounds few listed).rewrites_closing
      leaves).result
  have kept {pattern : List Char} (listed : pattern ∈ patterns k) (value : List Char) :
      ∀ l ∈ p.literals, Text.Rewrites pattern value (replaceNegation k sentence leaf l)
        (replaceNegation k sentence leaf l) :=
    fun l mem => (stands l mem).rewrites_negation few reads listed value
  have others := (mark_spec few).2.2
  have opens (c : Connective) : mark k ∉ '(' :: c.sign.toList := by
    cases c <;> simp [Connective.sign, others]
  -- the first search finds the negation, the next two find nothing, and the letter is found everywhere
  rw [tree (by simp [patterns]) fun l mem => (stands l mem).rewrites few reads,
    tree (by simp [patterns]) (kept (by simp [patterns]) _),
    tree (by simp [patterns]) (kept (by simp [patterns]) _)]
  exact (Part.rewrites_shown (fun c => .of_not_mem (opens c) _) (.of_not_mem (by simp [others]) _)
    fun l _ => .fill _ _ _).result

end

/-! ### The run -/

def entries : ℕ → List (Bool → Smt.Sentence) → Text.Table
  | _, [] => []
  | k, sentence :: sentences =>
    ("!" ++ toString k, (sentence true).text) :: (toString k, (sentence false).text) :: entries (k + 1) sentences

-- the replacements for one entry, in the order in which they are made
def enter (s : String) (entry : String × String) : String :=
  replaceAll (letters entry.1) entry.2 (replaceAll ("(" ++ letters entry.1 ++ ")") entry.2 s)

theorem toList_enter {key : String} (nonempty : (letters key).toList ≠ []) (value s : String) :
    (enter s (key, value)).toList = replaceFrom (letters key).toList value.toList 0
      (replaceFrom ('(' :: (letters key).toList ++ [')']) value.toList 0 s.toList) := by
  have wrapped : ("(" ++ letters key ++ ")").toList = '(' :: (letters key).toList ++ [')'] := by simp
  rw [enter, replaceAll_of_nonempty nonempty, replaceAll_of_nonempty (by simp [wrapped])]
  simp [wrapped]

theorem letters_spec (few : k < 10) :
    (letters (toString k)).toList = [mark k] ∧ (letters ("!" ++ toString k)).toList = ['!', mark k] := by
  have all : ∀ k : Fin 10, (letters (toString k.val)).toList = [mark k] ∧
      (letters ("!" ++ toString k.val)).toList = ['!', mark k] := by decide +kernel
  exact all ⟨k, few⟩

theorem foldl_entries {r : Label.Rank} {p : Part r} {sentences : List (Bool → Smt.Sentence)}
    (reads : ∀ sentence ∈ sentences, ∃ space is, Reads space is sentence)
    (few : k + sentences.length ≤ 10) {leaf : Literal → List Char}
    (stands : ∀ l ∈ p.literals, Stands k l (leaf l)) {s : String}
    (chars : s.toList = p.shown (fun c => c.sign.toList) leaf) :
    ((entries k sentences).foldl enter s).toList = p.shown (fun c => c.sign.toList) (settle k sentences leaf) ∧
      ∀ l ∈ p.literals, Stands (k + sentences.length) l (settle k sentences leaf l) := by
  induction sentences generalizing k leaf s with
  | nil => exact ⟨chars, stands⟩
  | cons sentence sentences ih =>
    obtain ⟨⟨space, is, first⟩, others⟩ := forall_mem_cons.mp reads
    rw [length_cons] at few ⊢
    have below : k < 10 := by omega
    obtain ⟨letter, negated⟩ := letters_spec below
    have step : (enter (enter s ("!" ++ toString k, (sentence true).text))
        (toString k, (sentence false).text)).toList =
          p.shown (fun c => c.sign.toList) (replace k sentence leaf) := by
      rw [toList_enter (letter ▸ cons_ne_nil _ _), toList_enter (negated ▸ cons_ne_nil _ _), letter,
        negated, chars]
      simp only [Smt.Sentence.text, String.toList_ofList]
      exact replaceFrom_shown below first stands
    have stands' : ∀ l ∈ p.literals, Stands (k + 1) l (replace k sentence leaf l) :=
      fun l mem => (stands l mem).replace below first
    have rest := ih others (by omega) stands' step
    rw [entries, foldl_cons, foldl_cons, settle,
      show k + (sentences.length + 1) = k + 1 + sentences.length by omega]
    exact rest

end Guard

end Supermartingale
