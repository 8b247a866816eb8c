import Supermartingale.Guard
import Supermartingale.Proofs.Smt.Term

/-!
# Sentences of the solver's language

A sentence compares two terms or joins two sentences. If numbers and names are atoms, its text is quiet: it has no
operators of labels, and every parenthesis is followed by an operator of the solver.
-/

namespace Supermartingale

open List

def Connective.Holds {α : Type} (k : Connective) (xs : List α) (P : α → Prop) : Prop :=
  match k with
  | .conjunction => ∀ x ∈ xs, P x
  | .disjunction => ∃ x ∈ xs, P x

namespace Smt

/-! ## Terms -/

def marks : List Char := ['(', ')', ' ', '!', '&', '|']

structure IsAtom (cs : List Char) : Prop where
  nonempty : cs ≠ []
  unmarked : ∀ c ∈ cs, c ∉ marks

namespace Term

def value (ρ : String → ℝ) : Term → ℝ
  | number c => c.written
  | var name => ρ name
  | mul a b => a.value ρ * b.value ρ
  | add a b => a.value ρ + b.value ρ

def IsPlain : Term → Prop
  | number c => IsAtom c.text.toList
  | var name => IsAtom name.toList
  | mul a b => a.IsPlain ∧ b.IsPlain
  | add a b => a.IsPlain ∧ b.IsPlain

end Term

/-! ## Sentences -/

/-- What the solver is told about terms. -/
inductive Sentence where
  | atLeast (l r : Term)
  -- spaces are written with blanks, trees of labels without: the parentheses are enough
  | join (k : Connective) (gap : List Char) (l r : Sentence)

namespace Sentence

def chars : Sentence → List Char
  | atLeast l r => ['(', '>', '=', ' '] ++ l.render.toList ++ ' ' :: (r.render.toList ++ [')'])
  | join k gap l r => '(' :: k.word.toList ++ (gap ++ l.chars) ++ (gap ++ r.chars) ++ [')']

def text (t : Sentence) : String := String.ofList t.chars

theorem two_le_length_chars (t : Sentence) : 2 ≤ t.chars.length := by
  cases t with
  | atLeast l r => simp [chars]
  | join k gap l r =>
    simp only [chars, length_append, length_cons]
    omega

/-- A sentence whose text is well formed. -/
def IsPlain : Sentence → Prop
  | atLeast l r => l.IsPlain ∧ r.IsPlain
  | join _ gap l r => (∀ c ∈ gap, c = ' ') ∧ l.IsPlain ∧ r.IsPlain

/-- The truth of a sentence where names have values. -/
def Holds (ρ : String → ℝ) : Sentence → Prop
  | atLeast l r => r.value ρ ≤ l.value ρ
  | join .conjunction _ l r => l.Holds ρ ∧ r.Holds ρ
  | join .disjunction _ l r => l.Holds ρ ∨ r.Holds ρ

end Sentence

/-! ## Quiet texts -/

def operators : List Char := ['(', '!', '&', '|']

/-- Texts without operators of labels, in which every parenthesis is followed by one of some characters. -/
inductive Quiet (openers : List Char) : List Char → Prop where
  | nil : Quiet openers []
  | char {c : Char} {cs : List Char} (plain : c ∉ operators) (rest : Quiet openers cs) : Quiet openers (c :: cs)
  -- no pattern with a parenthesis can start here, as long as it goes on with another character
  | opening {c : Char} {cs : List Char} (known : c ∈ openers) (plain : c ∉ operators)
      (rest : Quiet openers cs) : Quiet openers ('(' :: c :: cs)

-- first characters of operators and of the words of connectives
def arithmetic : List Char := ['*', '+', '>']

def opener : Connective → Char
  | .conjunction => 'a'
  | .disjunction => 'o'

section

variable {openers cs ds : List Char}

theorem Quiet.append (first : Quiet openers cs) (second : Quiet openers ds) : Quiet openers (cs ++ ds) := by
  induction first with
  | nil => exact second
  | char plain _ ih => exact .char plain ih
  | opening known plain _ ih => exact .opening known plain ih

theorem Quiet.of_plain (plain : ∀ c ∈ cs, c ∉ operators) : Quiet openers cs := by
  induction cs with
  | nil => exact .nil
  | cons c cs ih =>
    obtain ⟨first, others⟩ := forall_mem_cons.mp plain
    exact .char first (ih others)

theorem Quiet.mono {openers' : List Char} (subset : openers ⊆ openers') (quiet : Quiet openers cs) :
    Quiet openers' cs := by
  induction quiet with
  | nil => exact .nil
  | char plain _ ih => exact .char plain ih
  | opening known plain _ ih => exact .opening (subset known) plain ih

theorem IsAtom.quiet (atom : IsAtom cs) : Quiet openers cs :=
  .of_plain fun c mem inside => atom.unmarked c mem ((by decide : operators ⊆ marks) inside)

theorem Quiet.enclose {c : Char} {word : List Char} (known : c ∈ openers)
    (plain : ∀ d ∈ c :: word, d ∉ operators) (first : Quiet openers cs) (second : Quiet openers ds) :
    Quiet openers ('(' :: c :: (word ++ (cs ++ (ds ++ [')'])))) := by
  obtain ⟨opens, others⟩ := forall_mem_cons.mp plain
  exact .opening known opens
    ((Quiet.of_plain others).append (first.append (second.append (.char (by decide) .nil))))

theorem Quiet.blank : Quiet openers [' '] := .char (by decide) .nil

theorem Term.IsPlain.quiet (subset : arithmetic ⊆ openers) {t : Term} (plain : t.IsPlain) :
    Quiet openers t.render.toList := by
  induction t with
  | number c => exact IsAtom.quiet plain
  | var name => exact IsAtom.quiet plain
  | mul a b iha ihb =>
    have text := Quiet.enclose (subset (by decide : '*' ∈ arithmetic))
      (by decide : ∀ d ∈ ['*', ' '], d ∉ operators) ((iha plain.1).append .blank) (ihb plain.2)
    simpa [render] using text
  | add a b iha ihb =>
    have text := Quiet.enclose (subset (by decide : '+' ∈ arithmetic))
      (by decide : ∀ d ∈ ['+', ' '], d ∉ operators) ((iha plain.1).append .blank) (ihb plain.2)
    simpa [render] using text

theorem Sentence.quiet_atLeast {l r : Term} (first : l.IsPlain) (second : r.IsPlain)
    (subset : arithmetic ⊆ openers) : Quiet openers (atLeast l r).chars := by
  have text := Quiet.enclose (subset (by decide : '>' ∈ arithmetic))
    (by decide : ∀ d ∈ ['>', '=', ' '], d ∉ operators) ((first.quiet subset).append .blank)
    (second.quiet subset)
  simpa [chars] using text

theorem Quiet.join {k : Connective} (known : opener k ∈ openers) (first : Quiet openers cs)
    (second : Quiet openers ds) : Quiet openers ('(' :: k.word.toList ++ cs ++ ds ++ [')']) := by
  have word : ∃ rest, k.word.toList = opener k :: rest ∧ ∀ d ∈ opener k :: rest, d ∉ operators := by
    cases k with
    | conjunction => exact ⟨['n', 'd'], rfl, by decide⟩
    | disjunction => exact ⟨['r'], rfl, by decide⟩
  obtain ⟨rest, spelled, plain⟩ := word
  rw [spelled]
  simpa using Quiet.enclose known plain first second

end

/-- A well-formed sentence with a meaning. -/
structure Means (openers : List Char) (t : Sentence) (meaning : (String → ℝ) → Prop) : Prop where
  plain : t.IsPlain
  quiet : Quiet openers t.chars
  holds : ∀ ρ, t.Holds ρ ↔ meaning ρ

theorem Sentence.text_join (k : Connective) (s t : Sentence) :
    "(" ++ k.word ++ " " ++ s.text ++ " " ++ t.text ++ ")" = (join k [' '] s t).text := by
  rw [← String.toList_inj]
  simp [text, chars]

theorem Means.join {k : Connective} {s t : Sentence} {p q : (String → ℝ) → Prop}
    (first : Means (opener k :: arithmetic) s p) (second : Means (opener k :: arithmetic) t q) :
    Means (opener k :: arithmetic) (.join k [' '] s t) fun ρ => k.Holds [p, q] fun r => r ρ where
  plain := ⟨by simp, first.plain, second.plain⟩
  quiet := Quiet.join mem_cons_self (Quiet.blank.append first.quiet) (Quiet.blank.append second.quiet)
  holds ρ := by cases k <;> simp [Connective.Holds, Sentence.Holds, first.holds, second.holds]

end Smt

end Supermartingale
