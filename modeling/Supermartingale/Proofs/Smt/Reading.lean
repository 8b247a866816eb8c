import Supermartingale.Proofs.Guard.Literal

/-!
# Reading the solver's language

A text is read from the left into expressions: atoms between blanks and parentheses, and lists in parentheses.
Every text with balanced parentheses can be read, and what a part of a text is read as does not depend on
where it stands.
-/

namespace Supermartingale

open List

/-! ## Characters of terms -/

namespace Smt.Term

def frame : List Char := ['(', ')', ' ', '*', '+']

theorem mem_render {chars : List Char} {t : Term}
    (spanned : t.Over (fun c => ∀ x ∈ c.text.toList, x ∈ chars) fun name => ∀ x ∈ name.toList, x ∈ chars) :
    ∀ x ∈ t.render.toList, x ∈ frame ++ chars := by
  have framed {cs : List Char} (subset : cs ⊆ frame) : ∀ x ∈ cs, x ∈ frame ++ chars :=
    fun x mem => mem_append_left chars (subset mem)
  induction t with
  | number c | var name => exact fun x mem => mem_append_right frame (spanned x mem)
  | mul a b iha ihb | add a b iha ihb =>
    simp only [render, String.toList_append, forall_mem_append]
    exact ⟨⟨⟨⟨framed (by decide), iha spanned.1⟩, framed (by decide)⟩, ihb spanned.2⟩, framed (by decide)⟩

end Smt.Term

namespace Smt

inductive Sexp where
  | atom (s : String)
  | list (xs : List Sexp)

namespace Sexp

variable {cs : List Char} {xs ys : List Sexp} {s : String}

/-! ## Reading -/

def flush (word : List Char) (done : List Sexp) : List Sexp :=
  if word = [] then done else atom (String.ofList word.reverse) :: done

/-- Reads a text, given the atom that has been started, the expressions since the last open parenthesis, and
those before the open parentheses, all backwards. -/
def readFrom (word : List Char) (done : List Sexp) (stack : List (List Sexp)) :
    List Char → Option (List Sexp)
  | [] => if stack = [] then some (flush word done).reverse else none
  | c :: cs =>
    if c = '(' then readFrom [] [] (flush word done :: stack) cs
    else if c = ')' then
      match stack with
      | [] => none
      | outer :: stack => readFrom [] (list (flush word done).reverse :: outer) stack cs
    else if c = ' ' then readFrom [] (flush word done) stack cs
    else readFrom (c :: word) done stack cs

def read (s : String) : Option (List Sexp) := readFrom [] [] [] s.toList

def Delimits (rest : List Char) : Prop := ∀ c ∈ rest.head?, c ∈ ['(', ')', ' ']

/-- A part of a text is read as these expressions, wherever it stands. -/
def Reads (cs : List Char) (xs : List Sexp) : Prop :=
  ∀ done stack rest, Delimits rest → readFrom [] done stack (cs ++ rest) = readFrom [] (xs.reverse ++ done) stack rest

section

variable (word : List Char) (done : List Sexp) (stack : List (List Sexp)) (cs : List Char)

theorem readFrom_open : readFrom word done stack ('(' :: cs) = readFrom [] [] (flush word done :: stack) cs := by
  simp [readFrom]

theorem readFrom_close (outer : List Sexp) : readFrom word done (outer :: stack) (')' :: cs) =
    readFrom [] (list (flush word done).reverse :: outer) stack cs := by
  simp [readFrom]

theorem readFrom_blank : readFrom word done stack (' ' :: cs) = readFrom [] (flush word done) stack cs := by
  simp [readFrom]

theorem readFrom_char {c : Char} (plain : c ∉ ['(', ')', ' ']) :
    readFrom word done stack (c :: cs) = readFrom (c :: word) done stack cs := by
  simp only [mem_cons, not_mem_nil, or_false, not_or] at plain
  simp [readFrom, plain]

theorem readFrom_flush {rest : List Char} (delimits : Delimits rest) :
    readFrom word done stack rest = readFrom [] (flush word done) stack rest := by
  cases rest with
  | nil => simp [readFrom, flush]
  | cons c rest =>
    have known : c = '(' ∨ c = ')' ∨ c = ' ' := by simpa [Delimits] using delimits
    rcases known with rfl | rfl | rfl
    · rw [readFrom_open, readFrom_open]
      rfl
    · simp [readFrom, flush]
    · rw [readFrom_blank, readFrom_blank]
      rfl

end

theorem Reads.read_eq {xs : List Sexp} (reads : Reads s.toList xs) : read s = some xs := by
  have whole := reads [] [] [] (by simp [Delimits])
  rw [append_nil, append_nil] at whole
  rw [read, whole]
  simp [readFrom, flush]

theorem reads_nil : Reads [] [] := fun _ _ _ _ => rfl

theorem reads_atom (nonempty : cs ≠ []) (plain : ∀ c ∈ cs, c ∉ ['(', ')', ' ']) :
    Reads cs [atom (String.ofList cs)] := by
  intro done stack rest delimits
  have collects (word : List Char) :
      readFrom word done stack (cs ++ rest) = readFrom (cs.reverse ++ word) done stack rest := by
    clear nonempty
    induction cs generalizing word with
    | nil => rfl
    | cons c cs ih =>
      obtain ⟨first, others⟩ := forall_mem_cons.mp plain
      rw [cons_append, readFrom_char _ _ _ _ first, ih others]
      simp
  rw [collects, readFrom_flush _ _ _ delimits, append_nil, flush, if_neg (by simpa using nonempty)]
  simp

theorem Reads.list {xs : List Sexp} (reads : Reads cs xs) : Reads ('(' :: (cs ++ [')'])) [.list xs] := by
  intro done stack rest _
  have inner := reads [] (done :: stack) (')' :: rest) (by simp [Delimits])
  have opens : '(' :: (cs ++ [')']) ++ rest = '(' :: (cs ++ ')' :: rest) := by simp
  rw [opens, readFrom_open, flush, if_pos rfl, inner, readFrom_close, flush, if_pos rfl]
  simp

theorem Reads.blank {cs ds : List Char} (first : Reads cs xs) (second : Reads ds ys) :
    Reads (cs ++ ' ' :: ds) (xs ++ ys) := by
  intro done stack rest delimits
  have before := first done stack (' ' :: (ds ++ rest)) (by simp [Delimits])
  rw [append_assoc, cons_append, before, readFrom_blank, flush, if_pos rfl, second _ _ _ delimits]
  simp

def IsWord (s : String) : Prop := s.toList ≠ [] ∧ ∀ c ∈ s.toList, c ∉ ['(', ')', ' ']

instance (s : String) : Decidable (IsWord s) :=
  inferInstanceAs (Decidable (s.toList ≠ [] ∧ ∀ c ∈ s.toList, c ∉ ['(', ')', ' ']))

theorem IsWord.reads (word : IsWord s) : Reads s.toList [atom s] := by
  have reads := reads_atom word.1 word.2
  rwa [String.ofList_toList] at reads

theorem Reads.binary {op a b : String} (word : IsWord op) (first : Reads a.toList xs) (second : Reads b.toList ys) :
    Reads ("(" ++ op ++ " " ++ a ++ " " ++ b ++ ")").toList [.list (atom op :: (xs ++ ys))] := by
  have text : ("(" ++ op ++ " " ++ a ++ " " ++ b ++ ")").toList =
      '(' :: (op.toList ++ ' ' :: (a.toList ++ ' ' :: b.toList) ++ [')']) := by
    simp
  rw [text]
  exact (word.reads.blank (first.blank second)).list

/-! ## Parentheses -/

/-- How many parentheses are open after a character, if it closes none that is not open. -/
def turn (d : ℕ) (c : Char) : Option ℕ :=
  if c = '(' then some (d + 1) else if c = ')' then (if d = 0 then none else some (d - 1)) else some d

def depth : ℕ → List Char → Option ℕ
  | d, [] => some d
  | d, c :: cs => (turn d c).bind fun d => depth d cs

def Balanced (cs : List Char) : Prop := depth 0 cs = some 0

/-- Texts in which every parenthesis has its counterpart. -/
inductive Nested : List Char → Prop where
  | nil : Nested []
  | char {c : Char} {cs : List Char} (plain : c ≠ '(' ∧ c ≠ ')') (rest : Nested cs) : Nested (c :: cs)
  | group {cs ds : List Char} (inner : Nested cs) (rest : Nested ds) : Nested ('(' :: (cs ++ ')' :: ds))

/-- Texts that close some open parentheses and are nested otherwise. -/
def Closing : ℕ → List Char → Prop
  | 0, cs => Nested cs
  | d + 1, cs => ∃ inner rest, cs = inner ++ ')' :: rest ∧ Nested inner ∧ Closing d rest

theorem closing_of_depth {d : ℕ} (closed : depth d cs = some 0) : Closing d cs := by
  induction cs generalizing d with
  | nil =>
    cases closed
    exact .nil
  | cons c cs ih =>
    by_cases opens : c = '('
    · -- the group that starts here is put in front of what is closed first
      subst opens
      have later : depth (d + 1) cs = some 0 := by simpa [depth, turn] using closed
      obtain ⟨inner, rest, rfl, nested, later⟩ := ih later
      cases d with
      | zero => exact .group nested later
      | succ d =>
        obtain ⟨inner', rest', rfl, nested', last⟩ := later
        exact ⟨'(' :: (inner ++ ')' :: inner'), rest', by simp, .group nested nested', last⟩
    · by_cases closes : c = ')'
      · subst closes
        cases d with
        | zero => simp [depth, turn] at closed
        | succ d => exact ⟨[], cs, rfl, .nil, ih (by simpa [depth, turn] using closed)⟩
      · have rest := ih (d := d) (by simpa [depth, turn, opens, closes] using closed)
        cases d with
        | zero => exact .char ⟨opens, closes⟩ rest
        | succ d =>
          obtain ⟨inner, rest', rfl, nested, last⟩ := rest
          exact ⟨c :: inner, rest', by simp, .char ⟨opens, closes⟩ nested, last⟩

theorem Nested.exists_reads (nested : Nested cs) (word : List Char) :
    ∃ xs, ∀ done stack rest, Delimits rest →
      readFrom word done stack (cs ++ rest) = readFrom [] (xs ++ done) stack rest := by
  induction nested generalizing word with
  | nil =>
    refine ⟨flush word [], fun done stack rest delimits => ?_⟩
    rw [nil_append, readFrom_flush _ _ _ delimits]
    by_cases empty : word = []
    · simp [flush, empty]
    · simp [flush, empty]
  | @char c cs plain _ ih =>
    by_cases blank : c = ' '
    · subst blank
      obtain ⟨xs, reads⟩ := ih []
      refine ⟨xs ++ flush word [], fun done stack rest delimits => ?_⟩
      rw [cons_append, readFrom_blank, reads _ _ _ delimits]
      by_cases empty : word = []
      · simp [flush, empty]
      · simp [flush, empty]
    · obtain ⟨xs, reads⟩ := ih (c :: word)
      refine ⟨xs, fun done stack rest delimits => ?_⟩
      rw [cons_append, readFrom_char _ _ _ _ (by simp [plain, blank]), reads _ _ _ delimits]
  | @group cs ds _ _ ihi ihr =>
    obtain ⟨xs, inner⟩ := ihi []
    obtain ⟨ys, outer⟩ := ihr []
    refine ⟨ys ++ .list xs.reverse :: flush word [], fun done stack rest delimits => ?_⟩
    have shape : '(' :: (cs ++ ')' :: ds) ++ rest = '(' :: (cs ++ ')' :: (ds ++ rest)) := by simp
    rw [shape, readFrom_open, inner _ _ _ (by simp [Delimits]), readFrom_close, outer _ _ _ delimits]
    by_cases empty : word = []
    · simp [flush, empty]
    · simp [flush, empty]

theorem Balanced.exists_reads (balanced : Balanced cs) : ∃ xs, Reads cs xs := by
  obtain ⟨xs, reads⟩ := (closing_of_depth balanced : Nested cs).exists_reads []
  exact ⟨xs.reverse, fun done stack rest delimits => by rw [reverse_reverse, reads _ _ _ delimits]⟩

/-! ## Meaning -/

/-- The value of a term. Its atoms are read as the names and numbers of polynomials are. -/
noncomputable def value (ρ : String → ℝ) : Sexp → ℝ
  | atom s => (Expression.read s).elim 0 fun e => e.eval ρ
  | list [atom "+", a, b] => a.value ρ + b.value ρ
  | list [atom "*", a, b] => a.value ρ * b.value ρ
  | list _ => 0

def bound (declarations : List Sexp) : List String :=
  declarations.filterMap fun d => match d with
    | list [atom v, atom "Real"] => some v
    | _ => none

def relation? (op : String) : Option Relation := Relation.all.find? fun r => r.sign == op

mutual

/-- The truth of a sentence where names have values. What is no sentence has a truth of its own. -/
def Holds (other : Sexp → (String → ℝ) → Prop) (ρ : String → ℝ) : Sexp → Prop
  | list [atom "assert", s] => s.Holds other ρ
  | list [atom "forall", list declarations, s] =>
    ∀ σ : String → ℝ, (∀ v ∉ bound declarations, σ v = ρ v) → s.Holds other σ
  | list [atom "=>", l, r] => l.Holds other ρ → r.Holds other ρ
  | list (atom "and" :: xs) => AllHold other ρ xs
  | list (atom "or" :: xs) => AnyHolds other ρ xs
  | list [atom op, a, b] =>
    match relation? op with
    | some r => r.Compares (a.value ρ) (b.value ρ)
    | none => other (list [atom op, a, b]) ρ
  | s => other s ρ

def AllHold (other : Sexp → (String → ℝ) → Prop) (ρ : String → ℝ) : List Sexp → Prop
  | [] => True
  | x :: xs => x.Holds other ρ ∧ AllHold other ρ xs

def AnyHolds (other : Sexp → (String → ℝ) → Prop) (ρ : String → ℝ) : List Sexp → Prop
  | [] => False
  | x :: xs => x.Holds other ρ ∨ AnyHolds other ρ xs

end

mutual

def leaves : Sexp → List Sexp
  | list [atom "assert", s] => s.leaves
  | list [atom "forall", _, s] => s.leaves
  | list [atom "=>", l, r] => l.leaves ++ r.leaves
  | list (atom "and" :: xs) => leavesOf xs
  | list (atom "or" :: xs) => leavesOf xs
  | s => [s]

def leavesOf : List Sexp → List Sexp
  | [] => []
  | x :: xs => x.leaves ++ leavesOf xs

end

def joined (k : Connective) (xs : List Sexp) : Sexp := list (atom k.word :: xs)

def compared (r : Relation) (a b : Sexp) : Sexp := list [atom r.sign, a, b]

section

variable (other : Sexp → (String → ℝ) → Prop) (ρ : String → ℝ)

theorem allHold_iff (xs : List Sexp) : AllHold other ρ xs ↔ ∀ x ∈ xs, x.Holds other ρ := by
  induction xs with
  | nil => simp [AllHold]
  | cons x xs ih => simp [AllHold, ih]

theorem anyHolds_iff (xs : List Sexp) : AnyHolds other ρ xs ↔ ∃ x ∈ xs, x.Holds other ρ := by
  induction xs with
  | nil => simp [AnyHolds]
  | cons x xs ih => simp [AnyHolds, ih]

theorem holds_joined (k : Connective) (xs : List Sexp) :
    (joined k xs).Holds other ρ ↔ k.Holds xs fun x => x.Holds other ρ := by
  cases k with
  | conjunction =>
    rw [joined, Connective.word, Holds, allHold_iff]
    exact Iff.rfl
  | disjunction =>
    rw [joined, Connective.word, Holds, anyHolds_iff]
    exact Iff.rfl

theorem holds_compared (r : Relation) (a b : Sexp) :
    (compared r a b).Holds other ρ ↔ r.Compares (a.value ρ) (b.value ρ) := by
  cases r <;> simp [compared, Relation.sign, Holds, relation?, Relation.all]

theorem leavesOf_eq (xs : List Sexp) : leavesOf xs = xs.flatMap leaves := by
  induction xs with
  | nil => rfl
  | cons x xs ih => simp [leavesOf, ih]

theorem leaves_joined (k : Connective) (xs : List Sexp) : (joined k xs).leaves = xs.flatMap leaves := by
  cases k with
  | conjunction | disjunction => rw [joined, Connective.word, leaves, leavesOf_eq]

end

theorem value_number {c : Scalar} (numeral : c.isNumeral) (ρ : String → ℝ) :
    (atom c.text).value ρ = c.written := by
  obtain ⟨p, chars, closed, number, _⟩ := Scalar.exists_phrase numeral
  have text : (Phrase.plain p).text = c.text := by
    rw [Phrase.text, Phrase.chars, chars, String.ofList_toList]
  have read := (Phrase.plain p).read_text
  rw [text] at read
  rw [value, read, Option.elim_some, (Phrase.plain p).eval_of_closed closed]
  exact congrArg _ number

theorem value_name (unknown : IsUnknown s) (ρ : String → ℝ) : (atom s).value ρ = ρ s := by
  let p : Phrase .sum := .plain (.single (.unsigned (.lone (.name s unknown))))
  have text : p.text = s := String.ofList_toList
  have read := p.read_text
  rw [text] at read
  rw [value, read]
  rfl

end Sexp

open Sexp

theorem Sexp.IsWord.of_isAtom {s : String} (isAtom : IsAtom s.toList) : IsWord s :=
  ⟨isAtom.nonempty, fun c mem inside => isAtom.unmarked c mem ((by decide : ['(', ')', ' '] ⊆ marks) inside)⟩

namespace Term

def sexp : Term → Sexp
  | number c => .atom c.text
  | var name => .atom name
  | mul a b => .list [.atom "*", a.sexp, b.sexp]
  | add a b => .list [.atom "+", a.sexp, b.sexp]

theorem reads_sexp {t : Term} (words : t.Over (fun c => IsWord c.text) IsWord) : Reads t.render.toList [t.sexp] := by
  induction t with
  | number c => exact IsWord.reads words
  | var name => exact IsWord.reads words
  | mul a b iha ihb =>
    have reads := Reads.binary (by decide : IsWord "*") (iha words.1) (ihb words.2)
    exact reads
  | add a b iha ihb =>
    have reads := Reads.binary (by decide : IsWord "+") (iha words.1) (ihb words.2)
    exact reads

theorem value_sexp {t : Term} (leaves : t.Over (fun c => c.isNumeral) IsUnknown) (ρ : String → ℝ) :
    t.sexp.value ρ = t.value ρ := by
  induction t with
  | number c => exact value_number leaves ρ
  | var name => exact value_name leaves ρ
  | mul a b iha ihb | add a b iha ihb => rw [sexp, Sexp.value, iha leaves.1, ihb leaves.2, value]

end Term

end Smt

/-- An inequality between written polynomials is read as a comparison with the same truth. -/
theorem Inequality.exists_reads {i : Inequality} (left : i.left.IsWritten) (right : i.right.IsWritten) :
    ∃ text a b, i.smt = .ok text ∧ Smt.Sexp.Reads text.toList [Smt.Sexp.compared i.relation a b] ∧
      ∀ ρ, i.relation.Compares (a.value ρ) (b.value ρ) ↔ i.Holds ρ := by
  have side {e : Equation} (written : e.IsWritten) : ∃ t s, e.smt = .ok t ∧ Smt.Sexp.Reads t.toList [s] ∧
      ∀ ρ, s.value ρ = e.eval ρ := by
    obtain ⟨t, made, leaves, value⟩ := written.term_spec
    have words : t.Over (fun c => Smt.Sexp.IsWord c.text) Smt.Sexp.IsWord :=
      leaves.mono (fun _ numeral => .of_isAtom (.scalar numeral)) fun _ unknown => .of_isAtom (.of_isUnknown unknown)
    exact ⟨t.render, t.sexp, bind_eq_ok.mpr ⟨t, made, rfl⟩, t.reads_sexp words,
      fun ρ => (t.value_sexp leaves ρ).trans (value ρ)⟩
  obtain ⟨l, a, madel, readsl, valuel⟩ := side left
  obtain ⟨r, b, mader, readsr, valuer⟩ := side right
  have word : Smt.Sexp.IsWord i.relation.sign := by cases i.relation <;> decide
  refine ⟨_, a, b, bind_eq_ok.mpr ⟨l, madel, bind_eq_ok.mpr ⟨r, mader, rfl⟩⟩, .binary word readsl readsr, fun ρ => ?_⟩
  rw [valuel, valuer, Inequality.Holds]

end Supermartingale
