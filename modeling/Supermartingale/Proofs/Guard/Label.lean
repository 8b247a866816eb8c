import Mathlib.Algebra.GroupWithZero.Nat
import Mathlib.Data.Fin.Basic
import Supermartingale.Guard
import Supermartingale.Proofs.Except
import Supermartingale.Proofs.Text.Replace

/-!
# The prefix form of labels

A label in negation normal form combines literals by conjunctions, disjunctions and parentheses. Its prefix form is
the tree of the label with all operands in reverse order, since both operators group towards the end.
-/

namespace Supermartingale.Label

open List

variable {c : Char} {stack : List Char} {r : Rank} {n m : ℕ}

/-! ## Labels -/

structure Literal where
  negated : Bool
  index : Fin 10
deriving DecidableEq

instance neZero_ten : NeZero 10 := ⟨by decide⟩

def digit (i : Fin 10) : Char := Nat.digitChar i

inductive Rank where
  | factor
  | conjunction
  | disjunction

/-- Labels in negation normal form. -/
inductive Part : Rank → Type where
  | literal (l : Literal) : Part .factor
  | group (p : Part .disjunction) : Part .factor
  | factor (p : Part .factor) : Part .conjunction
  -- chains are taken apart from the left, as the ordering from the end of a label puts them together
  | and (p : Part .factor) (q : Part .conjunction) : Part .conjunction
  | conjunction (p : Part .conjunction) : Part .disjunction
  | or (p : Part .conjunction) (q : Part .disjunction) : Part .disjunction

def Literal.chars (l : Literal) : List Char := if l.negated then ['!', digit l.index] else [digit l.index]

namespace Part

def chars : {r : Rank} → Part r → List Char
  | _, literal l => l.chars
  | _, group p => '(' :: (p.chars ++ [')'])
  | _, factor p => p.chars
  | _, and p q => p.chars ++ '&' :: q.chars
  | _, conjunction p => p.chars
  | _, or p q => p.chars ++ '|' :: q.chars

def literals : {r : Rank} → Part r → List Literal
  | _, literal l => [l]
  | _, group p => p.literals
  | _, factor p => p.literals
  | _, and p q => p.literals ++ q.literals
  | _, conjunction p => p.literals
  | _, or p q => p.literals ++ q.literals

/-- The truth of a label where literals are true or false. -/
def Holds (truth : Literal → Prop) : {r : Rank} → Part r → Prop
  | _, literal l => truth l
  | _, group p => p.Holds truth
  | _, factor p => p.Holds truth
  | _, and p q => p.Holds truth ∧ q.Holds truth
  | _, conjunction p => p.Holds truth
  | _, or p q => p.Holds truth ∨ q.Holds truth

def form : {r : Rank} → Part r → String
  | _, literal l => if l.negated then "(! " ++ String.ofList [digit l.index] ++ ")" else String.ofList [digit l.index]
  | _, group p => p.form
  | _, factor p => p.form
  | _, and p q => "(& " ++ q.form ++ " " ++ p.form ++ ")"
  | _, conjunction p => p.form
  | _, or p q => "(| " ++ q.form ++ " " ++ p.form ++ ")"

end Part

theorem turn_digit (i : Fin 10) : turn (digit i) = digit i := by
  revert i
  decide

theorem isAlphanumeric_digit (i : Fin 10) : Text.isAlphanumeric (digit i) := by
  revert i
  decide

theorem plain_of_isAlphanumeric (alphanumeric : Text.isAlphanumeric c) : c ∉ ['(', ')', ' ', '!', '&', '|'] := by
  intro mem
  have others : ∀ c ∈ ['(', ')', ' ', '!', '&', '|'], Text.isAlphanumeric c = false := by decide
  rw [others c mem] at alphanumeric
  cases alphanumeric

/-! ## Ordering by precedence -/

def Rank.binding : Rank → ℕ
  | .factor => 3
  | .conjunction => 2
  | .disjunction => 1

def Binds (n : ℕ) (c : Char) : Prop := c ≠ '(' ∧ ∃ q, precedence c = .ok q ∧ n ≤ q

/-- The operators of a stack up to the nearest parenthesis bind less tightly. -/
def Loose (n : ℕ) (stack : List Char) : Prop := ∀ top ∈ stack.head?, top = '(' ∨ ∃ q, precedence top = .ok q ∧ q < n

theorem Loose.unstack {n : ℕ} (loose : Loose n stack)
    (binds : precedence c = .ok n) (output : List Char) : unstack c output stack = .ok (output, stack) := by
  cases stack with
  | nil => rfl
  | cons top stack =>
    rw [Label.unstack]
    rcases loose top rfl with rfl | ⟨q, binding, less⟩
    · rfl
    · split
      · rfl
      · have tight : ¬ (n < q || (n == q && groupsLeft c)) := by
          simp
          omega
        simp [binds, binding, bind, Except.bind, tight, pure, Except.pure]

/-- An operator that groups from the left moves all operators that bind as tightly to the output. -/
theorem Loose.unstack_append {n : ℕ} (loose : Loose n stack)
    (binds : precedence c = .ok n) (groups : groupsLeft c) {ops : List Char} (tight : ∀ o ∈ ops, Binds n o)
    (output : List Char) : Label.unstack c output (ops ++ stack) = .ok (ops.reverse ++ output, stack) := by
  induction ops generalizing output with
  | nil => exact loose.unstack binds output
  | cons o ops ih =>
    obtain ⟨⟨operator, q, binding, most⟩, others⟩ := forall_mem_cons.mp tight
    have moves : n < q || (n == q && groupsLeft c) := by
      simp [groups]
      omega
    rw [cons_append, Label.unstack, if_neg (by simpa using operator)]
    simp [binds, binding, bind, Except.bind, moves, ih others]

theorem unstackGroup_append {ops : List Char} (operators : ∀ o ∈ ops, o ≠ '(') (output stack : List Char) :
    unstackGroup output (ops ++ '(' :: stack) = .ok (ops.reverse ++ output, stack) := by
  induction ops generalizing output with
  | nil => rfl
  | cons o ops ih =>
    obtain ⟨operator, others⟩ := forall_mem_cons.mp operators
    rw [cons_append, unstackGroup, if_neg (by simpa using operator), ih others]
    simp

/-! The steps of the ordering, character by character. -/

section

variable (output stack cs : List Char) {output' stack' : List Char} {c : Char}

theorem postfixForm_operand (operand : Text.isAlphanumeric c) :
    postfixForm output stack (c :: cs) = postfixForm (c :: output) stack cs := by
  rw [postfixForm, if_pos operand]

theorem postfixForm_open : postfixForm output stack ('(' :: cs) = postfixForm output ('(' :: stack) cs := by
  rw [postfixForm, if_neg (by decide), if_pos (by decide)]

theorem postfixForm_close (unstacked : unstackGroup output stack = .ok (output', stack')) :
    postfixForm output stack (')' :: cs) = postfixForm output' stack' cs := by
  rw [postfixForm, if_neg (by decide), if_neg (by decide), if_pos (by decide), unstacked]
  rfl

theorem postfixForm_operator (operator : c ∈ ['!', '&', '|'])
    (unstacked : unstack c output stack = .ok (output', stack')) :
    postfixForm output stack (c :: cs) = postfixForm output' (c :: stack') cs := by
  have other : ∀ c ∈ ['!', '&', '|'],
      Text.isAlphanumeric c = false ∧ (c == '(') = false ∧ (c == ')') = false := by
    decide
  obtain ⟨alphanumeric, opens, closes⟩ := other c operator
  rw [postfixForm, if_neg (by simp [alphanumeric]), if_neg (by simp [opens]), if_neg (by simp [closes]), unstacked]
  rfl

end

theorem postfixForm_binary {n : ℕ} (operator : c ∈ ['!', '&', '|']) (binds : precedence c = .ok n)
    (groups : groupsLeft c) {stack ops output : List Char} (loose : Loose n stack)
    (tight : ∀ o ∈ ops, Binds n o) (rest : List Char) :
    postfixForm output (ops ++ stack) (c :: rest) = postfixForm (ops.reverse ++ output) (c :: stack) rest :=
  postfixForm_operator _ _ rest operator (loose.unstack_append binds groups tight output)

theorem Loose.cons (binds : precedence c = .ok m) (less : m < n) (stack : List Char) : Loose n (c :: stack) := by
  intro top first
  cases first
  exact .inr ⟨m, binds, less⟩

theorem Loose.mono (loose : Loose n stack) (le : n ≤ m) : Loose m stack := by
  intro top first
  rcases loose top first with opens | ⟨q, binds, less⟩
  · exact .inl opens
  · exact .inr ⟨q, binds, less.trans_le le⟩

theorem Binds.mono (binds : Binds n c) (le : m ≤ n) : Binds m c := by
  obtain ⟨operator, q, binding, most⟩ := binds
  exact ⟨operator, q, binding, le.trans most⟩

/-- What the ordering does to a part of a label: some of its operators are left on the stack. -/
def Orders (n : ℕ) (turned ordered : List Char) : Prop :=
  ∀ output stack, Loose n stack → ∃ ops output', (∀ o ∈ ops, Binds n o) ∧
    ops.reverse ++ output' = ordered.reverse ++ output ∧
    ∀ rest, postfixForm output stack (turned ++ rest) = postfixForm output' (ops ++ stack) rest

theorem orders_operands {cs : List Char} (operands : ∀ c ∈ cs, Text.isAlphanumeric c) : Orders 3 cs cs := by
  intro output stack _
  refine ⟨[], cs.reverse ++ output, forall_mem_nil _, rfl, fun rest => ?_⟩
  induction cs generalizing output with
  | nil => rfl
  | cons c cs ih =>
    obtain ⟨first, others⟩ := forall_mem_cons.mp operands
    rw [cons_append, postfixForm_operand output stack (cs ++ rest) first, ih others]
    simp

theorem orders_digit (i : Fin 10) : Orders 3 [digit i] [digit i] :=
  orders_operands (forall_mem_singleton.mpr (isAlphanumeric_digit i))

theorem Binds.eq_negation (binds : Binds 3 c) : c = '!' := by
  obtain ⟨_, q, binding, most⟩ := binds
  unfold precedence at binding
  split at binding
  · rfl
  · cases binding
    omega
  · cases binding
    omega
  · cases binding

namespace Orders

variable {n m : ℕ} {cs ds cs' ds' : List Char}

theorem mono (orders : Orders n cs ds) (le : m ≤ n) : Orders m cs ds := by
  intro output stack loose
  obtain ⟨ops, output', tight, rest⟩ := orders output stack (loose.mono le)
  exact ⟨ops, output', fun o mem => (tight o mem).mono le, rest⟩

theorem negation (orders : Orders 3 cs ds) : Orders 3 (cs ++ ['!']) (ds ++ ['!']) := by
  intro output stack loose
  obtain ⟨ops, output', tight, same, reads⟩ := orders output stack loose
  have negations : ops = List.replicate ops.length '!' :=
    eq_replicate_of_mem fun o mem => (tight o mem).eq_negation
  -- no operator on the stack binds tighter than a negation, and negations do not group from the left
  have kept : unstack '!' output' (ops ++ stack) = .ok (output', ops ++ stack) := by
    cases ops with
    | nil => exact loose.unstack rfl output'
    | cons o ops =>
      obtain rfl := (tight o mem_cons_self).eq_negation
      rfl
  refine ⟨'!' :: ops, output', ?_, ?_, fun rest => ?_⟩
  · exact forall_mem_cons.mpr ⟨⟨by decide, 3, rfl, le_rfl⟩, tight⟩
  · rw [reverse_append, append_assoc, ← same, negations, ← replicate_succ, reverse_replicate,
      reverse_replicate]
    rfl
  · rw [append_assoc, reads]
    exact postfixForm_operator _ _ rest (by decide) kept

theorem group (orders : Orders 1 cs ds) : Orders 3 ('(' :: (cs ++ [')'])) ds := by
  intro output stack _
  have opens : Loose 1 ('(' :: stack) := by
    intro top first
    cases first
    exact .inl rfl
  obtain ⟨ops, output', tight, same, reads⟩ := orders output ('(' :: stack) opens
  refine ⟨[], ds.reverse ++ output, forall_mem_nil _, rfl, fun rest => ?_⟩
  -- the closing parenthesis moves all operators of the group to the output, so none is left
  have closes := unstackGroup_append (fun o mem => (tight o mem).1) output' stack
  rw [same] at closes
  rw [cons_append, append_assoc, postfixForm_open, reads]
  exact postfixForm_close _ _ rest closes

theorem binary (first : Orders m cs ds) (second : Orders n cs' ds') {c : Char} (operator : c ∈ ['!', '&', '|'])
    (binds : precedence c = .ok m) (groups : groupsLeft c) (less : m < n) :
    Orders m (cs ++ c :: cs') (ds ++ (ds' ++ [c])) := by
  intro output stack loose
  obtain ⟨ops, output₁, tight, same, reads⟩ := first output stack loose
  -- the operator moves those of the part before it to the output, and stays below those of the next part
  obtain ⟨ops', output₂, tight', same', reads'⟩ := second (ops.reverse ++ output₁) (c :: stack) (.cons binds less stack)
  have other : ∀ c ∈ ['!', '&', '|'], c ≠ '(' := by decide
  refine ⟨ops' ++ [c], output₂, ?_, ?_, fun rest => ?_⟩
  · rw [forall_mem_append, forall_mem_singleton]
    exact ⟨fun o mem => (tight' o mem).mono less.le, other c operator, _, binds, le_rfl⟩
  · rw [reverse_append, append_assoc, same', same]
    simp
  · rw [append_assoc, reads, cons_append, postfixForm_binary operator binds groups loose tight,
      reads', append_assoc]
    rfl

theorem postfixForm_eq (orders : Orders n cs ds) : postfixForm [] [] cs = .ok ds := by
  obtain ⟨ops, output, _, same, reads⟩ := orders [] [] (by simp [Loose])
  have result := reads []
  rw [append_nil, append_nil] at result
  have flushed := congrArg List.reverse same
  simp only [reverse_append, reverse_reverse, append_nil] at flushed
  rw [result, postfixForm, flushed]

end Orders

/-! ## Combining operands -/

def Combines (ordered : List Char) (form : String) : Prop :=
  ∀ stack rest, combine stack (ordered ++ rest) = combine (form :: stack) rest

theorem combines_operand (operand : Text.isAlphanumeric c) : Combines [c] (String.ofList [c]) := by
  intro stack rest
  rw [singleton_append, combine.eq_def]
  exact if_pos operand

theorem combines_digit (i : Fin 10) : Combines [digit i] (String.ofList [digit i]) :=
  combines_operand (isAlphanumeric_digit i)

namespace Combines

variable {cs ds : List Char} {s t : String}

theorem negation (combines : Combines cs s) : Combines (cs ++ ['!']) ("(! " ++ s ++ ")") := by
  intro stack rest
  rw [append_assoc, combines, singleton_append, combine, if_neg (by decide), if_pos (by decide)]
  rfl

theorem conjunction (first : Combines cs s) (second : Combines ds t) :
    Combines (cs ++ (ds ++ ['&'])) ("(& " ++ s ++ " " ++ t ++ ")") := by
  intro stack rest
  rw [append_assoc, append_assoc, first, second, singleton_append, combine,
    if_neg (by decide), if_neg (by decide)]
  rfl

theorem disjunction (first : Combines cs s) (second : Combines ds t) :
    Combines (cs ++ (ds ++ ['|'])) ("(| " ++ s ++ " " ++ t ++ ")") := by
  intro stack rest
  rw [append_assoc, append_assoc, first, second, singleton_append, combine,
    if_neg (by decide), if_neg (by decide)]
  rfl

/-- The prefix form of a label whose parts are ordered and combined; blanks do not matter. -/
theorem prefixForm_eq {turned ordered : List Char} {form : String} (combines : Combines ordered form) {n : ℕ}
    (orders : Orders n turned ordered) {label : String}
    (spelled : (label.toList.filter (· != ' ')).reverse.map turn = turned) : prefixForm label = .ok form := by
  have combined := combines [] []
  rw [append_nil] at combined
  rw [prefixForm, spelled, orders.postfixForm_eq]
  simp only [bind, Except.bind]
  rw [combined]
  rfl

end Combines

/-! ## Labels with negations of any part

A negation may stand before a proposition, before parentheses or before another negation. It is that of a
label in negation normal form exactly if parentheses aside all negations stand before propositions. -/

/-- Labels over the propositions with one digit. -/
inductive Formula : Rank → Type where
  | index (i : Fin 10) : Formula .factor
  | not (p : Formula .factor) : Formula .factor
  | group (p : Formula .disjunction) : Formula .factor
  | factor (p : Formula .factor) : Formula .conjunction
  | and (p : Formula .factor) (q : Formula .conjunction) : Formula .conjunction
  | conjunction (p : Formula .conjunction) : Formula .disjunction
  | or (p : Formula .conjunction) (q : Formula .disjunction) : Formula .disjunction

namespace Formula

variable {r : Rank} {p : Formula r}

def chars : {r : Rank} → Formula r → List Char
  | _, index i => [digit i]
  | _, not p => '!' :: p.chars
  | _, group p => '(' :: (p.chars ++ [')'])
  | _, factor p => p.chars
  | _, and p q => p.chars ++ '&' :: q.chars
  | _, conjunction p => p.chars
  | _, or p q => p.chars ++ '|' :: q.chars

def indices : {r : Rank} → Formula r → List (Fin 10)
  | _, index i => [i]
  | _, not p => p.indices
  | _, group p => p.indices
  | _, factor p => p.indices
  | _, and p q => p.indices ++ q.indices
  | _, conjunction p => p.indices
  | _, or p q => p.indices ++ q.indices

/-- The truth of a label where propositions are true or false. -/
def Holds (truth : Fin 10 → Prop) : {r : Rank} → Formula r → Prop
  | _, index i => truth i
  | _, not p => ¬ p.Holds truth
  | _, group p => p.Holds truth
  | _, factor p => p.Holds truth
  | _, and p q => p.Holds truth ∧ q.Holds truth
  | _, conjunction p => p.Holds truth
  | _, or p q => p.Holds truth ∨ q.Holds truth

-- from the end, in order, and as a tree

def turned : {r : Rank} → Formula r → List Char
  | _, index i => [digit i]
  | _, not p => p.turned ++ ['!']
  | _, group p => '(' :: (p.turned ++ [')'])
  | _, factor p => p.turned
  | _, and p q => q.turned ++ '&' :: p.turned
  | _, conjunction p => p.turned
  | _, or p q => q.turned ++ '|' :: p.turned

def ordered : {r : Rank} → Formula r → List Char
  | _, index i => [digit i]
  | _, not p => p.ordered ++ ['!']
  | _, group p => p.ordered
  | _, factor p => p.ordered
  | _, and p q => q.ordered ++ (p.ordered ++ ['&'])
  | _, conjunction p => p.ordered
  | _, or p q => q.ordered ++ (p.ordered ++ ['|'])

def form : {r : Rank} → Formula r → String
  | _, index i => String.ofList [digit i]
  | _, not p => "(! " ++ p.form ++ ")"
  | _, group p => p.form
  | _, factor p => p.form
  | _, and p q => "(& " ++ q.form ++ " " ++ p.form ++ ")"
  | _, conjunction p => p.form
  | _, or p q => "(| " ++ q.form ++ " " ++ p.form ++ ")"

theorem chars_ne_nil (p : Formula r) : p.chars ≠ [] := by
  induction p with
  | index i | not p ih | group p ih => exact cons_ne_nil _ _
  | factor p ih | conjunction p ih => exact ih
  | and p q ihp ihq | or p q ihp ihq => simp [chars, ihp]

theorem map_turn_chars (p : Formula r) : p.chars.reverse.map turn = p.turned := by
  induction p with
  | index i => simp [chars, turned, turn_digit]
  | not p ih | group p ih => simp [chars, turned, ← ih, turn]
  | factor p ih | conjunction p ih => exact ih
  | and p q ihp ihq | or p q ihp ihq => simp [chars, turned, ← ihp, ← ihq, turn]

theorem orders (p : Formula r) : Orders r.binding p.turned p.ordered := by
  induction p with
  | index i => exact orders_digit i
  | not p ih => exact ih.negation
  | group p ih => exact ih.group
  | factor p ih | conjunction p ih => exact ih.mono (by decide)
  | and p q ihp ihq | or p q ihp ihq => exact ihq.binary ihp (by decide) rfl rfl (by decide)

theorem combines (p : Formula r) : Combines p.ordered p.form := by
  induction p with
  | index i => exact combines_digit i
  | not p ih => exact ih.negation
  | group p ih | factor p ih | conjunction p ih => exact ih
  | and p q ihp ihq => exact ihq.conjunction ihp
  | or p q ihp ihq => exact ihq.disjunction ihp

theorem prefixForm_eq (p : Formula r) {label : String} (spelled : label.toList.filter (· != ' ') = p.chars) :
    prefixForm label = .ok p.form :=
  p.combines.prefixForm_eq p.orders (by rw [spelled, p.map_turn_chars])

def ofPart : {r : Rank} → Part r → Formula r
  | _, .literal l => if l.negated then not (index l.index) else index l.index
  | _, .group p => group (ofPart p)
  | _, .factor p => factor (ofPart p)
  | _, .and p q => and (ofPart p) (ofPart q)
  | _, .conjunction p => conjunction (ofPart p)
  | _, .or p q => or (ofPart p) (ofPart q)

theorem ofPart_spec (p : Part r) : (ofPart p).chars = p.chars ∧ (ofPart p).form = p.form := by
  induction p with
  | literal l =>
    obtain ⟨negated, i⟩ := l
    cases negated <;> exact ⟨rfl, rfl⟩
  | group p ih => exact ⟨by rw [ofPart, chars, ih.1, Part.chars], ih.2⟩
  | factor p ih | conjunction p ih => exact ih
  | and p q ihp ihq | or p q ihp ihq => simp [ofPart, chars, form, Part.chars, Part.form, ihp, ihq]

/-! ## Negated propositions -/

/-- The proposition that a label is, parentheses aside. -/
def index? : {r : Rank} → Formula r → Option (Fin 10)
  | _, index i => some i
  | _, not _ => none
  | _, group p => p.index?
  | _, factor p => p.index?
  | _, and _ _ => none
  | _, conjunction p => p.index?
  | _, or _ _ => none

/-- Parentheses aside, all negations stand before propositions. -/
def NegatesPropositions : {r : Rank} → Formula r → Prop
  | _, index _ => True
  | _, not p => p.index?.isSome
  | _, group p => p.NegatesPropositions
  | _, factor p => p.NegatesPropositions
  | _, and p q => p.NegatesPropositions ∧ q.NegatesPropositions
  | _, conjunction p => p.NegatesPropositions
  | _, or p q => p.NegatesPropositions ∧ q.NegatesPropositions

theorem of_index? {i : Fin 10} (alone : p.index? = some i) :
    p.form = String.ofList [digit i] ∧ i ∈ p.indices ∧ ∀ truth, p.Holds truth ↔ truth i := by
  induction p with
  | index j =>
    cases alone
    exact ⟨rfl, mem_singleton_self i, fun truth => Iff.rfl⟩
  | group p ih | factor p ih | conjunction p ih => exact ih alone
  | not p ih | and p q ihp ihq | or p q ihp ihq => cases alone

theorem form_of_index?_eq_none (compound : p.index? = none) : ∃ rest, p.form.toList = '(' :: rest := by
  induction p with
  | index j => cases compound
  | group p ih | factor p ih | conjunction p ih => exact ih compound
  | not p ih | and p q ihp ihq | or p q ihp ihq => simp [form]

/-- Where a literal is true if its proposition has the truth value that the literal gives it. -/
def agreement (truth : Fin 10 → Prop) (l : Literal) : Prop := if l.negated then ¬ truth l.index else truth l.index

theorem exists_part (negates : p.NegatesPropositions) : ∃ q : Part r, q.form = p.form ∧
    (∀ l ∈ q.literals, l.index ∈ p.indices) ∧ ∀ truth, q.Holds (agreement truth) ↔ p.Holds truth := by
  have both {ls ms : List Literal} {is js : List (Fin 10)} (left : ∀ l ∈ ls, l.index ∈ is)
      (right : ∀ l ∈ ms, l.index ∈ js) : ∀ l ∈ ls ++ ms, l.index ∈ is ++ js := by
    rw [forall_mem_append]
    exact ⟨fun l mem => mem_append_left _ (left l mem), fun l mem => mem_append_right _ (right l mem)⟩
  induction p with
  | index i => exact ⟨.literal ⟨false, i⟩, rfl, by simp [Part.literals, indices], fun truth => Iff.rfl⟩
  | not p ih =>
    obtain ⟨i, alone⟩ := Option.isSome_iff_exists.mp negates
    obtain ⟨form_eq, inside, truths⟩ := of_index? alone
    refine ⟨.literal ⟨true, i⟩, ?_, by simpa [Part.literals, indices] using inside, fun truth => ?_⟩
    · rw [form, form_eq]
      rfl
    · exact not_congr (truths truth).symm
  | group p ih =>
    obtain ⟨q, same⟩ := ih negates
    exact ⟨.group q, same⟩
  | factor p ih =>
    obtain ⟨q, same⟩ := ih negates
    exact ⟨.factor q, same⟩
  | conjunction p ih =>
    obtain ⟨q, same⟩ := ih negates
    exact ⟨.conjunction q, same⟩
  | and p q ihp ihq =>
    obtain ⟨p', formp, insidep, truthp⟩ := ihp negates.1
    obtain ⟨q', formq, insideq, truthq⟩ := ihq negates.2
    exact ⟨.and p' q', by rw [Part.form, form, formp, formq], both insidep insideq,
      fun truth => and_congr (truthp truth) (truthq truth)⟩
  | or p q ihp ihq =>
    obtain ⟨p', formp, insidep, truthp⟩ := ihp negates.1
    obtain ⟨q', formq, insideq, truthq⟩ := ihq negates.2
    exact ⟨.or p' q', by rw [Part.form, form, formp, formq], both insidep insideq,
      fun truth => or_congr (truthp truth) (truthq truth)⟩

theorem infix_form (other : ¬ p.NegatesPropositions) : ['!', ' ', '('] <:+: p.form.toList := by
  have enclosed (start a b : List Char) (either : ['!', ' ', '('] <:+: a ∨ ['!', ' ', '('] <:+: b) :
      ['!', ' ', '('] <:+: start ++ b ++ ' ' :: (a ++ [')']) := by
    rcases either with inside | inside
    · refine inside.trans ⟨start ++ b ++ [' '], [')'], by simp⟩
    · exact inside.trans ⟨start, ' ' :: (a ++ [')']), by simp⟩
  induction p with
  | index i => exact absurd trivial other
  | not p ih =>
    obtain ⟨rest, starts⟩ := form_of_index?_eq_none (Option.not_isSome_iff_eq_none.mp other)
    exact ⟨['('], rest ++ [')'], by simp [form, starts]⟩
  | group p ih | factor p ih | conjunction p ih => exact ih other
  | and p q ihp ihq =>
    have inside := enclosed "(& ".toList p.form.toList q.form.toList ((not_and_or.mp other).imp ihp ihq)
    simpa [form] using inside
  | or p q ihp ihq =>
    have inside := enclosed "(| ".toList p.form.toList q.form.toList ((not_and_or.mp other).imp ihp ihq)
    simpa [form] using inside

end Formula

theorem Part.chars_ne_nil (p : Part r) : p.chars ≠ [] := (Formula.ofPart_spec p).1 ▸ (Formula.ofPart p).chars_ne_nil

theorem Part.prefixForm_eq (p : Part r) {label : String} (spelled : label.toList.filter (· != ' ') = p.chars) :
    prefixForm label = .ok p.form := by
  obtain ⟨chars, form⟩ := Formula.ofPart_spec p
  rw [← form]
  exact (Formula.ofPart p).prefixForm_eq (spelled.trans chars.symm)

end Supermartingale.Label
