import Supermartingale.Proofs.Guard.Rendering
import Supermartingale.Proofs.Smt.Reading

/-!
# Parentheses of a guard

Whatever is put in for what in the label of a guard, its parentheses stay balanced, since the prefix form, keys and
texts are balanced themselves. So the solver can read every guard, also where the text is not that of the label.
-/

namespace Supermartingale

open List Text String

namespace Smt.Sexp

theorem group_append (inner rest ds : List Char) :
    '(' :: (inner ++ ')' :: rest) ++ ds = '(' :: (inner ++ ')' :: (rest ++ ds)) := by simp

theorem Nested.append {cs ds : List Char} (first : Nested cs) (second : Nested ds) : Nested (cs ++ ds) := by
  induction first with
  | nil => exact second
  | char plain _ ih => exact .char plain ih
  | group nested _ _ ih =>
    rw [group_append]
    exact .group nested ih

variable {cs pattern value : List Char} {d : ℕ}

theorem Nested.of_plain (plain : ∀ c ∈ cs, c ≠ '(' ∧ c ≠ ')') : Nested cs := by
  induction cs with
  | nil => exact .nil
  | cons c cs ih =>
    obtain ⟨first, others⟩ := forall_mem_cons.mp plain
    exact .char first (ih others)

theorem Nested.filterMap (nested : Nested cs) {f : Char → Option Char} (opening : f '(' = some '(')
    (closing : f ')' = some ')') (others : ∀ c ≠ '(', c ≠ ')' → ∀ d ∈ f c, d ≠ '(' ∧ d ≠ ')') :
    Nested (cs.filterMap f) := by
  induction nested with
  | nil => exact .nil
  | @char c cs plain _ ih =>
    rw [filterMap_cons]
    split
    · exact ih
    · rename_i d image
      exact .char (others c plain.1 plain.2 d image) ih
  | @group inner rest _ _ ihi ihr =>
    rw [filterMap_cons_some opening, filterMap_append, filterMap_cons_some closing]
    exact .group ihi ihr

theorem turn_of_plain {c : Char} (plain : c ≠ '(' ∧ c ≠ ')') (d : ℕ) : turn d c = some d := by
  simp [turn, plain]

theorem depth_filter (d : ℕ) (cs : List Char) : depth d (cs.filter (· != ' ')) = depth d cs := by
  induction cs generalizing d with
  | nil => rfl
  | cons c cs ih =>
    by_cases blank : c = ' '
    · subst blank
      rw [filter_cons_of_neg (by decide), ih, depth, turn_of_plain (by decide), Option.bind_some]
    · rw [filter_cons_of_pos (by simpa using blank), depth, depth]
      exact congrArg _ (funext ih)

theorem Nested.depth_append (nested : Nested cs) (d : ℕ) (rest : List Char) :
    depth d (cs ++ rest) = depth d rest := by
  induction nested generalizing d rest with
  | nil => rfl
  | char plain _ ih => rw [cons_append, depth, turn_of_plain plain, Option.bind_some, ih]
  | group _ _ ihi iha =>
    rw [group_append, depth, show turn d '(' = some (d + 1) from rfl, Option.bind_some, ihi, depth,
      show turn (d + 1) ')' = some d from rfl, Option.bind_some, iha]

theorem Nested.balanced (nested : Nested cs) : Balanced cs := by
  have whole := nested.depth_append 0 []
  rwa [append_nil] at whole

theorem Balanced.nested (balanced : Balanced cs) : Nested cs := closing_of_depth balanced

/-- Texts that close the last open parenthesis with their last character. -/
def Closes : ℕ → List Char → Prop
  | d, [] => d = 0
  | d, c :: cs => d ≠ 0 ∧ ∃ d', turn d c = some d' ∧ Closes d' cs

theorem Nested.closes_append (nested : Nested cs) (opened : d ≠ 0) (rest : List Char) :
    Closes d (cs ++ rest) ↔ Closes d rest := by
  induction nested generalizing d rest with
  | nil => rfl
  | char plain _ ih => simp [Closes, turn_of_plain plain, opened, ih]
  | group _ _ ihi iha =>
    rw [group_append]
    have closing : turn (d + 1) ')' = some d := rfl
    have opening : turn d '(' = some (d + 1) := rfl
    simp [Closes, opened, opening, ihi (d := d + 1), closing, iha opened]

/-- Nothing stands behind the last parenthesis. -/
theorem Closes.eq_nil (closes : Closes 0 cs) : cs = [] := by
  cases cs with
  | nil => rfl
  | cons c cs => exact absurd rfl closes.1

theorem Closes.exists_inner (closes : Closes (d + 1) cs) :
    ∃ inner, cs = inner ++ [')'] ∧ depth d inner = some 0 := by
  induction cs generalizing d with
  | nil => cases closes
  | cons c cs ih =>
    obtain ⟨_, d', turned, rest⟩ := closes
    by_cases opens : c = '('
    · subst opens
      cases turned
      obtain ⟨inner, rfl, closed⟩ := ih rest
      exact ⟨'(' :: inner, rfl, closed⟩
    · by_cases ends : c = ')'
      · subst ends
        cases turned
        cases d with
        | zero => exact ⟨[], by rw [rest.eq_nil, nil_append], rfl⟩
        | succ d =>
          obtain ⟨inner, rfl, closed⟩ := ih rest
          exact ⟨')' :: inner, rfl, closed⟩
      · rw [turn_of_plain ⟨opens, ends⟩] at turned
        cases turned
        obtain ⟨inner, rfl, closed⟩ := ih rest
        exact ⟨c :: inner, rfl, by rw [depth, turn_of_plain ⟨opens, ends⟩]; exact closed⟩

theorem Closes.group (nested : Nested cs) : Closes 1 (cs ++ [')']) := by
  rw [nested.closes_append one_ne_zero]
  exact ⟨one_ne_zero, 0, rfl, rfl⟩

theorem Closes.replaceFrom (nonempty : pattern ≠ []) (old : Nested pattern)
    (new : Nested value) (opened : d ≠ 0) (closes : Closes d cs) :
    Closes d (replaceFrom pattern value 0 cs) := by
  induction cs using induction_on_occurrences nonempty generalizing d with
  | nil => exact closes
  | found rest ih =>
    rw [replaceFrom_append value nonempty, new.closes_append opened]
    exact ih opened ((old.closes_append opened rest).mp closes)
  | cons c cs start ih =>
    obtain ⟨_, d', turned, rest⟩ := closes
    rw [replaceFrom_cons value start]
    refine ⟨opened, d', turned, ?_⟩
    by_cases last : d' = 0
    · subst last
      rw [rest.eq_nil]
      rfl
    · exact ih last rest

def IsGroup (cs : List Char) : Prop := ∃ tail, cs = '(' :: tail ∧ Closes 1 tail

theorem IsGroup.intro (nested : Nested cs) : IsGroup ('(' :: (cs ++ [')'])) := ⟨_, rfl, .group nested⟩

theorem IsGroup.operation {sign left right : List Char} (plain : ∀ c ∈ sign, c ≠ '(' ∧ c ≠ ')') (first : Nested left)
    (second : Nested right) : IsGroup ('(' :: (sign ++ ' ' :: (left ++ ' ' :: (right ++ [')'])))) := by
  have blank : Nested [' '] := .of_plain (by decide)
  have group := IsGroup.intro ((Nested.of_plain plain).append (blank.append (first.append (blank.append second))))
  simpa using group

theorem IsGroup.exists_inner (group : IsGroup cs) : ∃ inner, cs = '(' :: (inner ++ [')']) ∧ Nested inner := by
  obtain ⟨tail, rfl, closes⟩ := group
  obtain ⟨inner, rfl, balanced⟩ := closes.exists_inner
  exact ⟨inner, rfl, Balanced.nested balanced⟩

theorem IsGroup.nested (group : IsGroup cs) : Nested cs := by
  obtain ⟨inner, rfl, nested⟩ := group.exists_inner
  exact .group nested .nil

theorem plain_of_alphanumeric {c : Char} (alphanumeric : isAlphanumeric c) : c ≠ '(' ∧ c ≠ ')' := by
  have plain := Label.plain_of_isAlphanumeric alphanumeric
  simp only [mem_cons, not_or] at plain
  exact ⟨plain.1, plain.2.1⟩

def IsForm (cs : List Char) : Prop := (∃ c, cs = [c] ∧ isAlphanumeric c) ∨ IsGroup cs

theorem IsForm.nested (form : IsForm cs) : Nested cs := by
  rcases form with ⟨c, rfl, alphanumeric⟩ | group
  · exact .char (plain_of_alphanumeric alphanumeric) .nil
  · exact group.nested

theorem IsForm.replaceFrom_word (nonempty : pattern ≠ [])
    (old : ∀ c ∈ pattern, c ≠ '(' ∧ c ≠ ')') (new : Nested value) (form : IsForm cs)
    (single : ∀ c, pattern = [c] → isAlphanumeric c → IsGroup value) :
    IsForm (replaceFrom pattern value 0 cs) := by
  rcases form with ⟨c, rfl, alphanumeric⟩ | ⟨tail, rfl, closes⟩
  · by_cases start : pattern <+: [c]
    · have whole : pattern = [c] := by
        rcases prefix_cons_iff.mp start with empty | ⟨rest, same, last⟩
        · exact absurd empty nonempty
        · rw [same, prefix_nil.mp last]
      rw [whole, replaceFrom_self value (cons_ne_nil c [])]
      exact .inr (single c whole alphanumeric)
    · rw [replaceFrom_cons value start]
      exact .inl ⟨c, rfl, alphanumeric⟩
  · have start : ¬ pattern <+: '(' :: tail := by
      intro start
      rcases prefix_cons_iff.mp start with empty | ⟨rest, same, _⟩
      · exact nonempty empty
      · exact (old '(' (by simp [same])).1 rfl
    rw [replaceFrom_cons value start]
    exact .inr ⟨_, rfl, closes.replaceFrom nonempty (.of_plain old) new one_ne_zero⟩

theorem IsForm.replaceFrom_group {key value : List Char} (old : ∀ c ∈ key, c ≠ '(' ∧ c ≠ ')')
    (new : IsGroup value) (form : IsForm cs) : IsForm (replaceFrom ('(' :: (key ++ [')'])) value 0 cs) := by
  have nested : Nested ('(' :: (key ++ [')'])) := .group (.of_plain old) .nil
  rcases form with ⟨c, rfl, alphanumeric⟩ | ⟨tail, rfl, closes⟩
  · have start : ¬ '(' :: (key ++ [')']) <+: [c] := fun start =>
      (plain_of_alphanumeric alphanumeric).1 (cons_prefix_cons.mp start).1.symm
    rw [replaceFrom_cons value start]
    exact .inl ⟨c, rfl, alphanumeric⟩
  · by_cases start : '(' :: (key ++ [')']) <+: '(' :: tail
    · -- the group ends where the key does
      obtain ⟨rest, same⟩ := start
      have split : tail = key ++ ')' :: rest := by simpa using same.symm
      rw [split, (Nested.of_plain old).closes_append one_ne_zero] at closes
      obtain ⟨_, d, turned, last⟩ := closes
      cases turned
      rw [split, last.eq_nil, replaceFrom_self value (cons_ne_nil _ _)]
      exact .inr new
    · rw [replaceFrom_cons value start]
      exact .inr ⟨_, rfl, closes.replaceFrom (cons_ne_nil _ _) nested new.nested one_ne_zero⟩

end Smt.Sexp

/-! ## Labels -/

namespace Label

variable {output stack output' stack' : List Char}

open Smt.Sexp

theorem nested_turned {cs : List Char} (nested : Nested cs) : Nested (cs.reverse.map turn) := by
  induction nested with
  | nil => exact .nil
  | @char c cs plain _ ih =>
    rw [reverse_cons, map_append]
    refine ih.append (.of_plain ?_)
    simp [turn, plain]
  | @group inner rest _ _ ihi ihr =>
    have shape : ('(' :: (inner ++ ')' :: rest)).reverse.map turn =
        rest.reverse.map turn ++ '(' :: (inner.reverse.map turn ++ ')' :: []) := by
      simp [turn]
    rw [shape]
    exact ihr.append (.group ihi .nil)

theorem nested_chars {r : Rank} (p : Formula r) : Nested p.chars := by
  have sign {c : Char} (plain : c ≠ '(' ∧ c ≠ ')') {cs : List Char} (nested : Nested cs) : Nested (c :: cs) :=
    .char plain nested
  induction p with
  | index i => exact .char (by revert i; decide) .nil
  | not p ih => exact sign (by decide) ih
  | group p ih => exact .group ih .nil
  | factor p ih | conjunction p ih => exact ih
  | and p q ihp ihq => exact ihp.append (sign (by decide) ihq)
  | or p q ihp ihq => exact ihp.append (sign (by decide) ihq)

theorem unstacked_cons {top : Char} (apart : top ≠ '(')
    (members : ∀ o ∈ output', o ∈ top :: output ∨ o ∈ stack ∧ o ≠ '(') :
    ∀ o ∈ output', o ∈ output ∨ o ∈ top :: stack ∧ o ≠ '(' := by
  intro o mem
  rcases members o mem with inside | ⟨inside, plain⟩
  · rcases mem_cons.mp inside with rfl | inside
    · exact .inr ⟨mem_cons_self, apart⟩
    · exact .inl inside
  · exact .inr ⟨mem_cons_of_mem _ inside, plain⟩

theorem unstack_spec {c : Char} (result : unstack c output stack = .ok (output', stack')) :
    (∀ o ∈ output', o ∈ output ∨ o ∈ stack ∧ o ≠ '(') ∧ stack' <:+ stack ∧
      stack'.count '(' = stack.count '(' := by
  induction stack generalizing output with
  | nil =>
    cases result
    exact ⟨fun o mem => .inl mem, suffix_refl _, rfl⟩
  | cons top stack ih =>
    rw [unstack] at result
    split at result
    · cases result
      exact ⟨fun o mem => .inl mem, suffix_refl _, rfl⟩
    · rename_i other
      obtain ⟨p, _, result⟩ := bind_eq_ok.mp result
      obtain ⟨q, _, result⟩ := bind_eq_ok.mp result
      have apart : top ≠ '(' := by simpa using other
      split at result
      · obtain ⟨members, suffix, count⟩ := ih result
        exact ⟨unstacked_cons apart members, suffix.trans (suffix_cons _ _), by rw [count, count_cons_of_ne apart]⟩
      · cases result
        exact ⟨fun o mem => .inl mem, suffix_refl _, rfl⟩

theorem unstackGroup_spec (result : unstackGroup output stack = .ok (output', stack')) :
    (∀ o ∈ output', o ∈ output ∨ o ∈ stack ∧ o ≠ '(') ∧ stack' <:+ stack ∧
      stack.count '(' = stack'.count '(' + 1 := by
  induction stack generalizing output with
  | nil => cases result
  | cons top stack ih =>
    rw [unstackGroup] at result
    split at result
    · rename_i opening
      cases result
      have same : top = '(' := by simpa using opening
      subst same
      exact ⟨fun o mem => .inl mem, suffix_cons _ _, count_cons_self⟩
    · rename_i other
      have apart : top ≠ '(' := by simpa using other
      obtain ⟨members, suffix, count⟩ := ih result
      exact ⟨unstacked_cons apart members, suffix.trans (suffix_cons _ _), by rw [count_cons_of_ne apart, count]⟩

theorem postfixForm_plain {cs output stack ordered : List Char}
    (clear : ∀ o ∈ output, o ≠ '(' ∧ o ≠ ')') (open' : ∀ o ∈ stack, o ≠ ')')
    (balanced : depth (stack.count '(') cs = some 0)
    (result : postfixForm output stack cs = .ok ordered) : ∀ o ∈ ordered, o ≠ '(' ∧ o ≠ ')' := by
  -- the open parentheses of the label are those on the stack
  induction cs generalizing output stack with
  | nil =>
    cases result
    have none : '(' ∉ stack := count_eq_zero.mp (Option.some.inj balanced)
    refine forall_mem_append.mpr ⟨fun o mem => clear o (mem_reverse.mp mem), fun o mem => ?_⟩
    exact ⟨fun same => none (same ▸ mem), open' o mem⟩
  | cons c cs ih =>
    rw [postfixForm] at result
    split at result
    · rename_i alphanumeric
      have plain := plain_of_alphanumeric alphanumeric
      rw [depth, turn_of_plain plain, Option.bind_some] at balanced
      exact ih (forall_mem_cons.mpr ⟨plain, clear⟩) open' balanced result
    · split at result
      · rename_i opening
        have same : c = '(' := by simpa using opening
        subst same
        refine ih clear (forall_mem_cons.mpr ⟨by decide, open'⟩) ?_ result
        rw [count_cons_self]
        exact balanced
      · rename_i other
        split at result
        · rename_i closing
          have same : c = ')' := by simpa using closing
          subst same
          obtain ⟨⟨output', stack'⟩, unstacked, result⟩ := bind_eq_ok.mp result
          obtain ⟨members, suffix, count⟩ := unstackGroup_spec unstacked
          refine ih (fun o mem => ?_) (fun o mem => open' o (suffix.mem mem)) ?_ result
          · rcases members o mem with inside | ⟨inside, plain⟩
            · exact clear o inside
            · exact ⟨plain, open' o inside⟩
          · rw [depth, count] at balanced
            exact balanced
        · rename_i another
          have plain : c ≠ '(' ∧ c ≠ ')' := ⟨by simpa using other, by simpa using another⟩
          obtain ⟨⟨output', stack'⟩, unstacked, result⟩ := bind_eq_ok.mp result
          obtain ⟨members, suffix, count⟩ := unstack_spec unstacked
          refine ih (fun o mem => ?_)
            (forall_mem_cons.mpr ⟨plain.2, fun o mem => open' o (suffix.mem mem)⟩) ?_ result
          · rcases members o mem with inside | ⟨inside, apart⟩
            · exact clear o inside
            · exact ⟨apart, open' o inside⟩
          · rw [count_cons_of_ne plain.1, count]
            rwa [depth, turn_of_plain plain, Option.bind_some] at balanced

theorem combine_isForm {ordered : List Char} {stack result : List String}
    (plain : ∀ o ∈ ordered, o ≠ '(' ∧ o ≠ ')') (forms : ∀ t ∈ stack, IsForm t.toList)
    (combined : combine stack ordered = .ok result) : ∀ t ∈ result, IsForm t.toList := by
  induction ordered generalizing stack with
  | nil =>
    cases combined
    exact forms
  | cons c cs ih =>
    obtain ⟨first, others⟩ := forall_mem_cons.mp plain
    have operator : ∀ d ∈ [c], d ≠ '(' ∧ d ≠ ')' := by simpa using first
    unfold combine at combined
    dsimp only at combined
    split at combined
    · rename_i alphanumeric
      refine ih others (forall_mem_cons.mpr ⟨.inl ⟨c, toList_ofList, alphanumeric⟩, forms⟩) combined
    · split at combined
      · split at combined
        · rename_i a stack
          obtain ⟨operand, forms⟩ := forall_mem_cons.mp forms
          refine ih others (forall_mem_cons.mpr ⟨.inr ?_, forms⟩) combined
          have blank : Nested [' '] := .of_plain (by decide)
          simpa using IsGroup.intro ((Nested.of_plain operator).append (blank.append operand.nested))
        · cases combined
      · split at combined
        · rename_i b a stack
          obtain ⟨second, forms⟩ := forall_mem_cons.mp forms
          obtain ⟨first, forms⟩ := forall_mem_cons.mp forms
          refine ih others (forall_mem_cons.mpr ⟨.inr ?_, forms⟩) combined
          simpa using IsGroup.operation operator first.nested second.nested
        · cases combined

theorem prefixForm_isForm {label form : String} (balanced : Balanced label.toList)
    (result : prefixForm label = .ok form) : IsForm form.toList := by
  obtain ⟨ordered, arranged, result⟩ := bind_eq_ok.mp result
  obtain ⟨stack, combined, result⟩ := bind_eq_ok.mp result
  have kept : Nested (label.toList.filter (· != ' ')) := by
    rw [← filterMap_eq_filter]
    exact balanced.nested.filterMap rfl rfl fun c opens closes d kept => by
      cases (Option.guard_eq_some_iff.mp kept).1
      exact ⟨opens, closes⟩
  have plain := postfixForm_plain (forall_mem_nil _) (forall_mem_nil _)
    (nested_turned kept).balanced arranged
  have forms := combine_isForm plain (forall_mem_nil _) combined
  split at result
  · rename_i last
    cases result
    exact forms _ (mem_of_getLast? last)
  · cases result

end Label

namespace Smt

open Sexp

theorem IsAtom.nested {cs : List Char} (isAtom : IsAtom cs) : Nested cs := by
  refine .of_plain fun c mem => ?_
  have unmarked := isAtom.unmarked c mem
  simp only [marks, mem_cons, not_or] at unmarked
  exact ⟨unmarked.1, unmarked.2.1⟩

theorem Term.IsPlain.nested {t : Term} (plain : t.IsPlain) : Nested t.render.toList := by
  induction t with
  | number c => exact IsAtom.nested plain
  | var name => exact IsAtom.nested plain
  | mul a b iha ihb =>
    have group := @IsGroup.operation ['*'] _ _ (by decide) (iha plain.1) (ihb plain.2)
    simpa [render] using group.nested
  | add a b iha ihb =>
    have group := @IsGroup.operation ['+'] _ _ (by decide) (iha plain.1) (ihb plain.2)
    simpa [render] using group.nested

theorem Sentence.IsPlain.isGroup {t : Sentence} (plain : t.IsPlain) : IsGroup t.chars := by
  induction t with
  | atLeast l r =>
    simpa [chars] using @IsGroup.operation ['>', '='] _ _ (by decide) plain.1.nested plain.2.nested
  | join k gap l r ihl ihr =>
    obtain ⟨blanks, left, right⟩ := plain
    have space : Nested gap := .of_plain fun c mem => by
      rw [blanks c mem]
      decide
    have word : Nested k.word.toList := .of_plain (by cases k <;> decide)
    have group := IsGroup.intro (word.append ((space.append (ihl left).nested).append
      (space.append (ihr right).nested)))
    simpa [chars] using group

end Smt

/-! ## Guards -/

namespace Guard

variable {table : Text.Table} {s : String} {g : Guard}

open Smt.Sexp

/-- A guard that can be read: its label is empty or has a prefix form, the parentheses of the label are balanced,
propositions are named by words, and what they stand for is written down. -/
structure IsProper (g : Guard) : Prop where
  label : Balanced g.label.toList
  form : g.label.isEmpty = false → ∃ form, Label.prefixForm g.label = .ok form
  keys : ∀ entry ∈ g.lookup, IsWord entry.1
  spaces : ∀ entry ∈ g.lookup, ∃ is, Space.Comprises entry.2 is

theorem exists_literalTable {lookup : Text.Table} (spaces : ∀ entry ∈ lookup, ∃ is, Space.Comprises entry.2 is) :
    ∃ table, literalTable lookup = .ok table := by
  unfold literalTable
  generalize ([] : Text.Table) = start
  induction lookup generalizing start with
  | nil => exact ⟨start, rfl⟩
  | cons entry lookup ih =>
    obtain ⟨⟨is, comprises⟩, others⟩ := forall_mem_cons.mp spaces
    obtain ⟨sentence, reads⟩ := comprises.exists_reads
    obtain ⟨table, rest⟩ := ih others _
    exact ⟨table, bind_eq_ok.mpr ⟨_, bind_eq_ok.mpr ⟨_, reads.literals entry.1, rfl⟩, rest⟩⟩

theorem IsProper.exists_smt (proper : g.IsProper) : ∃ text, g.smt = .ok text := by
  unfold smt
  split
  · exact ⟨_, rfl⟩
  · rename_i labelled
    obtain ⟨form, prefixed⟩ := proper.form (by simpa using labelled)
    obtain ⟨table, listed⟩ := exists_literalTable proper.spaces
    exact ⟨_, bind_eq_ok.mpr ⟨form, prefixed, bind_eq_ok.mpr ⟨table, listed, rfl⟩⟩⟩

theorem isProper_of_label {r : Label.Rank} (p : Label.Formula r)
    (spelled : g.label.toList.filter (· != ' ') = p.chars) (keys : ∀ entry ∈ g.lookup, IsWord entry.1)
    (spaces : ∀ entry ∈ g.lookup, ∃ is, Space.Comprises entry.2 is) : g.IsProper := by
  refine ⟨?_, fun _ => ⟨p.form, p.prefixForm_eq spelled⟩, keys, spaces⟩
  rw [Smt.Sexp.Balanced, ← depth_filter, spelled]
  exact (Label.nested_chars p).balanced

/-- A table that puts groups in place of words. -/
def PutsGroups (table : Text.Table) : Prop := ∀ entry ∈ table, IsWord entry.1 ∧ IsGroup entry.2.toList

theorem PutsGroups.setEntry (puts : PutsGroups table) {k v : String} (word : IsWord k)
    (group : IsGroup v.toList) : PutsGroups (setEntry table k v) := by
  unfold Guard.setEntry
  split
  · intro entry mem
    obtain ⟨⟨n, w⟩, inside, rfl⟩ := mem_map.mp mem
    dsimp only
    split
    · exact ⟨(puts _ inside).1, group⟩
    · exact puts _ inside
  · exact forall_mem_append.mpr ⟨puts, by simpa using ⟨word, group⟩⟩

theorem putsGroups_literalTable {lookup table : Text.Table} (keys : ∀ entry ∈ lookup, IsWord entry.1)
    (spaces : ∀ entry ∈ lookup, ∃ is, Space.Comprises entry.2 is) (made : literalTable lookup = .ok table) :
    PutsGroups table := by
  refine foldlM_invariant (fun entry mem t t' puts entered => ?_) (forall_mem_nil _) made
  obtain ⟨entries, literals, same⟩ := bind_eq_ok.mp entered
  cases same
  obtain ⟨is, comprises⟩ := spaces entry mem
  obtain ⟨sentence, reads⟩ := comprises.exists_reads
  rw [reads.literals] at literals
  cases literals
  have word := keys entry mem
  have negated : IsWord ("!" ++ entry.1) := by
    refine ⟨by simp, ?_⟩
    rw [toList_append]
    exact forall_mem_append.mpr ⟨by decide, word.2⟩
  have group (sign : Bool) : IsGroup (sentence sign).text.toList := by
    rw [Smt.Sentence.text, toList_ofList]
    exact (reads.isPlain sign).isGroup
  exact (puts.setEntry negated (group true)).setEntry word (group false)

theorem letter_spec (c : Char) : (letter c = '(' ↔ c = '(') ∧ (letter c = ')' ↔ c = ')') := by
  unfold letter
  split
  · rename_i digit
    have small : ∀ d ∈ digits, Char.ofNat ('a'.toNat + (d.toNat - '0'.toNat)) ∉ ['(', ')'] ∧ d ∉ ['(', ')'] := by
      decide
    have letters := small c (mem_digits digit)
    simp only [mem_cons, not_mem_nil, or_false, not_or] at letters
    exact ⟨iff_of_false letters.1.1 letters.2.1, iff_of_false letters.1.2 letters.2.2⟩
  · simp

theorem isForm_letters (form : IsForm s.toList) : IsForm (letters s).toList := by
  rw [letters, toList_ofList]
  rcases form with ⟨c, single, alphanumeric⟩ | group
  · refine .inl ⟨letter c, by rw [single]; rfl, ?_⟩
    unfold letter
    split
    · rename_i digit
      have small : ∀ d ∈ digits, isAlphanumeric (Char.ofNat ('a'.toNat + (d.toNat - '0'.toNat))) := by
        decide
      exact small c (mem_digits digit)
    · exact alphanumeric
  · obtain ⟨inner, same, nested⟩ := group.exists_inner
    have mapped : Nested (inner.map letter) := by
      rw [← filterMap_eq_map]
      refine nested.filterMap rfl rfl fun c other other' d image => ?_
      cases image
      exact ⟨other ∘ (letter_spec c).1.mp, other' ∘ (letter_spec c).2.mp⟩
    rw [same]
    have result := IsGroup.intro mapped
    right
    simpa [show letter '(' = '(' from rfl, show letter ')' = ')' from rfl] using result

theorem IsWord.letters {k : String} (word : IsWord k) :
    (Guard.letters k).toList ≠ [] ∧ ∀ c ∈ (Guard.letters k).toList, c ≠ '(' ∧ c ≠ ')' := by
  rw [Guard.letters, toList_ofList]
  refine ⟨by simpa using word.1, fun c mem => ?_⟩
  obtain ⟨d, inside, rfl⟩ := mem_map.mp mem
  have plain := word.2 d inside
  simp only [mem_cons, not_mem_nil, or_false, not_or] at plain
  exact ⟨plain.1 ∘ (letter_spec d).1.mp, plain.2.1 ∘ (letter_spec d).2.mp⟩

theorem isForm_replaceAll {k v s : String} (nonempty : k.toList ≠ []) (plain : ∀ c ∈ k.toList, c ≠ '(' ∧ c ≠ ')')
    (nested : Nested v.toList) (single : ∀ c, k.toList = [c] → isAlphanumeric c → IsGroup v.toList)
    (form : IsForm s.toList) : IsForm (replaceAll k v s).toList := by
  rw [replaceAll_of_nonempty nonempty, toList_ofList]
  exact form.replaceFrom_word nonempty plain nested single

theorem isForm_foldl (puts : PutsGroups table) (form : IsForm s.toList) :
    IsForm (table.foldl (fun s (k, v) => replaceAll (letters k) v
      (replaceAll ("(" ++ letters k ++ ")") v s)) s).toList := by
  induction table generalizing s with
  | nil => exact form
  | cons entry table ih =>
    obtain ⟨⟨word, group⟩, others⟩ := forall_mem_cons.mp puts
    obtain ⟨nonempty, plain⟩ := IsWord.letters word
    refine ih others (isForm_replaceAll nonempty plain group.nested (fun _ _ _ => group) ?_)
    have pattern : ("(" ++ letters entry.1 ++ ")").toList = '(' :: ((letters entry.1).toList ++ [')']) := by simp
    rw [replaceAll_of_nonempty (by simp [pattern]), toList_ofList, pattern]
    exact form.replaceFrom_group plain group

theorem balanced_unwrapped (form : IsForm s.toList) : Balanced (unwrapped s).toList := by
  unfold unwrapped
  split
  · rename_i wrapped
    rcases form with ⟨c, single, _⟩ | group
    · rw [single] at wrapped
      simp [doublyWrapped] at wrapped
    · obtain ⟨inner, same, nested⟩ := group.exists_inner
      rw [toList_ofList, same]
      simpa using nested.balanced
  · exact form.nested.balanced

theorem IsProper.balanced (proper : g.IsProper) {text : String} (made : g.smt = .ok text) :
    Balanced text.toList := by
  unfold smt at made
  split at made
  · cases made
    rfl
  · obtain ⟨form, prefixed, made⟩ := bind_eq_ok.mp made
    obtain ⟨table, listed, made⟩ := bind_eq_ok.mp made
    have same := Except.ok.inj made
    have symbols : ∀ c ∈ [' ', '&', '|'], isAlphanumeric c = false := by decide
    -- blanks are dropped before, the connectives become words after propositions have been put in
    have written {k v s : String} (known : k ∈ [" ", "&", "|"]) (nested : Nested v.toList)
        (form : IsForm s.toList) : IsForm (replaceAll k v s).toList := by
      have spelled : ∃ c ∈ [' ', '&', '|'], k.toList = [c] ∧ c ≠ '(' ∧ c ≠ ')' := by
        simp only [mem_cons, not_mem_nil, or_false] at known
        rcases known with rfl | rfl | rfl
        exacts [⟨' ', by decide⟩, ⟨'&', by decide⟩, ⟨'|', by decide⟩]
      obtain ⟨c, symbol, same, plain⟩ := spelled
      refine isForm_replaceAll (by simp [same]) (by simpa [same] using plain) nested ?_ form
      intro d single alphanumeric
      cases same.symm.trans single
      rw [symbols c symbol] at alphanumeric
      cases alphanumeric
    have start := written (by decide : " " ∈ [" ", "&", "|"]) (v := "") .nil
      (Label.prefixForm_isForm proper.label prefixed)
    have entered := isForm_foldl (putsGroups_literalTable proper.keys proper.spaces listed) (isForm_letters start)
    rw [← same]
    exact balanced_unwrapped (written (by decide : "&" ∈ [" ", "&", "|"]) (.of_plain (by decide))
      (written (by decide : "|" ∈ [" ", "&", "|"]) (.of_plain (by decide)) entered))

end Guard

end Supermartingale
