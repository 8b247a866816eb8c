import Mathlib.Data.List.TakeWhile
import Supermartingale.Hoa
import Supermartingale.Proofs.Polynomial.Coefficient

/-!
# Texts as words with blanks between them

An automaton text is a list of words with any blanks between them; only two digits of different words have to
be kept apart. Each reader takes the word that comes next and leaves a text of the words behind it.
-/

namespace Supermartingale.Hoa

open List

variable {isOver : List Char → Bool} {rest : List Char}

abbrev Word := List Char

/-- A text of some words. A word that ends in a digit is not followed by a digit. -/
inductive Spaced : List Word → List Char → Prop where
  | nil {gap : List Char} (blank : ∀ c ∈ gap, isSpace c) : Spaced [] gap
  | cons {gap w rest : List Char} {ws : List Word} (blank : ∀ c ∈ gap, isSpace c) (nonempty : w ≠ [])
      (ends : ∀ c ∈ w.getLast?, c.isDigit → ∀ d ∈ rest.head?, ¬ d.isDigit) (behind : Spaced ws rest) :
      Spaced (w :: ws) (gap ++ (w ++ rest))

/-- A word does not begin with a blank. -/
def Visible (w : Word) : Prop := ∀ c ∈ w.head?, isSpace c = false

instance (w : Word) : Decidable (Visible w) := Option.decidableForallMem _

/-- No text begins with both words. -/
abbrev Differ (v w : Word) : Prop := ¬ v <+: w ∧ ¬ w <+: v

theorem differ_of_head {v w : Word} {c d : Char} (first : v.head? = some c) (second : w.head? = some d)
    (other : c ≠ d) : Differ v w := by
  obtain ⟨vs, rfl⟩ := List.head?_eq_some_iff.mp first
  obtain ⟨ws, rfl⟩ := List.head?_eq_some_iff.mp second
  exact ⟨fun starts => other (cons_prefix_cons.mp starts).1,
    fun starts => other (cons_prefix_cons.mp starts).1.symm⟩

theorem demand_eq_ok {α : Type} {read : List Char → Option α} {cs : List Char} {x : α} (found : read cs = some x) :
    demand read cs = .ok x := by
  rw [demand, found]

theorem isSpace_of_isDigit {c : Char} (digit : c.isDigit) : isSpace c = false := by
  cases space : isSpace c with
  | false => rfl
  | true =>
    simp only [isSpace, Bool.or_eq_true, beq_iff_eq] at space
    rcases space with (((rfl | rfl) | rfl) | rfl) | rfl <;> cases digit

namespace Spaced

variable {w v : Word} {ws : List Word} {text cs : List Char} {keys : List String} {s : String} {α : Type}
  {read : List Char → Option (α × List Char)} {spell : α → Word} {xs : List α}

theorem length_le (spaced : Spaced ws text) : ws.length ≤ text.length := by
  induction spaced with
  | nil => exact Nat.zero_le _
  | @cons gap w rest ws _ nonempty _ _ ih =>
    have positive := length_pos_of_ne_nil nonempty
    simp only [length_cons, length_append]
    omega

theorem exists_rest (spaced : Spaced (w :: ws) text) (visible : Visible w) :
    ∃ rest, skipSpaces text = w ++ rest ∧ Spaced ws rest ∧
      ∀ c ∈ w.getLast?, c.isDigit → ∀ d ∈ rest.head?, ¬ d.isDigit := by
  cases spaced with
  | @cons gap _ rest _ blank nonempty ends behind =>
    refine ⟨rest, ?_, behind, ends⟩
    obtain ⟨c, cs, rfl⟩ := exists_cons_of_ne_nil nonempty
    rw [skipSpaces, dropWhile_append_of_pos blank, cons_append,
      dropWhile_cons_of_neg (by simp [visible c rfl])]

theorem head_cases (spaced : Spaced (w :: ws) text) {c : Char} (first : c ∈ text.head?) :
    isSpace c ∨ c ∈ w.head? := by
  cases spaced with
  | @cons gap _ rest _ blank nonempty _ _ =>
    cases gap with
    | cons d ds =>
      cases first
      exact .inl (blank _ mem_cons_self)
    | nil =>
      obtain ⟨d, ds, rfl⟩ := exists_cons_of_ne_nil nonempty
      exact .inr first

def unwords (ws : List Word) : List Char := ws.flatMap fun w => ' ' :: w

theorem spaced_unwords {ws : List Word} (nonempty : ∀ w ∈ ws, w ≠ []) : Spaced ws (unwords ws) := by
  induction ws with
  | nil => exact .nil (forall_mem_nil _)
  | cons w ws ih =>
    obtain ⟨first, others⟩ := forall_mem_cons.mp nonempty
    have blank : ∀ c ∈ [' '], isSpace c := by decide
    refine .cons blank first (fun c _ _ d head => ?_) (ih others)
    cases ws with
    | nil => cases head
    | cons v ws =>
      cases head
      decide

/-! ## Fixed words -/

theorem word? {w : String} (spaced : Spaced (w.toList :: ws) text) (visible : Visible w.toList) :
    ∃ rest, Hoa.word? w text = some rest ∧ Spaced ws rest := by
  obtain ⟨rest, skipped, behind, _⟩ := spaced.exists_rest visible
  exact ⟨rest, Text.dropLeading?_eq_some.mpr skipped, behind⟩

theorem word?_eq_none {w : String} (spaced : Spaced (v :: ws) text) (visible : Visible v)
    (differ : Differ w.toList v) : Hoa.word? w text = none := by
  obtain ⟨rest, skipped, _, _⟩ := spaced.exists_rest visible
  refine Option.eq_none_iff_forall_ne_some.mpr fun behind found => ?_
  rw [Hoa.word?, Text.dropLeading?_eq_some, skipped] at found
  rcases prefix_or_prefix_of_prefix (prefix_append v rest) ⟨behind, found.symm⟩ with longer | shorter
  · exact differ.2 longer
  · exact differ.1 shorter

theorem oneOf? {w : String} (mem : w ∈ keys) (visible : Visible w.toList)
    (differ : ∀ k ∈ keys, k ≠ w → Differ k.toList w.toList) (spaced : Spaced (w.toList :: ws) text) :
    ∃ rest, Hoa.oneOf? keys text = some (w, rest) ∧ Spaced ws rest := by
  induction keys with
  | nil => cases mem
  | cons k keys ih =>
    obtain ⟨first, others⟩ := forall_mem_cons.mp differ
    unfold Hoa.oneOf?
    by_cases same : k = w
    · subst same
      obtain ⟨rest, found, behind⟩ := spaced.word? visible
      exact ⟨rest, by rw [found], behind⟩
    · rw [spaced.word?_eq_none visible (first same)]
      exact ih ((mem_cons.mp mem).resolve_left (Ne.symm same)) others

theorem oneOf?_eq_none (visible : Visible v) (differ : ∀ k ∈ keys, Differ k.toList v)
    (spaced : Spaced (v :: ws) text) : Hoa.oneOf? keys text = none := by
  induction keys with
  | nil => rfl
  | cons k keys ih =>
    obtain ⟨first, others⟩ := forall_mem_cons.mp differ
    rw [Hoa.oneOf?, spaced.word?_eq_none visible first]
    exact ih others

/-! ## Numerals and quoted texts -/

theorem numeral? {ds : Word} (nonempty : ds ≠ []) (digits : ∀ c ∈ ds, c.isDigit) (spaced : Spaced (ds :: ws) text) :
    ∃ rest, Hoa.numeral? text = some (ds, rest) ∧ Spaced ws rest := by
  have visible : Visible ds := fun c first => isSpace_of_isDigit (digits c (mem_of_mem_head? first))
  obtain ⟨rest, skipped, behind, ends⟩ := spaced.exists_rest visible
  -- the digits end with the word
  have stops : rest.takeWhile Char.isDigit = [] ∧ rest.dropWhile Char.isDigit = rest := by
    cases rest with
    | nil => exact ⟨rfl, rfl⟩
    | cons d rest =>
      have last := ends (ds.getLast nonempty) (List.getLast?_eq_some_getLast nonempty)
        (digits _ (getLast_mem nonempty)) d rfl
      exact ⟨takeWhile_cons_of_neg last, dropWhile_cons_of_neg last⟩
  refine ⟨rest, ?_, behind⟩
  unfold Hoa.numeral?
  dsimp only
  rw [skipped, takeWhile_append_of_pos digits, dropWhile_append_of_pos digits, stops.1, stops.2,
    append_nil]
  obtain ⟨c, cs, rfl⟩ := exists_cons_of_ne_nil nonempty
  rfl

theorem numeral?_eq_none (visible : Visible v) (other : ∃ c, v.head? = some c ∧ ¬ c.isDigit)
    (spaced : Spaced (v :: ws) text) : Hoa.numeral? text = none := by
  obtain ⟨rest, skipped, _, _⟩ := spaced.exists_rest visible
  obtain ⟨c, first, other⟩ := other
  obtain ⟨cs, rfl⟩ := List.head?_eq_some_iff.mp first
  unfold Hoa.numeral?
  dsimp only
  rw [skipped, cons_append, takeWhile_cons_of_neg other]

/-- A text without quotes, backslashes and line ends. -/
abbrev Plain (s : String) : Prop := ∀ c ∈ s.toList, c ≠ '"' ∧ c ≠ '\\' ∧ c ≠ '\n'

/-- Whether a text can stand between quotes: a backslash takes the next character with it. -/
def enclosed : List Char → Bool
  | [] => true
  | '\\' :: c :: cs => c != '\n' && enclosed cs
  | c :: cs => c != '"' && c != '\\' && c != '\n' && enclosed cs

def quote (s : String) : Word := '"' :: (s.toList ++ ['"'])

theorem quotedInside_append (inside : enclosed cs) (acc rest : List Char) :
    quotedInside acc (cs ++ '"' :: rest) = some (cs.reverse ++ acc, rest) := by
  fun_induction enclosed cs generalizing acc with
  | case1 => simp [quotedInside]
  | case2 c cs ih =>
    obtain ⟨other, others⟩ := Bool.and_eq_true_iff.mp inside
    rw [cons_append, cons_append, quotedInside, ih others]
    · simp
    · simpa using other
  | case3 c cs _ ih =>
    simp only [Bool.and_eq_true, bne_iff_ne] at inside
    obtain ⟨⟨⟨quote, backslash⟩, newline⟩, others⟩ := inside
    rw [cons_append, quotedInside, ih others, reverse_cons, append_assoc, singleton_append]
    · exact newline
    · exact quote
    · exact fun _ same _ => backslash same
    · exact fun _ _ same _ => backslash same

theorem enclosed_of_plain (plain : ∀ c ∈ cs, c ≠ '"' ∧ c ≠ '\\' ∧ c ≠ '\n') : enclosed cs := by
  induction cs with
  | nil => rfl
  | cons c cs ih =>
    obtain ⟨⟨quote, backslash, newline⟩, others⟩ := forall_mem_cons.mp plain
    rw [enclosed]
    · simp [quote, backslash, newline, ih others]
    · exact fun _ _ same _ => backslash same

theorem quotation? (inside : enclosed s.toList) (spaced : Spaced (quote s :: ws) text) :
    ∃ rest, Hoa.quoted? text = some (Text.stripChars ['"'] s, rest) ∧ Spaced ws rest := by
  have visible : Visible (quote s) := by
    intro c first
    cases first
    decide
  obtain ⟨rest, skipped, behind, _⟩ := spaced.exists_rest visible
  refine ⟨rest, ?_, behind⟩
  rw [Hoa.quoted?, skipped, quote, cons_append, append_assoc, singleton_append]
  change (quotedInside [] (s.toList ++ '"' :: rest)).map _ = _
  rw [quotedInside_append inside]
  simp

theorem quoted? (plain : Plain s) (spaced : Spaced (quote s :: ws) text) :
    ∃ rest, Hoa.quoted? text = some (s, rest) ∧ Spaced ws rest := by
  have free : Text.stripChars ['"'] s = s := Text.stripChars_eq_self fun c mem => by simpa using (plain c mem).1
  have found := spaced.quotation? (enclosed_of_plain plain)
  rwa [free] at found

theorem quoted?_eq_none (visible : Visible v) (other : ∃ c, v.head? = some c ∧ c ≠ '"')
    (spaced : Spaced (v :: ws) text) : Hoa.quoted? text = none := by
  obtain ⟨rest, skipped, _, _⟩ := spaced.exists_rest visible
  obtain ⟨c, first, other⟩ := other
  obtain ⟨cs, rfl⟩ := List.head?_eq_some_iff.mp first
  rw [Hoa.quoted?, skipped, cons_append]
  split
  · rename_i same
    exact absurd (List.cons.inj same).1 other
  · rfl

theorem all
    (reads : ∀ x ∈ xs, ∀ ws text, Spaced (spell x :: ws) text → ∃ rest, read text = some (x, rest) ∧ Spaced ws rest)
    (stops : ∀ text, Spaced (w :: ws) text → read text = none) (spaced : Spaced (xs.map spell ++ w :: ws) text) :
    ∃ rest, Hoa.all read text = (xs, rest) ∧ Spaced (w :: ws) rest := by
  have enough : xs.length < text.length := by
    have bound := spaced.length_le
    simp only [length_append, length_map, length_cons] at bound
    omega
  unfold Hoa.all
  generalize text.length = fuel at enough
  induction xs generalizing fuel text with
  | nil =>
    cases fuel with
    | zero => exact absurd enough (Nat.not_lt_zero _)
    | succ fuel =>
      rw [many, stops text spaced]
      exact ⟨text, rfl, spaced⟩
  | cons x xs ih =>
    cases fuel with
    | zero => exact absurd enough (Nat.not_lt_zero _)
    | succ fuel =>
      obtain ⟨first, others⟩ := forall_mem_cons.mp reads
      obtain ⟨behind, found, further⟩ := first _ _ spaced
      obtain ⟨rest, read, left⟩ := ih others further fuel (by simpa using enough)
      rw [many, found]
      dsimp only
      rw [read]
      exact ⟨rest, rfl, left⟩

theorem atLeastOne (nonempty : xs ≠ [])
    (reads : ∀ x ∈ xs, ∀ ws text, Spaced (spell x :: ws) text → ∃ rest, read text = some (x, rest) ∧ Spaced ws rest)
    (stops : ∀ text, Spaced (w :: ws) text → read text = none) (spaced : Spaced (xs.map spell ++ w :: ws) text) :
    ∃ rest, Hoa.atLeastOne read text = .ok (xs, rest) ∧ Spaced (w :: ws) rest := by
  obtain ⟨x, xs, rfl⟩ := exists_cons_of_ne_nil nonempty
  obtain ⟨first, others⟩ := forall_mem_cons.mp reads
  obtain ⟨behind, found, further⟩ := first _ _ spaced
  obtain ⟨rest, read, left⟩ := further.all others stops
  refine ⟨rest, ?_, left⟩
  rw [Hoa.atLeastOne, demand_eq_ok found]
  simp only [bind, Except.bind, read]
  rfl

end Spaced

/-! ## Parts with numbers -/

/-- A part of a text is read with a result, or else one of its numbers is too long. -/
def Gives {α : Type} (r : Except Error α) (short : Prop) (result : α → Prop) : Prop :=
  (short → ∃ x, r = .ok x ∧ result x) ∧ (¬ short → r = .error .numeralTooLong)

namespace Gives

variable {α β : Type} {r : Except Error α} {short more : Prop} {P : α → Prop} {Q : β → Prop} {f : α → Except Error β}
  {x : α}

theorem ok (result : P x) : Gives (.ok x) True P := ⟨fun _ => ⟨x, rfl, result⟩, fun long => absurd trivial long⟩

theorem bind (first : Gives r short P) (second : ∀ x, P x → Gives (f x) more Q) :
    Gives (r >>= f) (short ∧ more) Q := by
  refine ⟨fun both => ?_, fun long => ?_⟩
  · obtain ⟨x, rfl, result⟩ := first.1 both.1
    exact (second x result).1 both.2
  · by_cases both : short
    · obtain ⟨x, rfl, result⟩ := first.1 both
      exact (second x result).2 fun rest => long ⟨both, rest⟩
    · rw [first.2 both]
      rfl

theorem of_ok (first : r = .ok x) (second : Gives (f x) short Q) : Gives (r >>= f) short Q := by
  rw [first]
  exact second

theorem congr {R : α → Prop} (gives : Gives r short P) (same : short ↔ more) (weaker : ∀ x, P x → R x) :
    Gives r more R := by
  refine ⟨fun holds => ?_, fun long => gives.2 fun holds => long (same.mp holds)⟩
  obtain ⟨x, result, holds⟩ := gives.1 (same.mpr holds)
  exact ⟨x, result, weaker x holds⟩

end Gives

/-- Words of digits. -/
abbrev Digits := {ds : Word // ds ≠ [] ∧ ∀ c ∈ ds, c.isDigit}

def Digits.isShort (ds : Digits) : Prop := ds.1.length ≤ digitLimit

def Digits.value (ds : Digits) : ℕ := digitsValue ds.1

theorem exists_head_digits (ds : Digits) : ∃ c, ds.1.head? = some c ∧ c.isDigit := by
  obtain ⟨c, cs, same⟩ := exists_cons_of_ne_nil ds.2.1
  exact ⟨c, by rw [same]; rfl, ds.2.2 c (by rw [same]; exact mem_cons_self)⟩

theorem visible_digits (ds : Digits) : Visible ds.1 := fun c first =>
  isSpace_of_isDigit (ds.2.2 c (mem_of_mem_head? first))

theorem differ_digits {w : Word} {c : Char} (first : w.head? = some c) (other : ¬ c.isDigit) (ds : Digits) :
    Differ w ds.1 := by
  obtain ⟨d, second, digit⟩ := exists_head_digits ds
  exact differ_of_head first second (by rintro rfl; exact other digit)

theorem gives_settle (ended : isOver rest) (ds : Digits) :
    Gives (settle isOver rest ds.1) ds.isShort (· = ds.value) := by
  refine ⟨fun short => ⟨_, if_pos short, rfl⟩, fun long => ?_⟩
  exact (if_neg long).trans (if_pos ended)

theorem gives_settleAll (ended : isOver rest) (dss : List Digits) :
    Gives ((dss.map Subtype.val).mapM (settle isOver rest)) (∀ ds ∈ dss, ds.isShort) (· = dss.map Digits.value) := by
  induction dss with
  | nil => exact ⟨fun _ => ⟨[], rfl, rfl⟩, fun long => absurd (forall_mem_nil _) long⟩
  | cons ds dss ih =>
    rw [map_cons, mapM_cons]
    refine ((gives_settle ended ds).bind (fun m same => ih.bind (fun ms sames => Gives.ok ?_))).congr ?_ fun _ => id
    · rw [same, sames, map_cons]
    · simp

/-! ### Numbers -/

def numeral (n : ℕ) : Word := Nat.toDigits 10 n

theorem numeral_ne_nil (n : ℕ) : numeral n ≠ [] := Nat.toDigits_ne_nil

def digitsOf (n : ℕ) : Digits := ⟨numeral n, numeral_ne_nil n, isDigit_toDigits n⟩

theorem isShort_digitsOf (n : ℕ) : (digitsOf n).isShort ↔ isWritable n := by
  change (Nat.toDigits 10 n).length ≤ digitLimit ↔ _
  rw [Nat.length_toDigits_le_iff (by decide) (by decide), isWritable_iff]

theorem value_digitsOf (n : ℕ) : (digitsOf n).value = n := digitsValue_toDigits n

theorem Spaced.number? {n : ℕ} {ws : List Word} {text : List Char} (spaced : Spaced (numeral n :: ws) text) :
    ∃ rest, Hoa.numeral? text = some (numeral n, rest) ∧ Spaced ws rest :=
  spaced.numeral? (numeral_ne_nil n) (isDigit_toDigits n)

theorem gives_number (ended : isOver rest) (n : ℕ) : Gives (settle isOver rest (numeral n)) (isWritable n) (· = n) :=
  (gives_settle ended (digitsOf n)).congr (isShort_digitsOf n) fun _ same => same.trans (value_digitsOf n)

theorem map_digitsOf (ns : List ℕ) :
    (ns.map digitsOf).map Subtype.val = ns.map numeral ∧ (ns.map digitsOf).map Digits.value = ns := by
  simp only [map_map]
  exact ⟨rfl, map_id'' value_digitsOf ns⟩

theorem gives_numbers (ended : isOver rest) (ns : List ℕ) :
    Gives ((ns.map numeral).mapM (settle isOver rest)) (∀ n ∈ ns, isWritable n) (· = ns) := by
  have gives := gives_settleAll ended (ns.map digitsOf)
  rw [(map_digitsOf ns).1, (map_digitsOf ns).2] at gives
  exact gives.congr (by simp [isShort_digitsOf]) fun _ => id

end Supermartingale.Hoa
