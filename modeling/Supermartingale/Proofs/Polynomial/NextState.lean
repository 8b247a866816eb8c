import Supermartingale.Dynamics
import Supermartingale.Proofs.Polynomial.Unread
import Supermartingale.Proofs.Polynomial.Variable
import Supermartingale.Proofs.Polynomial.Written

/-!
# The next state in a polynomial

The next state is put into a polynomial one state variable after the other, and a text that has been put in is
searched for the later ones. With ten state variables the first one is found in the name of the tenth, and the rest
cannot be read.
-/

namespace Supermartingale

open List

/-! ## Broken texts

A key that is found in a longer name leaves the rest of that name behind the closing parenthesis of what
is put in. If the rest starts with a digit, the text cannot be read, and no later replacement repairs it. -/

/-- All characters of a text come from phrases. -/
def IsPhraseText (s : String) : Prop := ∀ c ∈ s.toList, Phrase.IsPhraseChar c

/-- A text with a digit directly behind a closing parenthesis. -/
structure Broken (s : String) : Prop where
  close : ∃ before d after, s.toList = before ++ ')' :: d :: after ∧ d.isDigit
  chars : IsPhraseText s

theorem Phrase.isPhraseText (p : Phrase .sum) : IsPhraseText p.text := by
  intro c mem
  rw [text, String.toList_ofList] at mem
  exact p.isPhraseChar_chars c mem

theorem IsPhraseText.enclose {v : String} (value : IsPhraseText v) :
    ∀ c ∈ ("(" ++ v ++ ")").toList, Phrase.IsPhraseChar c := by
  intro c mem
  rw [String.toList_append, String.toList_append, mem_append, mem_append] at mem
  rcases mem with (opening | inner) | closing
  · cases mem_singleton.mp opening
    exact .inr (by decide)
  · exact value c inner
  · cases mem_singleton.mp closing
    exact .inr (by decide)

theorem IsPhraseText.replaceAll {k v s : String} (text : IsPhraseText s) (nonempty : k.toList ≠ [])
    (value : IsPhraseText v) : IsPhraseText (Text.replaceAll k v s) := by
  intro c mem
  rw [Text.replaceAll_of_nonempty nonempty, String.toList_ofList] at mem
  exact (Text.mem_replaceFrom _ mem).elim (value c) (text c)

theorem IsKey.not_prefix_digit {k : String} (key : IsKey k) {d : Char} (digit : d.isDigit)
    (rest : List Char) : ¬ k.toList <+: d :: rest := by
  obtain ⟨c, cs, chars, outside⟩ := key.starts
  intro start
  rw [chars] at start
  obtain ⟨rfl, _⟩ := cons_prefix_cons.mp start
  exact outside (by simp [mem_digits digit])

namespace Broken

variable {s : String}

theorem read_eq_none (h : Broken s) : Expression.read s = none := by
  obtain ⟨before, d, after, split, digit⟩ := h.close
  have chars := h.chars
  rw [IsPhraseText, split] at chars
  have other : ∀ c ∈ ['\'', '"', '#', '\n'], ¬ Phrase.IsPhraseChar c := by
    unfold Phrase.IsPhraseChar
    decide
  rw [← String.ofList_toList (s := s), split]
  refine Expression.read_close_digit digit (fun c mem quote => ?_) fun mem => ?_
  · exact other c (mem_append_left ['\n'] quote) (chars c (mem_append_left _ mem))
  · exact other '\n' (by decide) (chars '\n' mem)

theorem replaceAll {k : String} (key : IsKey k) {v : String} (value : IsPhraseText v)
    (h : Broken s) : Broken (Text.replaceAll k ("(" ++ v ++ ")") s) := by
  refine ⟨?_, h.chars.replaceAll key.nonempty value.enclose⟩
  obtain ⟨before, d, after, split, digit⟩ := h.close
  refine ⟨Text.replaceFrom k.toList ("(" ++ v ++ ")").toList 0 before, d,
    Text.replaceFrom k.toList ("(" ++ v ++ ")").toList 0 after, ?_, digit⟩
  rw [Text.replaceAll_of_nonempty key.nonempty, String.toList_ofList, split,
    Text.replaceFrom_split _ (key.not_mem (by decide)) key.nonempty,
    Text.replaceFrom_cons _ (key.not_prefix_digit digit after)]

theorem substituteText {entries : List (String × String)} (keys : ∀ v ∈ entries, IsKey v.1)
    (values : ∀ v ∈ entries, IsPhraseText v.2) (h : Broken s) : Broken (Equation.substituteText entries s) := by
  induction entries generalizing s with
  | nil => exact h
  | cons entry rest ih =>
    obtain ⟨key, otherKeys⟩ := forall_mem_cons.mp keys
    obtain ⟨value, otherValues⟩ := forall_mem_cons.mp values
    exact ih otherKeys otherValues (h.replaceAll key value)

theorem of_longer {k v t : String} {c d : Char} {tail before after : List Char}
    (key : k.toList = c :: tail) (once : c ∉ tail) (known : IsKey k) (digit : d.isDigit)
    (split : t.toList = before ++ k.toList ++ d :: after) (value : IsPhraseText v)
    (text : IsPhraseText t) : Broken (Text.replaceAll k ("(" ++ v ++ ")") t) := by
  refine ⟨?_, text.replaceAll known.nonempty value.enclose⟩
  have inner := Text.replaceFrom_append ("(" ++ v ++ ")").toList known.nonempty (d :: after)
  rw [Text.replaceFrom_cons _ (known.not_prefix_digit digit after)] at inner
  refine ⟨Text.replaceFrom k.toList ("(" ++ v ++ ")").toList 0 before ++ '(' :: v.toList, d,
    Text.replaceFrom k.toList ("(" ++ v ++ ")").toList 0 after, ?_, digit⟩
  rw [Text.replaceAll_of_nonempty known.nonempty, String.toList_ofList, split]
  rw [key, append_assoc, cons_append] at *
  rw [Text.replaceFrom_head _ once, inner]
  simp

end Broken

variable {n : ℕ} {k : String}

/-! ## State variables -/

theorem mem_stateNames {s : String} : s ∈ Powers.stateNames n ↔ ∃ i < n, variableOf 'S' (i + 1) = s := by
  simp only [Powers.stateNames, mem_map, mem_range, variableOf_eq]

theorem nodup_stateNames (n : ℕ) : (Powers.stateNames n).Nodup := by
  refine List.Nodup.map_on ?_ nodup_range
  intro i _ j _ same
  have names : variableOf 'S' (i + 1) = variableOf 'S' (j + 1) := by
    rw [variableOf_eq, variableOf_eq]
    exact same
  exact Nat.succ.inj (variableOf_injective names)

/-- A name is a state variable or contains none. Constants, actions and disturbances contain none. -/
def Admits (n : ℕ) (s : String) : Prop := s ∈ Powers.stateNames n ∨ ∀ k ∈ Powers.stateNames n, ¬ k.toList <:+: s.toList

theorem isKey_stateName (h : k ∈ Powers.stateNames n) : IsKey k := by
  obtain ⟨i, _, rfl⟩ := mem_stateNames.mp h
  exact isKey_variableOf (by decide) _

theorem isUnknown_stateName (h : k ∈ Powers.stateNames n) : IsUnknown k := by
  obtain ⟨i, _, rfl⟩ := mem_stateNames.mp h
  exact isUnknown_variableOf (by decide) _

/-- Up to nine state variables are apart from each other and from all other names. -/
theorem Admits.apart (few : n ≤ 9) {k s : String} (key : k ∈ Powers.stateNames n) (h : Admits n s) : Apart k s := by
  rcases h with state | other
  · obtain ⟨i, hi, rfl⟩ := mem_stateNames.mp key
    obtain ⟨j, hj, rfl⟩ := mem_stateNames.mp state
    exact apart_variableOf 'S' _ (by omega)
  · exact .inr (other k key)

/-- A polynomial over state variables and other names. -/
structure StatePolynomial (n : ℕ) where
  equation : Equation
  written : equation.IsWritten
  names : ∀ s ∈ equation.names, Admits n s

/-- The next value of every state variable, as a sum over state variables and other names. -/
structure NextState (n : ℕ) where
  transforms : List (Phrase .sum)
  length : transforms.length = n
  names : ∀ t ∈ transforms, ∀ s ∈ t.names, Admits n s

namespace NextState

variable {n : ℕ}

def entries (x : NextState n) : List (String × Phrase .sum) := (Powers.stateNames n).zip x.transforms

def table (x : NextState n) : List (String × String) := x.entries.map (fun v => (v.1, v.2.text))

theorem keys_entries (x : NextState n) : x.entries.map (·.1) = Powers.stateNames n := by
  rw [entries, ← unzip_fst, unzip_zip]
  simp [Powers.stateNames, x.length]

end NextState

/-! ## One after the other and all at once -/

/-- The values of names where some of them take the values of sums, all at once. -/
def simultaneous {R : Type*} [CommRing R] [Algebra ℚ R] (ρ : String → R)
    (entries : List (String × Phrase .sum)) (s : String) : R :=
  match entries.lookup s with
  | some v => v.tree.eval ρ
  | none => ρ s

/-- No sum changes its value when the names behind it are moved. -/
def Independent : List (String × Phrase .sum) → Prop
  | [] => True
  | (_, v) :: rest => (∀ ρ : String → ℝ, v.tree.eval (simultaneous ρ rest) = v.tree.eval ρ) ∧ Independent rest

section

variable (ρ : String → ℝ) {entries : List (String × Phrase .sum)}

theorem simultaneous_cons (k : String) (v : Phrase .sum) (rest : List (String × Phrase .sum)) :
    simultaneous ρ ((k, v) :: rest) = Function.update (simultaneous ρ rest) k (v.tree.eval ρ) := by
  funext s
  by_cases same : s = k
  · subst same
    simp [simultaneous]
  · simp [simultaneous, lookup_cons, Function.update_of_ne same, beq_eq_false_iff_ne.mpr same]

/-- Where no sum depends on the names behind it, one after the other is all at once. -/
theorem Independent.sequential_eq (h : Independent entries) :
    Phrase.sequential ρ entries = simultaneous ρ entries := by
  induction entries with
  | nil => rfl
  | cons entry rest ih =>
    obtain ⟨k, v⟩ := entry
    obtain ⟨first, others⟩ := h
    rw [Phrase.sequential, ih others, simultaneous_cons, first ρ]

/-- If one after the other is all at once for the keys, then no sum depends on the names behind it. -/
theorem independent_of_sequential_eq (nodup : (entries.map (·.1)).Nodup)
    (same : ∀ k ∈ entries.map (·.1), ∀ ρ : String → ℝ,
      Phrase.sequential ρ entries k = simultaneous ρ entries k) : Independent entries := by
  induction entries with
  | nil => trivial
  | cons entry rest ih =>
    obtain ⟨k, v⟩ := entry
    rw [map_cons, nodup_cons] at nodup
    have others : Independent rest := by
      refine ih nodup.2 fun s mem ρ => ?_
      have different : s ≠ k := by
        rintro rfl
        exact nodup.1 mem
      have equal := same s (mem_cons_of_mem _ mem) ρ
      rwa [Phrase.sequential, simultaneous_cons, Function.update_of_ne different,
        Function.update_of_ne different] at equal
    refine ⟨fun ρ => ?_, others⟩
    have equal := same k mem_cons_self ρ
    rwa [Phrase.sequential, simultaneous_cons, Function.update_self, Function.update_self,
      others.sequential_eq] at equal

end

/-- The text of a polynomial with the next state put in is a phrase, which has the value of the
polynomial where the state variables are moved one after the other. -/
theorem StatePolynomial.exists_phrase (few : n ≤ 9) (e : StatePolynomial n)
    (x : NextState n) : ∃ p : Phrase .sum, p.text = e.equation.substitute x.table ∧
      ∀ ρ : String → ℝ, p.tree.eval ρ = e.equation.eval (Phrase.sequential ρ x.entries) := by
  obtain ⟨p, writes⟩ := Equation.exists_phrase e.written
  refine ⟨p.substAll x.entries, ?_, fun ρ => ?_⟩
  · rw [Equation.substitute, ← writes.text, NextState.table]
    refine (Phrase.substituteText_text (Admits n) ?_ ?_ ?_).symm
    · intro entry mem
      have key := (of_mem_zip mem).1
      exact ⟨isKey_stateName key, fun s admitted => admitted.apart few key⟩
    · intro entry mem
      exact x.names _ (of_mem_zip mem).2
    · rw [writes.names]
      exact e.names
  · rw [Phrase.eval_substAll, writes.eval]

def StatePolynomial.ofName {n : ℕ} {k : String} (h : k ∈ Powers.stateNames n) : StatePolynomial n where
  equation := ⟨[⟨.given (.int 1), [(k, .int 1)]⟩]⟩
  written := by
    intro m mem
    cases mem_singleton.mp mem
    refine ⟨isNumeral_one, fun v power => ?_⟩
    cases mem_singleton.mp power
    exact ⟨isUnknown_stateName h, isExponent_one⟩
  names := by
    intro s mem
    cases mem_singleton.mp mem
    exact .inl h

theorem StatePolynomial.eval_ofName (h : k ∈ Powers.stateNames n)
    (ρ : String → ℝ) : (ofName h).equation.eval ρ = ρ k := by
  simp [ofName, Equation.eval, Monomial.eval, Monomial.powersValue, Scalar.written, Number.exponent]

theorem broken_tenth (x : NextState n) (many : 9 < n) :
    ∃ e : StatePolynomial n, Broken (e.equation.substitute x.table) := by
  have tenth : "S10" ∈ Powers.stateNames n := mem_stateNames.mpr ⟨9, many, rfl⟩
  have split : ∃ v rest, x.entries = ("S1", v) :: rest := by
    match h : x.transforms with
    | [] =>
      have none := x.length
      simp only [h, length_nil] at none
      omega
    | v :: vs =>
      obtain ⟨m, rfl⟩ : ∃ m, n = m + 1 := ⟨n - 1, by omega⟩
      have names : ∃ ks, Powers.stateNames (m + 1) = "S1" :: ks := by
        rw [Powers.stateNames, range_succ_eq_map, map_cons]
        exact ⟨_, rfl⟩
      obtain ⟨ks, first⟩ := names
      exact ⟨v, ks.zip vs, by rw [NextState.entries, h, first, zip_cons_cons]⟩
  obtain ⟨v, rest, entries⟩ := split
  have keys : ∀ entry ∈ rest.map fun v => (v.1, v.2.text), IsKey entry.1 ∧ IsPhraseText entry.2 := by
    intro entry mem
    obtain ⟨w, later, rfl⟩ := mem_map.mp mem
    have inside : w ∈ x.entries := entries ▸ mem_cons_of_mem _ later
    exact ⟨isKey_stateName (of_mem_zip inside).1, w.2.isPhraseText⟩
  have text : (StatePolynomial.ofName tenth).equation.text = "(S10)" := by rfl
  have key : "S1".toList = 'S' :: ['1'] := by decide
  have longer : "(S10)".toList = ['('] ++ "S1".toList ++ '0' :: [')'] := by decide
  have chars : IsPhraseText "(S10)" := by
    unfold IsPhraseText Phrase.IsPhraseChar
    decide
  have first : Broken (Text.replaceAll "S1" ("(" ++ v.text ++ ")") "(S10)") :=
    Broken.of_longer key (by decide) (isKey_stateName (n := 1) (by decide)) (by decide) longer
      v.isPhraseText chars
  refine ⟨.ofName tenth, ?_⟩
  rw [Equation.substitute, NextState.table, entries, text, map_cons, Equation.substituteText, foldl_cons]
  exact first.substituteText (fun entry mem => (keys entry mem).1)
    fun entry mem => (keys entry mem).2

/-! ## When the next state is put in correctly -/

/-- Every polynomial with the next state put in is read as the polynomial at the next state exactly if
there are at most nine state variables and no entry of the next state changes when the state variables
behind it are moved. -/
theorem NextState.substitute_eq_simultaneous_iff {n : ℕ} (x : NextState n) :
    (∀ e : StatePolynomial n, Denotes (e.equation.substitute x.table)
      fun ρ => e.equation.eval (simultaneous ρ x.entries)) ↔ n ≤ 9 ∧ Independent x.entries := by
  constructor
  · intro correct
    have few : n ≤ 9 := by
      by_contra many
      obtain ⟨e, broken⟩ := broken_tenth x (by omega)
      obtain ⟨tree, read, _⟩ := correct e
      rw [broken.read_eq_none] at read
      cases read
    refine ⟨few, independent_of_sequential_eq ?_ fun k key ρ => ?_⟩
    · rw [x.keys_entries]
      exact nodup_stateNames n
    · rw [x.keys_entries] at key
      obtain ⟨p, text, value⟩ := (StatePolynomial.ofName key).exists_phrase few x
      have denotes := correct (.ofName key)
      rw [← text] at denotes
      have same := (value ρ).symm.trans (denotes.eq_eval ρ)
      rwa [StatePolynomial.eval_ofName, StatePolynomial.eval_ofName] at same
  · rintro ⟨few, independent⟩ e
    obtain ⟨p, text, value⟩ := e.exists_phrase few x
    rw [← text]
    exact p.denotes fun ρ => by rw [value, independent.sequential_eq]

def Phrase.ofStateName {n : ℕ} {k : String} (h : k ∈ Powers.stateNames n) : Phrase .sum :=
  .plain (.single (.unsigned (.lone (.name k (isUnknown_stateName h)))))

def stateDifference : StatePolynomial 2 where
  equation := ⟨[⟨.exact 1, [("S1", .int 1)]⟩, ⟨.exact (-1), [("S2", .int 1)]⟩]⟩
  written := by
    have first : IsUnknown "S1" := isUnknown_stateName (n := 2) (by decide)
    have second : IsUnknown "S2" := isUnknown_stateName (n := 2) (by decide)
    intro m mem
    rcases mem_pair.mp mem with rfl | rfl
    · refine ⟨by decide +kernel, fun v power => ?_⟩
      cases mem_singleton.mp power
      exact ⟨first, isExponent_one⟩
    · refine ⟨by decide +kernel, fun v power => ?_⟩
      cases mem_singleton.mp power
      exact ⟨second, isExponent_one⟩
  names := by
    intro s mem
    exact .inl ((by decide : ∀ s ∈ ["S1", "S2"], s ∈ Powers.stateNames 2) s mem)

def exchange : NextState 2 where
  transforms := [.ofStateName (n := 2) (k := "S2") (by decide), .ofStateName (n := 2) (k := "S1") (by decide)]
  length := rfl
  names := by
    intro t mem s inside
    left
    rcases mem_pair.mp mem with rfl | rfl
    · cases mem_singleton.mp inside
      decide
    · cases mem_singleton.mp inside
      decide

/-- Exchanging two state variables turns their difference into zero. -/
theorem not_denotes_exchanged : exchange.table = [("S1", "S2"), ("S2", "S1")] ∧
      ¬ Denotes (stateDifference.equation.substitute exchange.table) fun ρ =>
        stateDifference.equation.eval (simultaneous ρ exchange.entries) := by
  refine ⟨by decide, fun denotes => ?_⟩
  obtain ⟨p, text, value⟩ := stateDifference.exists_phrase (by decide) exchange
  rw [← text] at denotes
  have same := (value _).symm.trans (denotes.eq_eval fun s => if s = "S2" then 1 else 0)
  have entries : exchange.entries = [("S1", .ofStateName (n := 2) (k := "S2") (by decide)),
      ("S2", .ofStateName (n := 2) (k := "S1") (by decide))] := by rfl
  rw [entries, simultaneous_cons, simultaneous_cons] at same
  simp [Phrase.sequential, simultaneous, Phrase.ofStateName, Phrase.tree, Expression.eval,
    stateDifference, Equation.eval, Monomial.eval, Monomial.powersValue, Scalar.written,
    Number.exponent, Function.update] at same

end Supermartingale
