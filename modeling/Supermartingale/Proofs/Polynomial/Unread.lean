import Mathlib.Data.List.Chain
import Supermartingale.Polynomial.Expression
import Supermartingale.Proofs.Text.Replace

/-!
# A numeral behind a closing parenthesis is not read

Only a mark can stand directly behind a closing parenthesis: every reader takes words off the front of a list, and one
that goes on with something starts with a mark. So a digit there makes a text unreadable, since no word goes across
the parenthesis outside a quotation.
-/

namespace Supermartingale

open List

namespace Expression

/-! ## Words that readers take -/

/-- Behind a closing parenthesis there is a mark. -/
def Follows (s t : Token) : Prop := s = .mark ")" → ∃ m, t = .mark m

/-- The words in front of `rest` can be an expression or a list of expressions. -/
def Takes (ts rest : List Token) : Prop := ∃ taken, ts = taken ++ rest ∧ taken.IsChain Follows

/-- The words in front of `rest` can stand behind an expression. -/
def Continues (ts rest : List Token) : Prop :=
  ∃ taken, ts = taken ++ rest ∧ taken.IsChain Follows ∧ ∀ t ∈ taken.head?, ∃ m, t = .mark m

variable {ts mid rest : List Token}

theorem Continues.refl (ts : List Token) : Continues ts ts := ⟨[], rfl, .nil, fun t found => by cases found⟩

theorem Continues.takes (h : Continues ts rest) : Takes ts rest := by
  obtain ⟨taken, split, chain, _⟩ := h
  exact ⟨taken, split, chain⟩

theorem Takes.one (t : Token) (rest : List Token) : Takes (t :: rest) rest := ⟨[t], rfl, .singleton t⟩

theorem Continues.one (m : String) (rest : List Token) : Continues (.mark m :: rest) rest :=
  ⟨[.mark m], rfl, .singleton _, fun t found => ⟨m, by cases found; rfl⟩⟩

theorem Takes.trans (first : Takes ts mid) (second : Continues mid rest) : Takes ts rest := by
  obtain ⟨taken, rfl, chain⟩ := first
  obtain ⟨more, rfl, chain', start⟩ := second
  refine ⟨taken ++ more, by simp, isChain_append.mpr ⟨chain, chain', ?_⟩⟩
  exact fun _ _ t found _ => start t found

theorem Continues.trans (first : Continues ts mid) (second : Continues mid rest) : Continues ts rest := by
  obtain ⟨taken, rfl, chain, start⟩ := first
  obtain ⟨more, rfl, chain', start'⟩ := second
  refine ⟨taken ++ more, by simp, isChain_append.mpr ⟨chain, chain', ?_⟩, ?_⟩
  · exact fun _ _ t found _ => start' t found
  · cases taken with
    | nil => exact start'
    | cons t taken => exact start

theorem Takes.behind (h : Takes ts rest) {m : String} (other : m ≠ ")") : Continues (.mark m :: ts) rest := by
  obtain ⟨taken, rfl, chain⟩ := h
  refine ⟨.mark m :: taken, rfl, isChain_cons.mpr ⟨?_, chain⟩, ?_⟩
  · intro t _ same
    cases same
    exact absurd rfl other
  · intro t found
    cases found
    exact ⟨m, rfl⟩

/-- What every reader does to the words, for one amount of fuel. -/
structure Readers (fuel : ℕ) : Prop where
  loose {ts e rest} : readLoose fuel ts = some (e, rest) → Takes ts rest
  sum {ts e rest} : readSum fuel ts = some (e, rest) → Takes ts rest
  sumTail {l ts e rest} : readSumTail fuel l ts = some (e, rest) → Continues ts rest
  term {ts e rest} : readTerm fuel ts = some (e, rest) → Takes ts rest
  termTail {l ts e rest} : readTermTail fuel l ts = some (e, rest) → Continues ts rest
  factor {ts e rest} : readFactor fuel ts = some (e, rest) → Takes ts rest
  power {ts e rest} : readPower fuel ts = some (e, rest) → Takes ts rest
  trailers {l ts e rest} : readTrailers fuel l ts = some (e, rest) → Continues ts rest
  atom {ts e rest} : readAtom fuel ts = some (e, rest) → Takes ts rest
  items {close ts e single rest} : readItems fuel close ts = some (e, single, rest) → Takes ts rest
  item {close ts e single rest} : readItem fuel close ts = some (e, single, rest) → Takes ts rest

namespace Readers

variable {fuel : ℕ} (readers : Readers fuel) {e l : Expression} {close : String} {single : Bool}
include readers

theorem loose_succ (read : readLoose (fuel + 1) ts = some (e, rest)) : Takes ts rest := by
  rw [readLoose] at read
  split at read
  · rename_i m mid first
    split at read
    · rename_i node joins
      split at read
      · rename_i second
        cases read
        have other : m ≠ ")" := by
          rintro rfl
          cases joins
        exact (readers.sum first).trans ((readers.loose second).behind other)
      · cases read
    · cases read
      exact readers.sum first
  · exact readers.sum read

theorem sum_succ (read : readSum (fuel + 1) ts = some (e, rest)) : Takes ts rest := by
  rw [readSum] at read
  split at read
  · rename_i first
    exact (readers.term first).trans (readers.sumTail read)
  · cases read

theorem sumTail_succ (read : readSumTail (fuel + 1) l ts = some (e, rest)) : Continues ts rest := by
  unfold readSumTail at read
  split at read
  · split at read
    · rename_i first
      exact ((readers.term first).behind (by decide)).trans (readers.sumTail read)
    · cases read
  · split at read
    · rename_i first
      exact ((readers.term first).behind (by decide)).trans (readers.sumTail read)
    · cases read
  · cases read
    exact .refl _

theorem term_succ (read : readTerm (fuel + 1) ts = some (e, rest)) : Takes ts rest := by
  rw [readTerm] at read
  split at read
  · rename_i first
    exact (readers.factor first).trans (readers.termTail read)
  · cases read

theorem join {node : Expression → Expression → Expression} {m : String} (other : m ≠ ")")
    (read : (match readFactor fuel ts with
      | some (r, rest) => readTermTail fuel (node l r) rest
      | none => none) = some (e, rest)) : Continues (.mark m :: ts) rest := by
  split at read
  · rename_i first
    exact ((readers.factor first).behind other).trans (readers.termTail read)
  · cases read

theorem termTail_succ (read : readTermTail (fuel + 1) l ts = some (e, rest)) : Continues ts rest := by
  unfold readTermTail at read
  split at read
  · exact readers.join (by decide) read
  · exact readers.join (by decide) read
  · exact readers.join (by decide) read
  · exact readers.join (by decide) read
  · exact readers.join (by decide) read
  · cases read
    exact .refl _

theorem factor_succ (read : readFactor (fuel + 1) ts = some (e, rest)) : Takes ts rest := by
  have signed (node : Expression → Expression) {m : String} {ts : List Token} (other : m ≠ ")")
      (read : (readFactor fuel ts).map (fun x => (node x.1, x.2)) = some (e, rest)) :
      Takes (.mark m :: ts) rest := by
    obtain ⟨⟨x, r⟩, first, same⟩ := Option.map_eq_some_iff.mp read
    cases same
    exact ((readers.factor first).behind other).takes
  unfold readFactor at read
  split at read
  · exact signed .neg (by decide) read
  · exact signed .pos (by decide) read
  · exact signed (fun _ => .foreign) (by decide) read
  · exact readers.power read

theorem power_succ (read : readPower (fuel + 1) ts = some (e, rest)) : Takes ts rest := by
  rw [readPower] at read
  split at read
  · rename_i base mid first
    have start := readers.atom first
    split at read
    · rename_i trailed
      split at read
      · rename_i exponent
        cases read
        exact (start.trans (readers.trailers trailed)).trans
          ((readers.factor exponent).behind (by decide))
      · cases read
    · exact start.trans (readers.trailers read)
  · cases read

theorem trailers_succ (read : readTrailers (fuel + 1) l ts = some (e, rest)) : Continues ts rest := by
  unfold readTrailers at read
  split at read
  · split at read
    · rename_i inner
      exact ((readers.items inner).behind (by decide)).trans (readers.trailers read)
    · cases read
  · split at read
    · rename_i inner
      exact ((readers.items inner).behind (by decide)).trans (readers.trailers read)
    · cases read
  · exact ((Takes.one _ _).behind (by decide)).trans (readers.trailers read)
  · cases read
  · exact ((Continues.one _ _).trans (.one _ _)).trans (readers.trailers read)
  · exact (Continues.one _ _).trans (readers.trailers read)
  · cases read
    exact .refl _

theorem atom_succ (read : readAtom (fuel + 1) ts = some (e, rest)) : Takes ts rest := by
  unfold readAtom at read
  split at read
  · cases read
    exact .one _ _
  · cases read
    exact .one _ _
  · cases read
    exact .one _ _
  · cases read
    exact .one _ _
  · obtain ⟨⟨x, single, r⟩, inner, same⟩ := Option.map_eq_some_iff.mp read
    cases same
    exact ((readers.items inner).behind (by decide)).takes
  · split at read
    · rename_i inner
      cases read
      exact ((readers.items inner).behind (by decide)).takes
    · cases read
  · split at read
    · rename_i inner
      cases read
      exact ((readers.items inner).behind (by decide)).takes
    · cases read
  · cases read

theorem items_succ (read : readItems (fuel + 1) close ts = some (e, single, rest)) : Takes ts rest := by
  unfold readItems at read
  split at read
  · split at read
    · cases read
      exact .one _ _
    · exact readers.item read
  · exact readers.item read

theorem item_succ (read : readItem (fuel + 1) close ts = some (e, single, rest)) : Takes ts rest := by
  rw [readItem] at read
  split at read
  · rename_i m after first
    have start := readers.loose first
    split at read
    · cases read
      exact start.trans (.one _ _)
    · split at read
      · rename_i comma
        split at read
        · rename_i others
          cases read
          refine start.trans ((readers.items others).behind ?_)
          rw [eq_of_beq comma]
          decide
        · cases read
      · cases read
  · cases read

end Readers

theorem readers (fuel : ℕ) : Readers fuel := by
  induction fuel with
  | zero => constructor <;> intros <;> contradiction
  | succ fuel ih =>
    exact
      { loose := ih.loose_succ
        sum := ih.sum_succ
        sumTail := ih.sumTail_succ
        term := ih.term_succ
        termTail := ih.termTail_succ
        factor := ih.factor_succ
        power := ih.power_succ
        trailers := ih.trailers_succ
        atom := ih.atom_succ
        items := ih.items_succ
        item := ih.item_succ }

theorem isChain_of_readAll {fuel : ℕ} {e : Expression} (read : readAll fuel ts = some e) : ts.IsChain Follows := by
  have whole {ts : List Token} (h : Takes ts []) : ts.IsChain Follows := by
    obtain ⟨taken, rfl, chain⟩ := h
    rwa [append_nil]
  induction fuel generalizing ts e with
  | zero => cases read
  | succ fuel ih =>
    rw [readAll] at read
    split at read
    · rename_i first
      exact whole ((readers _).loose first)
    · rename_i first
      exact whole (((readers _).loose first).trans (.one _ _))
    · rename_i rest _ first
      obtain ⟨x, others, _⟩ := Option.map_eq_some_iff.mp read
      have behind : Takes rest [] := ⟨rest, by simp, ih others⟩
      exact whole (((readers _).loose first).trans (behind.behind (by decide)))
    · cases read

end Expression

/-! ## Words in front of a closing parenthesis -/

namespace Token

def Plain (cs : List Char) : Prop := ∀ c ∈ cs, c ∉ ['\'', '"', '#']

/-- Plain characters, a closing parenthesis, and a fixed text behind it. -/
def Closes (after cs : List Char) : Prop := ∃ inner, cs = inner ++ ')' :: after ∧ Plain inner

variable {cs after : List Char}

variable {c : Char} {caret : String}

theorem Plain.tail (h : Plain (c :: cs)) : Plain cs := (forall_mem_cons.mp h).2

theorem Plain.closes (h : Plain cs) (after : List Char) : Closes after (cs ++ ')' :: after) := ⟨cs, rfl, h⟩

theorem Closes.dropWhile (h : Closes after cs) {kind : Char → Bool} (other : kind ')' = false) :
    Closes after (cs.dropWhile kind) := by
  obtain ⟨inner, rfl, plain⟩ := h
  induction inner with
  | nil =>
    rw [nil_append, dropWhile_cons_of_neg (by simp [other])]
    exact plain.closes after
  | cons c inner ih =>
    rw [cons_append, dropWhile_cons]
    split
    · exact ih plain.tail
    · exact plain.closes after

theorem Closes.tail (h : Closes after (c :: cs)) (other : c ≠ ')') : Closes after cs := by
  obtain ⟨inner, split, plain⟩ := h
  cases inner with
  | nil =>
    cases split
    exact absurd rfl other
  | cons d inner =>
    cases split
    exact plain.tail.closes after

theorem Closes.not_mem (h : Closes after (c :: cs)) : c ∉ ['\'', '"', '#'] := by
  obtain ⟨inner, split, plain⟩ := h
  cases inner with
  | nil =>
    cases split
    decide
  | cons d inner =>
    cases split
    exact plain c mem_cons_self

theorem Closes.cons (h : Closes after cs) (plain : c ∉ ['\'', '"', '#']) : Closes after (c :: cs) := by
  obtain ⟨inner, rfl, rest⟩ := h
  exact ⟨c :: inner, rfl, forall_mem_cons.mpr ⟨plain, rest⟩⟩

theorem Closes.ne_nil (h : Closes after cs) : cs ≠ [] := by
  obtain ⟨inner, rfl, _⟩ := h
  simp

theorem Closes.ungroup (h : Closes after cs) (before : Option Char) : Closes after (ungroup before cs) := by
  induction cs generalizing before with
  | nil => exact h
  | cons c cs ih =>
    rw [Token.ungroup]
    split
    · rename_i underscore
      split
      · exact ih (h.tail (by rintro rfl; cases underscore)) before
      · exact h
    · split
      · rename_i part
        refine (ih (h.tail ?_) (some c)).cons h.not_mem
        rintro rfl
        simp at part
      · exact h

variable {rest : List Char}

theorem closes_digitsIn {base n : ℕ} {read : Option ℕ} (h : Closes after cs)
    (digits : digitsIn base read cs = some (n, rest)) : Closes after rest := by
  induction cs generalizing read with
  | nil => exact absurd rfl h.ne_nil
  | cons c cs ih =>
    have parenthesis : digitIn? base ')' = none := by simp [digitIn?]
    rw [digitsIn] at digits
    split at digits
    · rename_i digit
      exact ih (h.tail (by rintro rfl; rw [parenthesis] at digit; cases digit)) digits
    · split at digits
      · rename_i underscore
        exact ih (h.tail (by rintro rfl; simp at underscore)) digits
      · obtain ⟨m, _, same⟩ := Option.map_eq_some_iff.mp digits
        cases same
        exact h

theorem closes_basedWhole? {n : ℕ} (h : Closes after cs)
    (based : basedWhole? cs = some (n, rest)) : Closes after rest := by
  unfold basedWhole? at based
  split at based
  · rename_i letter tail
    obtain ⟨base, announced, digits⟩ := Option.bind_eq_some_iff.mp based
    refine closes_digitsIn ((h.tail (by decide)).tail ?_) digits
    rintro rfl
    cases announced
  · cases based

theorem closes_readExponent {power : ℤ} (h : Closes after cs)
    (read : readExponent cs = some (power, rest)) : Closes after rest := by
  have digits {negative : Bool} {cs : List Char} (closes : Closes after cs)
      (read : (if (cs.takeWhile Char.isDigit).isEmpty then none
        else some (if negative then -(digitsValue (cs.takeWhile Char.isDigit) : ℤ)
          else digitsValue (cs.takeWhile Char.isDigit), cs.dropWhile Char.isDigit)) =
        some (power, rest)) : Closes after rest := by
    split at read
    · cases read
    · cases read
      exact closes.dropWhile (by decide)
  unfold readExponent at read
  split at read
  · rename_i c tail
    split at read
    · rename_i mark
      have behind : Closes after tail := h.tail (by rintro rfl; simp at mark)
      dsimp only at read
      split at read
      · exact digits (behind.tail (by decide)) read
      · exact digits (behind.tail (by decide)) read
      · exact digits behind read
    · cases read
  · cases read

theorem closes_readNumeral {x : Numeral} {scaled : Bool} (h : Closes after cs)
    (read : readNumeral cs = some (x, scaled, rest)) : Closes after rest := by
  have whole : Closes after (cs.dropWhile Char.isDigit) := h.dropWhile (by decide)
  unfold readNumeral at read
  dsimp only at read
  -- an exponent may follow the digits and the point
  split at read
  · rename_i tail point
    have digits : Closes after (tail.dropWhile Char.isDigit) := by
      rw [point] at whole
      exact (whole.tail (by decide)).dropWhile (by decide)
    split at read
    · split at read
      · cases read
      · split at read
        · rename_i exponent
          cases read
          exact closes_readExponent whole exponent
        · cases read
          exact whole
    · split at read
      · rename_i exponent
        cases read
        exact closes_readExponent digits exponent
      · cases read
        exact digits
  · split at read
    · cases read
    · split at read
      · rename_i exponent
        cases read
        exact closes_readExponent whole exponent
      · cases read
        exact whole

theorem Closes.afterNumeral (h : Closes after cs) : Closes after (afterNumeral cs) := by
  unfold Token.afterNumeral
  split
  · rename_i c rest
    split
    · rename_i imaginary
      refine ((h.tail ?_).cons (by decide)).cons (by decide)
      rintro rfl
      simp at imaginary
    · exact h
  · exact h

theorem closes_next {t : Token}
    (h : Closes after (c :: cs)) (other : c ≠ ')') (found : next caret (c :: cs) = some (t, rest)) :
    Closes after rest := by
  unfold next at found
  dsimp only at found
  split at found
  -- a numeral
  · split at found
    · rename_i based
      cases found
      exact closes_basedWhole? h based
    · rename_i read
      have behind := (closes_readNumeral (h.ungroup none) read).afterNumeral
      split at found
      · cases found
        exact behind
      · split at found
        · cases found
          exact behind
        · cases found
    · cases found
  · split at found
    -- a name
    · split at found
      · cases found
      · cases found
        exact h.dropWhile (by decide)
    · split at found
      -- a quotation, which plain characters do not open
      · rename_i quote
        exact absurd (by simpa using quote) (fun quote => h.not_mem (by simp; tauto))
      -- a mark
      · have behind := h.tail other
        split at found
        · rename_i long
          cases found
          cases cs with
          | nil => exact absurd rfl behind.ne_nil
          | cons d cs =>
            refine behind.tail ?_
            rintro rfl
            simp [longMarks, ← String.toList_inj] at long
        · split at found
          · cases found
            exact behind
          · split at found
            · cases found
              exact behind
            · cases found

theorem next_close (caret : String) (rest : List Char) : next caret (')' :: rest) = some (.mark ")", rest) := by
  have short : longMarks.contains (String.ofList ((')' :: rest).take 2)) = false := by
    simp [longMarks, ← String.toList_inj]
  unfold next
  dsimp only
  rw [short]
  rfl

/-- The words of a text with a closing parenthesis are words in front of it, the parenthesis, and the
words behind it. -/
theorem scanWithin_closes {fuel : ℕ} {ts : List Token} (h : Closes after cs)
    (scan : scanWithin caret fuel cs = some ts) :
    ∃ before behind fuel', ts = before ++ .mark ")" :: behind ∧
      scanWithin caret fuel' after = some behind := by
  induction fuel generalizing cs ts with
  | zero => cases scan
  | succ fuel ih =>
    rw [scanWithin] at scan
    have visible : Closes after (cs.dropWhile fun c => c == ' ' || c == '\t' || c == '\x0c') := h.dropWhile (by decide)
    split at scan
    · rename_i empty
      exact absurd empty visible.ne_nil
    · rename_i c rest first
      rw [first] at visible
      split at scan
      · rename_i hides
        exact absurd visible.not_mem (by simp [eq_of_beq hides])
      · split at scan
        · rename_i t later found
          obtain ⟨others, tail, rfl⟩ := Option.map_eq_some_iff.mp scan
          -- either this is the parenthesis, or the rest still has it
          have step : (t = .mark ")" ∧ later = after) ∨ Closes after later := by
            by_cases other : c = ')'
            · subst other
              rw [next_close] at found
              obtain ⟨inner, split, plain⟩ := visible
              cases inner with
              | nil =>
                cases split
                cases found
                exact .inl ⟨rfl, rfl⟩
              | cons d inner =>
                cases split
                cases found
                exact .inr (plain.tail.closes after)
            · exact .inr (closes_next visible other found)
          rcases step with ⟨rfl, rfl⟩ | closes
          · exact ⟨[], others, fuel, rfl, tail⟩
          · obtain ⟨before, behind, fuel', rfl, scanned⟩ := ih closes tail
            exact ⟨t :: before, behind, fuel', rfl, scanned⟩
        · cases scan

theorem next_digit {t : Token} (digit : c.isDigit)
    (found : next caret (c :: cs) = some (t, rest)) (m : String) : t ≠ .mark m := by
  unfold next at found
  dsimp only at found
  rw [digit, Bool.true_or, if_pos rfl] at found
  split at found
  · cases found
    simp
  · split at found
    · cases found
      simp
    · split at found
      · cases found
        simp
      · cases found
  · cases found

/-- The words of a text that starts with a digit start with a word that is no mark. -/
theorem scanWithin_digit {fuel : ℕ} {ts : List Token} (digit : c.isDigit)
    (scan : scanWithin caret fuel (c :: cs) = some ts) : ∃ t rest, ts = t :: rest ∧ ∀ m, t ≠ .mark m := by
  have visible : (c == ' ' || c == '\t' || c == '\x0c') = false ∧ (c == '#') = false := by
    have other : ∀ d ∈ [' ', '\t', '\x0c', '#'], d ≠ c := by
      rintro d mem rfl
      exact absurd digit ((by decide : ∀ d ∈ [' ', '\t', '\x0c', '#'], ¬ d.isDigit = true) d mem)
    simp only [forall_mem_cons] at other
    simp [Ne.symm other.1, Ne.symm other.2.1, Ne.symm other.2.2.1, Ne.symm other.2.2.2.1]
  cases fuel with
  | zero => cases scan
  | succ fuel =>
    rw [scanWithin, dropWhile_cons_of_neg (by simp [visible.1])] at scan
    dsimp only at scan
    rw [visible.2, if_neg Bool.false_ne_true] at scan
    split at scan
    · rename_i t later found
      obtain ⟨others, _, rfl⟩ := Option.map_eq_some_iff.mp scan
      exact ⟨t, others, rfl, next_digit digit found⟩
    · cases scan

end Token

theorem Expression.read_close_digit {before after : List Char} {d : Char} (digit : d.isDigit)
    (plain : Token.Plain before) (line : '\n' ∉ before ++ ')' :: d :: after) :
    read (String.ofList (before ++ ')' :: d :: after)) = none := by
  rw [read]
  split
  · rename_i ts scan
    rw [Option.eq_none_iff_forall_ne_some]
    intro e read
    have lines : (before ++ ')' :: d :: after).filter (· != '\n') = before ++ ')' :: d :: after := by
      refine filter_eq_self.mpr fun c mem => bne_iff_ne.mpr ?_
      rintro rfl
      exact line mem
    rw [Token.scan, String.toList_ofList, lines] at scan
    obtain ⟨words, behind, fuel, rfl, rest⟩ := Token.scanWithin_closes (plain.closes _) scan
    obtain ⟨t, others, rfl, numeral⟩ := Token.scanWithin_digit digit rest
    have pair := (isChain_append_cons_cons.mp (isChain_of_readAll read)).2.1
    obtain ⟨m, mark⟩ := pair rfl
    exact numeral m mark
  · rfl

end Supermartingale
