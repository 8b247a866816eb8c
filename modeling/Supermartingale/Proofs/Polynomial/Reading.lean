import Supermartingale.Proofs.Polynomial.Expansion
import Supermartingale.Proofs.Polynomial.Phrase

/-!
# Reading gives a phrase its expression

Each reader takes the words of a phrase of its rank off the front of a list and leaves the rest, provided that the
rest does not go on with the phrase. Sums and terms associate to the left, so their readers are followed to the point
where all operands are taken.
-/

namespace Supermartingale

open List Expansion

variable {value : (String → ℝ) → ℝ}

theorem Expansion.number?_ofRat (c : ℚ) : number? (ofRat c) = some c := by
  unfold ofRat
  split
  · rename_i zero
    rw [zero]
    rfl
  · rfl

theorem Expansion.natural?_ofRat (n : ℕ) : natural? (ofRat n) = some n := by
  simp [natural?, number?_ofRat]

theorem Expression.exists_expansion {e : Expression} (polynomial : e.isPolynomial) (exact : e.isExact) :
    ∃ x, ofExpression? e = some x := by
  have number (n : ℕ) : number? (ofRat n) = some (n : ℚ) := number?_ofRat n
  fun_induction isPolynomial e with
  | case1 n => exact ⟨_, rfl⟩
  | case2 x => cases exact
  | case3 s =>
    obtain ⟨unknown, free⟩ := Bool.and_eq_true_iff.mp polynomial
    exact ⟨ofName s, by simp_all [ofExpression?]⟩
  | case4 e ih =>
    obtain ⟨x, expanded⟩ := ih polynomial exact
    exact ⟨_, by rw [ofExpression?, expanded, Option.map_some]⟩
  | case5 e ih => exact ih polynomial exact
  | case6 l r ihl ihr | case7 l r ihl ihr | case8 l r ihl ihr =>
    obtain ⟨first, second⟩ := Bool.and_eq_true_iff.mp polynomial
    obtain ⟨left, right⟩ := Bool.and_eq_true_iff.mp exact
    obtain ⟨x, expanded⟩ := ihl first left
    obtain ⟨y, expanded'⟩ := ihr second right
    exact ⟨_, by rw [ofExpression?, expanded, expanded']⟩
  | case9 l d ih =>
    obtain ⟨first, nonzero⟩ := Bool.and_eq_true_iff.mp polynomial
    obtain ⟨x, expanded⟩ := ih first (Bool.and_eq_true_iff.mp exact).1
    have nonzero : (d : ℚ) ≠ 0 := by simpa using nonzero
    exact ⟨scale (d : ℚ)⁻¹ x, by simp [ofExpression?, expanded, number, nonzero]⟩
  | case10 l k ih =>
    obtain ⟨x, expanded⟩ := ih polynomial (Bool.and_eq_true_iff.mp exact).1
    exact ⟨x.pow k, by simp [ofExpression?, expanded, natural?_ofRat]⟩
  | case11 => cases polynomial

namespace Phrase

open Expression

variable {r : Rank} {marks : List String} {a : Phrase .atom} {l : Phrase .term} {e : Phrase .sum}

attribute [local simp] tokens tree

/-- The list is empty or goes on with one of some marks. -/
def Stops (marks : List String) (rest : List Token) : Prop := ∀ t ∈ rest.head?, ∃ m ∈ marks, t = .mark m

theorem stops_nil (marks : List String) : Stops marks [] := by
  intro t found
  cases found

theorem stops_cons {m : String} (h : m ∈ marks) (rest : List Token) :
    Stops marks (.mark m :: rest) := by
  intro t found
  cases found
  exact ⟨m, h, rfl⟩

variable {rest : List Token}

theorem Stops.mono {marks more : List String} (h : Stops marks rest)
    (subset : ∀ m ∈ marks, m ∈ more) : Stops more rest := by
  intro t found
  obtain ⟨m, mem, same⟩ := h t found
  exact ⟨m, subset m mem, same⟩

def afterFactor : List String := ["+", "-", "*", "/", ")"]

def afterTerm : List String := ["+", "-", ")"]

def afterSum : List String := [")"]

/-- What holds of the empty list and of all lists that go on with one of the marks holds of a list that stops. -/
@[elab_as_elim]
theorem Stops.elim {P : List Token → Prop} (stops : Stops marks rest) (none : P [])
    (mark : ∀ m ∈ marks, ∀ ts, P (.mark m :: ts)) : P rest := by
  cases rest with
  | nil => exact none
  | cons t rest =>
    obtain ⟨m, mem, rfl⟩ := stops t rfl
    exact mark m mem rest

theorem readTrailers_stops (rest : List Token) (stops : Stops ("**" :: afterFactor) rest)
    (fuel : ℕ) (e : Expression) : readTrailers (fuel + 1) e rest = some (e, rest) := by
  refine stops.elim rfl ?_
  simp [afterFactor, readTrailers]

theorem readTermTail_stops (stops : Stops afterTerm rest) (fuel : ℕ)
    (e : Expression) : readTermTail (fuel + 1) e rest = some (e, rest) := by
  refine stops.elim rfl ?_
  simp [afterTerm, readTermTail]

theorem readSumTail_stops (stops : Stops afterSum rest) (fuel : ℕ)
    (e : Expression) : readSumTail (fuel + 1) e rest = some (e, rest) := by
  refine stops.elim rfl ?_
  simp [afterSum, readSumTail]

theorem tokens_length_pos (p : Phrase r) : 0 < p.tokens.length := by
  induction p <;> simp_all

/-- What reading the words of a phrase does, rank by rank. A term and a sum are followed up to the
point where their last operand is taken; each operand before it costs one unit of fuel. -/
def Reads : {r : Rank} → Phrase r → Prop
  | .atom, p => ∀ fuel rest, 16 * p.tokens.length ≤ fuel → readAtom fuel (p.tokens ++ rest) = some (p.tree, rest)
  | .power, p => ∀ fuel rest, 16 * p.tokens.length + 1 ≤ fuel → Stops afterFactor rest →
      readPower fuel (p.tokens ++ rest) = some (p.tree, rest)
  | .factor, p => ∀ fuel rest, 16 * p.tokens.length + 2 ≤ fuel → Stops afterFactor rest →
      readFactor fuel (p.tokens ++ rest) = some (p.tree, rest)
  | .term, p => ∀ fuel rest, 16 * p.tokens.length + 3 ≤ fuel → Stops afterFactor rest →
      ∃ left, fuel ≤ left + p.tokens.length ∧ readTerm fuel (p.tokens ++ rest) = readTermTail left p.tree rest
  | .sum, p => ∀ fuel rest, 16 * p.tokens.length + 4 ≤ fuel → Stops afterTerm rest →
      ∃ left, fuel ≤ left + p.tokens.length ∧ readSum fuel (p.tokens ++ rest) = readSumTail left p.tree rest

theorem Reads.loose (h : Reads e) (fuel : ℕ)
    (enough : 16 * e.tokens.length + 5 ≤ fuel) (stops : Stops afterSum rest) :
    readLoose fuel (e.tokens ++ rest) = some (e.tree, rest) := by
  obtain ⟨fuel, rfl⟩ : ∃ f, fuel = f + 1 := ⟨fuel - 1, by omega⟩
  obtain ⟨left, spent, sum⟩ := h fuel rest (by omega) (stops.mono (by decide))
  obtain ⟨left, rfl⟩ : ∃ l, left = l + 1 := ⟨left - 1, by omega⟩
  rw [readSumTail_stops stops] at sum
  rw [readLoose, sum]
  refine stops.elim rfl ?_
  simp [afterSum, looseNode?]

theorem head_tokens (p : Phrase r) : ∃ t ts, p.tokens = t :: ts ∧ t ≠ .mark ")" := by
  induction p with
  | lone a ih | unsigned p ih | single f ih | plain t ih => exact ih
  | pow a ds h ih | div l ds h _ ih | mul _ l r ih _ | add _ l r ih _ | sub _ l r ih _ =>
    obtain ⟨t, ts, tokens, other⟩ := ih
    exact ⟨t, _, by rw [Phrase.tokens, tokens, cons_append], other⟩
  | _ => exact ⟨_, _, rfl, by simp⟩

theorem readItems_phrase (e : Phrase .sum) (fuel : ℕ) (rest : List Token) :
    readItems (fuel + 1) ")" (e.tokens ++ rest) = readItem fuel ")" (e.tokens ++ rest) := by
  obtain ⟨t, ts, tokens, other⟩ := e.head_tokens
  rw [tokens, cons_append]
  cases t with
  | mark m =>
    have open' : (m == ")") = false := by simpa using other
    simp [readItems, open']
  | _ => rfl

theorem reads_group (h : Reads e) : Reads (group e) := by
  intro fuel rest enough
  simp only [tokens, length_cons, length_append, length_nil] at enough
  obtain ⟨fuel, rfl⟩ : ∃ f, fuel = f + 3 := ⟨fuel - 3, by omega⟩
  have inner := h.loose fuel (by omega) (stops_cons (m := ")") (by decide) rest)
  simp only [tokens, tree, cons_append, append_assoc, nil_append]
  rw [readAtom, readItems_phrase, readItem, inner]
  rfl

theorem reads_lone (h : Reads a) : Reads (lone a) := by
  intro fuel rest enough stops
  have positive := a.tokens_length_pos
  simp only [tokens, tree] at enough ⊢
  obtain ⟨fuel, rfl⟩ : ∃ f, fuel = f + 2 := ⟨fuel - 2, by omega⟩
  have atom := h (fuel + 1) rest (by omega)
  have trailers := readTrailers_stops rest (stops.mono (by decide)) fuel a.tree
  rw [readPower, atom]
  dsimp only
  rw [trailers]
  refine stops.elim rfl ?_
  simp [afterFactor]

/-- No sign stands in front of a power, so a factor that starts with it is the power itself. -/
theorem readFactor_power (p : Phrase .power) (fuel : ℕ) (rest : List Token) :
    readFactor (fuel + 1) (p.tokens ++ rest) = readPower fuel (p.tokens ++ rest) := by
  cases p with
  | lone a => cases a <;> rfl
  | pow a => cases a <;> rfl

theorem reads_unsigned {p : Phrase .power} (h : Reads p) : Reads (unsigned p) := by
  intro fuel rest enough stops
  simp only [tokens, tree] at enough ⊢
  obtain ⟨fuel, rfl⟩ : ∃ f, fuel = f + 1 := ⟨fuel - 1, by omega⟩
  rw [readFactor_power, h fuel rest (by omega) stops]

theorem reads_whole (ds : List Char) (spells : SpellsWhole ds) : Reads (whole ds spells) := by
  intro fuel rest enough
  simp only [tokens, length_singleton] at enough
  obtain ⟨fuel, rfl⟩ : ∃ f, fuel = f + 1 := ⟨fuel - 1, by omega⟩
  rfl

theorem readFactor_whole {ds : List Char} (spells : SpellsWhole ds) (fuel : ℕ)
    (enough : 18 ≤ fuel) (stops : Stops afterFactor rest) :
    readFactor fuel (.whole (digitsValue ds) :: rest) = some (.whole (digitsValue ds), rest) :=
  reads_unsigned (reads_lone (reads_whole ds spells)) fuel rest enough stops

theorem reads_pow (h : Reads a) (ds : List Char) (spells : SpellsWhole ds) :
    Reads (pow a ds spells) := by
  intro fuel rest enough stops
  simp only [tokens, tree, length_append, length_cons, length_nil, append_assoc,
    cons_append, nil_append] at enough ⊢
  obtain ⟨fuel, rfl⟩ : ∃ f, fuel = f + 2 := ⟨fuel - 2, by omega⟩
  have atom := h (fuel + 1) (.mark "**" :: .whole (digitsValue ds) :: rest) (by omega)
  have trailers := readTrailers_stops (.mark "**" :: .whole (digitsValue ds) :: rest)
    (stops_cons (by decide) _) fuel a.tree
  have exponent := readFactor_whole spells (fuel + 1) (by omega) stops
  simp only [readPower, atom, trailers, exponent]

variable {f : Phrase .factor} {t : Phrase .term}

theorem reads_neg (h : Reads f) : Reads (neg f) := by
  intro fuel rest enough stops
  simp only [tokens, tree, length_cons] at enough ⊢
  obtain ⟨fuel, rfl⟩ : ∃ f, fuel = f + 1 := ⟨fuel - 1, by omega⟩
  rw [cons_append, readFactor, h fuel rest (by omega) stops]
  rfl

theorem reads_single (h : Reads f) : Reads (single f) := by
  intro fuel rest enough stops
  have positive := f.tokens_length_pos
  simp only [tokens, tree] at enough ⊢
  obtain ⟨fuel, rfl⟩ : ∃ f, fuel = f + 1 := ⟨fuel - 1, by omega⟩
  refine ⟨fuel, by omega, ?_⟩
  rw [readTerm, h fuel rest (by omega) stops]

theorem reads_mul (hl : Reads l) (hf : Reads f) (gap : ℕ) : Reads (mul gap l f) := by
  intro fuel rest enough stops
  simp only [tokens, tree, length_append, length_cons, append_assoc, cons_append] at enough ⊢
  obtain ⟨left, spent, term⟩ := hl fuel (.mark "*" :: (f.tokens ++ rest)) (by omega)
    (stops_cons (by decide) _)
  obtain ⟨left, rfl⟩ : ∃ f, left = f + 1 := ⟨left - 1, by omega⟩
  refine ⟨left, by omega, ?_⟩
  rw [term, readTermTail]
  dsimp only
  rw [hf left rest (by omega) stops]

theorem reads_div (hl : Reads l) (ds : List Char) (spells : SpellsWhole ds)
    (nonzero : digitsValue ds ≠ 0) : Reads (div l ds spells nonzero) := by
  intro fuel rest enough stops
  simp only [tokens, tree, length_append, length_cons, length_nil, append_assoc,
    cons_append, nil_append] at enough ⊢
  obtain ⟨left, spent, term⟩ := hl fuel (.mark "/" :: .whole (digitsValue ds) :: rest) (by omega)
    (stops_cons (by decide) _)
  obtain ⟨left, rfl⟩ : ∃ f, left = f + 1 := ⟨left - 1, by omega⟩
  refine ⟨left, by omega, ?_⟩
  rw [term, readTermTail]
  dsimp only
  rw [readFactor_whole spells left (by omega) stops]

theorem Reads.term (h : Reads t) {fuel : ℕ} (enough : 16 * t.tokens.length + 3 ≤ fuel) (stops : Stops afterTerm rest) :
    readTerm fuel (t.tokens ++ rest) = some (t.tree, rest) := by
  obtain ⟨left, spent, term⟩ := h fuel rest enough (stops.mono (by decide))
  obtain ⟨left, rfl⟩ : ∃ f, left = f + 1 := ⟨left - 1, by omega⟩
  rw [term, readTermTail_stops stops]

theorem reads_plain (h : Reads t) : Reads (plain t) := by
  intro fuel rest enough stops
  have positive := t.tokens_length_pos
  simp only [tokens, tree] at enough ⊢
  obtain ⟨fuel, rfl⟩ : ∃ f, fuel = f + 1 := ⟨fuel - 1, by omega⟩
  refine ⟨fuel, by omega, ?_⟩
  rw [readSum, h.term (by omega) stops]

theorem reads_add {l : Phrase .sum} (hl : Reads l) (ht : Reads t) (gap : ℕ) : Reads (add gap l t) := by
  intro fuel rest enough stops
  simp only [tokens, tree, length_append, length_cons, append_assoc, cons_append] at enough ⊢
  obtain ⟨left, spent, sum⟩ := hl fuel (.mark "+" :: (t.tokens ++ rest)) (by omega)
    (stops_cons (by decide) _)
  obtain ⟨left, rfl⟩ : ∃ f, left = f + 1 := ⟨left - 1, by omega⟩
  refine ⟨left, by omega, ?_⟩
  rw [sum, readSumTail, ht.term (by omega) stops]

theorem reads_sub {l : Phrase .sum} (hl : Reads l) (ht : Reads t) (gap : ℕ) : Reads (sub gap l t) := by
  intro fuel rest enough stops
  simp only [tokens, tree, length_append, length_cons, append_assoc, cons_append] at enough ⊢
  obtain ⟨left, spent, sum⟩ := hl fuel (.mark "-" :: (t.tokens ++ rest)) (by omega)
    (stops_cons (by decide) _)
  obtain ⟨left, rfl⟩ : ∃ f, left = f + 1 := ⟨left - 1, by omega⟩
  refine ⟨left, by omega, ?_⟩
  rw [sum, readSumTail, ht.term (by omega) stops]

theorem reads (p : Phrase r) : Reads p := by
  induction p with
  | name s h | decimal cs x h =>
    intro fuel rest enough
    simp only [tokens, length_singleton] at enough
    obtain ⟨fuel, rfl⟩ : ∃ f, fuel = f + 1 := ⟨fuel - 1, by omega⟩
    rfl
  | whole ds h => exact reads_whole ds h
  | group e ih => exact reads_group ih
  | lone a ih => exact reads_lone ih
  | pow a ds h ih => exact reads_pow ih ds h
  | unsigned p ih => exact reads_unsigned ih
  | neg f ih => exact reads_neg ih
  | single f ih => exact reads_single ih
  | mul gap l f ihl ihf => exact reads_mul ihl ihf gap
  | div l ds h nonzero ih => exact reads_div ih ds h nonzero
  | plain t ih => exact reads_plain ih
  | add gap l t ihl iht => exact reads_add ihl iht gap
  | sub gap l t ihl iht => exact reads_sub ihl iht gap

theorem read_text (p : Phrase .sum) : Expression.read p.text = some p.tree := by
  have loose := (reads p).loose (16 * p.tokens.length + 16) (by omega) (stops_nil _)
  rw [append_nil] at loose
  rw [Expression.read, p.scan_text]
  simp only [readAll, loose]

/-! ## Polynomials with rational coefficients -/

theorem isExact_tree (p : Phrase r) : p.tree.isExact = p.isExact := by
  induction p with
  | name s h | whole ds h | decimal cs x h => rfl
  | group e ih | lone a ih | unsigned p ih | single f ih | plain t ih | neg f ih => exact ih
  | pow a ds h ih | div l ds h nonzero ih => simp [tree, isExact, Expression.isExact, ih]
  | mul gap l r ihl ihr | add gap l r ihl ihr | sub gap l r ihl ihr =>
    simp only [tree, isExact, Expression.isExact, ihl, ihr]

theorem exists_expansion (p : Phrase r) (exact : p.isExact) : ∃ x, ofExpression? p.tree = some x :=
  Expression.exists_expansion p.isPolynomial_tree (p.isExact_tree.trans exact)

/-- Reading the text of a sum without decimals gives a polynomial of its value, or fails because a
coefficient has too many digits. -/
theorem ofText_text {R : Type*} [CommRing R] [Algebra ℚ R] (p : Phrase .sum) (exact : p.isExact) :
    (∃ e, Equation.ofText p.text = .ok e ∧ ∀ ρ : String → R, e.eval ρ = p.tree.eval ρ) ∨
      Equation.ofText p.text = .error .numeralTooLong := by
  obtain ⟨x, expanded⟩ := p.exists_expansion exact
  exact Equation.ofText_of_expansion p.read_text expanded

end Phrase

/-- A text is read as an expression with the values of some polynomial. If it has no decimals, the
polynomial that is made of it has these values, too, provided that its coefficients can be written. -/
def Denotes (s : String) (value : (String → ℝ) → ℝ) : Prop :=
  ∃ tree, Expression.read s = some tree ∧ tree.isPolynomial ∧ (∀ ρ, tree.eval ρ = value ρ) ∧
    (tree.isExact → (∃ e, Equation.ofText s = .ok e ∧ ∀ ρ, e.eval ρ = value ρ) ∨
      Equation.ofText s = .error .numeralTooLong)

theorem Phrase.denotes (p : Phrase .sum) (same : ∀ ρ, p.tree.eval ρ = value ρ) : Denotes p.text value := by
  refine ⟨p.tree, p.read_text, p.isPolynomial_tree, same, fun exact => ?_⟩
  rw [p.isExact_tree] at exact
  rcases p.ofText_text (R := ℝ) exact with ⟨e, made, values⟩ | long
  · exact .inl ⟨e, made, fun ρ => (values ρ).trans (same ρ)⟩
  · exact .inr long

theorem Denotes.eq_eval {p : Phrase .sum} (h : Denotes p.text value) (ρ : String → ℝ) : p.tree.eval ρ = value ρ := by
  obtain ⟨tree, read, _, same, _⟩ := h
  rw [p.read_text] at read
  cases read
  exact same ρ

end Supermartingale
