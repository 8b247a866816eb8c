import Supermartingale.Proofs.Polynomial.Value
import Supermartingale.Proofs.Polynomial.Word

/-!
# Polynomial phrases

A phrase is a polynomial as it is written down: names, numerals and parenthesised sums, joined by powers with
whole exponents, signs, products, quotients by whole numbers, sums and differences, with blanks around the
signs that join two operands.
-/

namespace Supermartingale

open List Expression

inductive Rank where
  | atom
  | power
  | factor
  | term
  | sum

/-- A polynomial as it is written down. The number of blanks on either side of a sign that joins two
operands is its `gap`. -/
inductive Phrase : Rank → Type where
  | name (s : String) (h : IsUnknown s) : Phrase .atom
  | whole (ds : List Char) (h : SpellsWhole ds) : Phrase .atom
  | decimal (cs : List Char) (x : Numeral) (h : SpellsDecimal cs x) : Phrase .atom
  | group (e : Phrase .sum) : Phrase .atom
  | lone (a : Phrase .atom) : Phrase .power
  | pow (a : Phrase .atom) (ds : List Char) (h : SpellsWhole ds) : Phrase .power
  | unsigned (p : Phrase .power) : Phrase .factor
  | neg (f : Phrase .factor) : Phrase .factor
  | single (f : Phrase .factor) : Phrase .term
  | mul (gap : ℕ) (l : Phrase .term) (r : Phrase .factor) : Phrase .term
  | div (l : Phrase .term) (ds : List Char) (h : SpellsWhole ds) (nonzero : digitsValue ds ≠ 0) : Phrase .term
  | plain (t : Phrase .term) : Phrase .sum
  | add (gap : ℕ) (l : Phrase .sum) (r : Phrase .term) : Phrase .sum
  | sub (gap : ℕ) (l : Phrase .sum) (r : Phrase .term) : Phrase .sum

namespace Phrase

variable {r : Rank}

def joint (gap : ℕ) (sign : Char) : List Char := List.replicate gap ' ' ++ sign :: List.replicate gap ' '

def chars : {r : Rank} → Phrase r → List Char
  | _, name s _ => s.toList
  | _, whole ds _ => ds
  | _, decimal cs _ _ => cs
  | _, group e => '(' :: (e.chars ++ [')'])
  | _, lone a => a.chars
  | _, pow a ds _ => a.chars ++ '*' :: '*' :: ds
  | _, unsigned p => p.chars
  | _, neg f => '-' :: f.chars
  | _, single f => f.chars
  | _, mul gap l r => l.chars ++ joint gap '*' ++ r.chars
  | _, div l ds _ _ => l.chars ++ '/' :: ds
  | _, plain t => t.chars
  | _, add gap l r => l.chars ++ joint gap '+' ++ r.chars
  | _, sub gap l r => l.chars ++ joint gap '-' ++ r.chars

def tokens : {r : Rank} → Phrase r → List Token
  | _, name s _ => [.name s]
  | _, whole ds _ => [.whole (digitsValue ds)]
  | _, decimal _ x _ => [.decimal x]
  | _, group e => .mark "(" :: (e.tokens ++ [.mark ")"])
  | _, lone a => a.tokens
  | _, pow a ds _ => a.tokens ++ [.mark "**", .whole (digitsValue ds)]
  | _, unsigned p => p.tokens
  | _, neg f => .mark "-" :: f.tokens
  | _, single f => f.tokens
  | _, mul _ l r => l.tokens ++ .mark "*" :: r.tokens
  | _, div l ds _ _ => l.tokens ++ [.mark "/", .whole (digitsValue ds)]
  | _, plain t => t.tokens
  | _, add _ l r => l.tokens ++ .mark "+" :: r.tokens
  | _, sub _ l r => l.tokens ++ .mark "-" :: r.tokens

def tree : {r : Rank} → Phrase r → Expression
  | _, name s _ => .name s
  | _, whole ds _ => .whole (digitsValue ds)
  | _, decimal _ x _ => .decimal x
  | _, group e => e.tree
  | _, lone a => a.tree
  | _, pow a ds _ => .pow a.tree (.whole (digitsValue ds))
  | _, unsigned p => p.tree
  | _, neg f => .neg f.tree
  | _, single f => f.tree
  | _, mul _ l r => .mul l.tree r.tree
  | _, div l ds _ _ => .div l.tree (.whole (digitsValue ds))
  | _, plain t => t.tree
  | _, add _ l r => .add l.tree r.tree
  | _, sub _ l r => .sub l.tree r.tree

def names : {r : Rank} → Phrase r → List String
  | _, name s _ => [s]
  | _, whole _ _ | _, decimal _ _ _ => []
  | _, group e => e.names
  | _, lone a | _, pow a _ _ => a.names
  | _, unsigned p => p.names
  | _, neg f | _, single f => f.names
  | _, mul _ l r => l.names ++ r.names
  | _, div l _ _ _ => l.names
  | _, plain t => t.names
  | _, add _ l r | _, sub _ l r => l.names ++ r.names

/-- Every name with an exponent behind it satisfies a property, together with the digits of the
exponent. -/
def AllPowers (P : String → List Char → Prop) : {r : Rank} → Phrase r → Prop
  | _, name _ _ | _, whole _ _ | _, decimal _ _ _ => True
  | _, group e => e.AllPowers P
  | _, lone a => a.AllPowers P
  | _, pow (name s _) ds _ => P s ds
  | _, pow a _ _ => a.AllPowers P
  | _, unsigned p => p.AllPowers P
  | _, neg f | _, single f => f.AllPowers P
  | _, mul _ l r => l.AllPowers P ∧ r.AllPowers P
  | _, div l _ _ _ => l.AllPowers P
  | _, plain t => t.AllPowers P
  | _, add _ l r | _, sub _ l r => l.AllPowers P ∧ r.AllPowers P

def isExact : {r : Rank} → Phrase r → Bool
  | _, name _ _ | _, whole _ _ => true
  | _, decimal _ _ _ => false
  | _, group e => e.isExact
  | _, lone a | _, pow a _ _ => a.isExact
  | _, unsigned p => p.isExact
  | _, neg f | _, single f => f.isExact
  | _, mul _ l r => l.isExact && r.isExact
  | _, div l _ _ _ => l.isExact
  | _, plain t => t.isExact
  | _, add _ l r | _, sub _ l r => l.isExact && r.isExact

def text (p : Phrase r) : String := String.ofList p.chars

theorem isPolynomial_tree (p : Phrase r) : p.tree.isPolynomial := by
  induction p with
  | name s h => simpa [tree, isPolynomial, h.unknown] using h.nonliteral
  | div l ds h nonzero ih => simpa [tree, isPolynomial, ih] using nonzero
  | mul _ l r ihl ihr | add _ l r ihl ihr | sub _ l r ihl ihr =>
    simp [tree, isPolynomial, ihl, ihr]
  | _ => first | rfl | assumption

theorem AllPowers.imp {P Q : String → List Char → Prop} {p : Phrase r} (h : p.AllPowers P)
    (weaker : ∀ s ds, P s ds → Q s ds) : p.AllPowers Q := by
  induction p with
  | name | whole | decimal => trivial
  | group e ih | lone a ih | unsigned p ih | neg f ih | single f ih | plain t ih | div l ds h nonzero ih =>
    exact ih h
  | pow a ds _ ih =>
    cases a with
    | name s unknown => exact weaker s ds h
    | whole | decimal => trivial
    | group e => exact ih h
  | mul gap l r ihl ihr | add gap l r ihl ihr | sub gap l r ihl ihr => exact ⟨ihl h.1, ihr h.2⟩

theorem allPowers_of_names {P : String → List Char → Prop} (p : Phrase r)
    (h : ∀ s ∈ p.names, ∀ ds, P s ds) : p.AllPowers P := by
  induction p with
  | name | whole | decimal => trivial
  | group e ih | lone a ih | unsigned p ih | neg f ih | single f ih | plain t ih | div l ds h nonzero ih =>
    exact ih h
  | pow a ds _ ih =>
    cases a with
    | name s unknown => exact h s (mem_singleton_self s) ds
    | whole | decimal => trivial
    | group e => exact ih h
  | mul gap l r ihl ihr | add gap l r ihl ihr | sub gap l r ihl ihr =>
    simp only [names, forall_mem_append] at h
    exact ⟨ihl h.1, ihr h.2⟩

/-! ## Values -/

section Values

variable {R : Type*} [CommRing R] [Algebra ℚ R]

/-- The value of a phrase where every power of every name has a value of its own. A power of a
parenthesised name is a power of its value. -/
def evalPowers (values : String → ℕ → R) : {r : Rank} → Phrase r → R
  | _, name s _ => values s 1
  | _, whole ds _ => digitsValue ds
  | _, decimal _ x _ => algebraMap ℚ R x.value
  | _, group e => e.evalPowers values
  | _, lone a => a.evalPowers values
  | _, pow (name s _) ds _ => values s (digitsValue ds)
  | _, pow a ds _ => a.evalPowers values ^ digitsValue ds
  | _, unsigned p => p.evalPowers values
  | _, neg f => -f.evalPowers values
  | _, single f => f.evalPowers values
  | _, mul _ l r => l.evalPowers values * r.evalPowers values
  | _, div l ds _ _ => (digitsValue ds : ℚ)⁻¹ • l.evalPowers values
  | _, plain t => t.evalPowers values
  | _, add _ l r => l.evalPowers values + r.evalPowers values
  | _, sub _ l r => l.evalPowers values - r.evalPowers values

/-- Where the powers of names are the powers of their values, this is the value of the expression. -/
theorem evalPowers_eq_eval (ρ : String → R) (p : Phrase r) :
    p.evalPowers (fun s n => ρ s ^ n) = p.tree.eval ρ := by
  induction p with
  | name s h => exact pow_one (ρ s)
  | whole ds h | decimal cs x h => rfl
  | group e ih | lone a ih | unsigned p ih | single f ih | plain t ih => exact ih
  | pow a ds h ih =>
    have exponent : (Expression.whole (digitsValue ds)).number.num.natAbs = digitsValue ds := by
      simp [Expression.number]
    rw [tree, Expression.eval, exponent, ← ih]
    cases a with
    | name s unknown => simp [evalPowers]
    | whole | decimal | group => rfl
  | neg f ih | div l ds h nonzero ih => simp only [evalPowers, tree, Expression.eval, Expression.number, ih]
  | mul gap l r ihl ihr | add gap l r ihl ihr | sub gap l r ihl ihr =>
    simp only [evalPowers, tree, Expression.eval, ihl, ihr]

theorem evalPowers_congr (p : Phrase r) {ρ σ : String → ℕ → R} (agree : ∀ s ∈ p.names, ρ s = σ s) :
    p.evalPowers ρ = p.evalPowers σ := by
  induction p with
  | name s h => exact congrFun (agree s (mem_singleton_self s)) 1
  | whole ds h | decimal cs x h => rfl
  | group e ih | lone a ih | unsigned p ih | single f ih | plain t ih => exact ih agree
  | pow a ds h ih =>
    cases a with
    | name s unknown => exact congrFun (agree s (mem_singleton_self s)) _
    | whole | decimal | group => exact congrArg (· ^ digitsValue ds) (ih agree)
  | neg f ih | div l ds h nonzero ih => simp only [evalPowers, ih agree]
  | mul gap l r ihl ihr | add gap l r ihl ihr | sub gap l r ihl ihr =>
    simp only [names, forall_mem_append] at agree
    simp only [evalPowers, ihl agree.1, ihr agree.2]

theorem evalPowers_of_closed (p : Phrase r) (closed : p.names = []) (values : String → ℕ → R) :
    p.evalPowers values = algebraMap ℚ R p.tree.number := by
  have anywhere : p.evalPowers values = p.evalPowers (fun _ n => Algebra.ofId ℚ R 0 ^ n) :=
    p.evalPowers_congr (by simp [closed])
  rw [anywhere, evalPowers_eq_eval, ← map_eval, ← number_eq_eval]
  rfl

theorem eval_of_closed (p : Phrase r) (closed : p.names = []) (ρ : String → R) :
    p.tree.eval ρ = algebraMap ℚ R p.tree.number := by
  rw [← evalPowers_eq_eval, p.evalPowers_of_closed closed]

end Values

/-! ## Scanning -/

/-- A text is cut into these words, whatever fuel above its length is given. -/
def Scans (cs : List Char) (ts : List Token) : Prop :=
  ∀ fuel, cs.length < fuel → Token.scanWithin "**" fuel cs = some ts

theorem scans_nil : Scans [] [] := by
  intro fuel enough
  obtain ⟨fuel, rfl⟩ := Nat.exists_eq_add_of_lt enough
  rfl

variable {cs : List Char} {ts : List Token}

theorem scans_blank (h : Scans cs ts) : Scans (' ' :: cs) ts := by
  intro fuel enough
  cases fuel with
  | zero => simp at enough
  | succ fuel =>
    have rest := h (fuel + 1) (by simp at enough; omega)
    simpa [Token.scanWithin] using rest

variable {c : Char} {rest : List Char}

theorem scans_word {cs after : List Char} {t : Token}
    (visible : c ∉ [' ', '\t', '\x0c', '#']) (next : Token.next "**" (c :: cs) = some (t, after))
    (shorter : after.length ≤ cs.length) (h : Scans after ts) : Scans (c :: cs) (t :: ts) := by
  intro fuel enough
  cases fuel with
  | zero => simp at enough
  | succ fuel =>
    have rest := h fuel (by simp at enough; omega)
    simp only [mem_cons, not_mem_nil, or_false, not_or] at visible
    simp [Token.scanWithin, visible, next, rest]

theorem mem_longMarks (long : String.ofList cs ∈ Token.longMarks) :
    cs ∈ [['*', '*'], ['/', '/'], ['>', '>'], ['<', '<'], ['<', '='], ['>', '='], ['=', '='],
      ['!', '=']] := by
  have mem := mem_map_of_mem (f := String.toList) long
  rwa [String.toList_ofList] at mem

theorem scans_mark (sign : c ∈ ['+', '-', '*', '/', '(', ')'])
    (short : c = ')' ∨ ∀ d ∈ cs.head?, d ≠ '*' ∧ d ≠ '/') (h : Scans cs ts) :
    Scans (c :: cs) (.mark (String.ofList [c]) :: ts) := by
  have single : Token.longMarks.contains (String.ofList ((c :: cs).take 2)) = false := by
    rw [← Bool.not_eq_true, contains_iff_mem]
    intro long
    have pair := mem_longMarks long
    simp only [mem_cons, not_mem_nil, or_false] at sign
    cases cs with
    | nil => simp at pair
    | cons d cs =>
      rcases short with rfl | short
      · simp at pair
      · have other := short d rfl
        rcases sign with rfl | rfl | rfl | rfl | rfl | rfl <;> simp [other] at pair
  refine scans_word ?_ ?_ (Nat.le_refl _) h
  · exact (by decide : ∀ c ∈ ['+', '-', '*', '/', '(', ')'], c ∉ [' ', '\t', '\x0c', '#']) c sign
  · have kind := (by decide : ∀ c ∈ ['+', '-', '*', '/', '(', ')'], c.isDigit = false ∧
      (c == '.') = false ∧ Token.startsName c = false ∧ (c == '\'') = false ∧ (c == '"') = false ∧
      (c == '^') = false ∧ Token.shortMarks.contains c = true) c sign
    simp only [Token.next, kind, single, Bool.false_and, Bool.or_self, Bool.false_eq_true, if_false, if_true]

theorem scans_power (h : Scans cs ts) : Scans ('*' :: '*' :: cs) (.mark "**" :: ts) :=
  scans_word (by decide) rfl (Nat.le_succ _) h

theorem scans_blanks (gap : ℕ) (h : Scans cs ts) : Scans (List.replicate gap ' ' ++ cs) ts := by
  induction gap with
  | zero => exact h
  | succ gap ih => exact scans_blank ih

theorem head?_blanks (gap : ℕ) (cs : List Char) :
    ∀ d ∈ (List.replicate gap ' ' ++ cs).head?, d = ' ' ∨ d ∈ cs.head? := by
  cases gap with
  | zero => exact fun d found => .inr found
  | succ gap =>
    intro d found
    cases found
    exact .inl rfl

theorem scans_joint (gap : ℕ) (sign : c ∈ ['+', '-', '*', '/', '(', ')'])
    (short : ∀ d ∈ cs.head?, d ≠ '*' ∧ d ≠ '/') (h : Scans cs ts) :
    Scans (joint gap c ++ cs) (.mark (String.ofList [c]) :: ts) := by
  rw [joint, append_assoc, cons_append]
  refine scans_blanks gap (scans_mark sign (.inr ?_) (scans_blanks gap h))
  intro d found
  rcases head?_blanks gap cs d found with rfl | found
  · decide
  · exact short d found

theorem ends_joint (gap : ℕ) (sign : c ∈ enders) (cs : List Char) : Ends (joint gap c ++ cs) := by
  rw [joint, append_assoc, cons_append]
  intro d found
  rcases head?_blanks gap _ d found with rfl | found
  · decide
  · cases found
    exact sign

/-- A phrase starts with a digit, a letter, a parenthesis or a sign in front of a number. -/
theorem head_chars (p : Phrase r) :
    ∃ c cs, p.chars = c :: cs ∧ (c.isDigit ∨ Token.startsName c ∨ c = '(' ∨ c = '-') := by
  induction p with
  | name s h =>
    obtain ⟨c, cs, chars, starts⟩ := h.starts
    exact ⟨c, cs, chars, .inr (.inl starts)⟩
  | whole ds h =>
    obtain ⟨c, cs, rfl⟩ := exists_cons_of_ne_nil h.nonempty
    exact ⟨c, cs, rfl, .inl (h.digits c (by simp))⟩
  | decimal cs x h =>
    obtain ⟨c, cs, rfl, digit⟩ := h.starts
    exact ⟨c, cs, rfl, .inl digit⟩
  | group e => exact ⟨'(', _, rfl, .inr (.inr (.inl rfl))⟩
  | neg f => exact ⟨'-', _, rfl, .inr (.inr (.inr rfl))⟩
  | lone a ih | unsigned p ih | single f ih | plain t ih => exact ih
  | pow a ds h ih | div l ds h _ ih =>
    obtain ⟨c, cs, chars, kind⟩ := ih
    exact ⟨c, _, by rw [Phrase.chars, chars, cons_append], kind⟩
  | mul gap l r ih _ | add gap l r ih _ | sub gap l r ih _ =>
    obtain ⟨c, cs, chars, kind⟩ := ih
    exact ⟨c, _, by rw [Phrase.chars, chars, cons_append, cons_append], kind⟩

theorem head?_chars (p : Phrase r) (rest : List Char) : ∀ d ∈ (p.chars ++ rest).head?, d ≠ '*' ∧ d ≠ '/' := by
  obtain ⟨c, cs, chars, kind⟩ := p.head_chars
  rw [chars]
  intro d found
  cases found
  rcases kind with digit | starts | rfl | rfl
  · exact (by decide : ∀ c ∈ digits, c ≠ '*' ∧ c ≠ '/') c (mem_digits digit)
  · exact ⟨ne_of_startsName starts (by decide), ne_of_startsName starts (by decide)⟩
  · decide
  · decide

theorem scans_name {s : String} (h : IsUnknown s)
    (ends : Ends rest) (scans : Scans rest ts) : Scans (s.toList ++ rest) (.name s :: ts) := by
  obtain ⟨c, cs, chars, starts⟩ := h.starts
  have next := next_name h ends
  rw [chars] at next ⊢
  refine scans_word ?_ next (by simp) scans
  simp only [mem_cons, not_mem_nil, or_false, not_or]
  refine ⟨?_, ?_, ?_, ?_⟩ <;> exact ne_of_startsName starts (by decide)

theorem visible_digit (digit : c.isDigit) : c ∉ [' ', '\t', '\x0c', '#'] :=
  (by decide : ∀ c ∈ digits, c ∉ [' ', '\t', '\x0c', '#']) c (mem_digits digit)

theorem scans_whole {ds : List Char} (h : SpellsWhole ds) (ends : Ends rest) (scans : Scans rest ts) :
    Scans (ds ++ rest) (.whole (digitsValue ds) :: ts) := by
  have next := next_whole h ends
  obtain ⟨c, cs, rfl⟩ := exists_cons_of_ne_nil h.nonempty
  exact scans_word (visible_digit (h.digits c (by simp))) next (by simp) scans

theorem scans_decimal {x : Numeral} (h : SpellsDecimal cs x) (ends : Ends rest) (scans : Scans rest ts) :
    Scans (cs ++ rest) (.decimal x :: ts) := by
  have next := h.next rest ends
  obtain ⟨c, cs, rfl, digit⟩ := h.starts
  exact scans_word (visible_digit digit) next (by simp) scans

theorem scans_append (p : Phrase r) (ends : Ends rest)
    (scans : Scans rest ts) : Scans (p.chars ++ rest) (p.tokens ++ ts) := by
  induction p generalizing rest ts with
  | name s h => exact scans_name h ends scans
  | whole ds h => exact scans_whole h ends scans
  | decimal cs x h => exact scans_decimal h ends scans
  | group e ih =>
    have inner := ih (ends_cons (by decide) rest) (scans_mark (c := ')') (by decide) (.inl rfl) scans)
    simp only [chars, tokens, cons_append, append_assoc, nil_append]
    exact scans_mark (by decide) (.inr (e.head?_chars _)) inner
  | lone a ih | unsigned p ih | single f ih | plain t ih => exact ih ends scans
  | pow a ds h ih =>
    simp only [chars, tokens, cons_append, append_assoc, nil_append]
    exact ih (ends_cons (by decide) _) (scans_power (scans_whole h ends scans))
  | neg f ih => exact scans_mark (by decide) (.inr (f.head?_chars rest)) (ih ends scans)
  | div l ds h nonzero ih =>
    simp only [chars, tokens, cons_append, append_assoc, nil_append]
    refine ih (ends_cons (by decide) _) (scans_mark (c := '/') (by decide) ?_ ?_)
    · exact .inr ((Phrase.whole ds h).head?_chars rest)
    · exact scans_whole h ends scans
  | mul gap l r ihl ihr | add gap l r ihl ihr | sub gap l r ihl ihr =>
    simp only [chars, tokens, cons_append, append_assoc]
    exact ihl (ends_joint gap (by decide) _)
      (scans_joint gap (by decide) (r.head?_chars rest) (ihr ends scans))

/-- The characters that phrases are made of: those of names, and signs. -/
def IsPhraseChar (c : Char) : Prop := Token.continuesName c ∨ c ∈ ['(', ')', '*', '+', '-', '/', '.', ' ']

theorem isPhraseChar_joint (gap : ℕ) {sign : Char} (h : sign ∈ ['*', '+', '-']) :
    ∀ c ∈ joint gap sign, IsPhraseChar c := by
  intro c mem
  right
  simp only [joint, mem_append, mem_cons, mem_replicate] at mem
  rcases mem with ⟨_, rfl⟩ | rfl | ⟨_, rfl⟩
  · decide
  · exact (by decide : ∀ c ∈ ['*', '+', '-'], c ∈ ['(', ')', '*', '+', '-', '/', '.', ' ']) c h
  · decide

theorem isPhraseChar_of_spellsWhole {ds : List Char} (h : SpellsWhole ds) : ∀ c ∈ ds, IsPhraseChar c :=
  fun c mem => .inl (continuesName_of_isDigit (h.digits c mem))

theorem isPhraseChar_chars (p : Phrase r) : ∀ c ∈ p.chars, IsPhraseChar c := by
  induction p with
  | name s h => exact fun c mem => .inl (h.continues c mem)
  | whole ds h => exact isPhraseChar_of_spellsWhole h
  | decimal cs x h =>
    intro c mem
    exact (by decide : ∀ c ∈ '.' :: 'e' :: '+' :: '-' :: digits,
      Token.continuesName c ∨ c ∈ ['(', ')', '*', '+', '-', '/', '.', ' ']) c (h.chars c mem)
  | group e ih =>
    simp only [chars, forall_mem_cons, forall_mem_append]
    exact ⟨.inr (by decide), ih, .inr (by decide), forall_mem_nil _⟩
  | lone a ih | unsigned p ih | single f ih | plain t ih => exact ih
  | pow a ds h ih =>
    simp only [chars, forall_mem_cons, forall_mem_append]
    exact ⟨ih, .inr (by decide), .inr (by decide), isPhraseChar_of_spellsWhole h⟩
  | neg f ih => exact forall_mem_cons.mpr ⟨.inr (by decide), ih⟩
  | div l ds h nonzero ih =>
    simp only [chars, forall_mem_cons, forall_mem_append]
    exact ⟨ih, .inr (by decide), isPhraseChar_of_spellsWhole h⟩
  | mul gap l r ihl ihr | add gap l r ihl ihr | sub gap l r ihl ihr =>
    simp only [chars, forall_mem_append]
    exact ⟨⟨ihl, isPhraseChar_joint gap (by decide)⟩, ihr⟩

theorem scan_text (p : Phrase r) : Token.scan "**" p.text = some p.tokens := by
  have oneLine : p.chars.filter (· != '\n') = p.chars := by
    refine filter_eq_self.mpr fun c mem => bne_iff_ne.mpr ?_
    rintro rfl
    exact absurd (p.isPhraseChar_chars _ mem) (by unfold IsPhraseChar; decide)
  have scans := p.scans_append ends_nil scans_nil (p.chars.length + 1) (by simp)
  simp only [append_nil] at scans
  simpa only [Token.scan, text, String.toList_ofList, oneLine] using scans

end Phrase

end Supermartingale
