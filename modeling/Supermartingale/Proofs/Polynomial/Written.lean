import Supermartingale.Proofs.Polynomial.Coefficient

/-!
# The text of a polynomial is a phrase

A monomial is written as a product of a coefficient and powers, and a polynomial as a sum of monomials in
parentheses. So the text of a polynomial is a phrase, and the phrase has the value of the polynomial.
-/

namespace Supermartingale

open List Phrase

/-! ## Powers -/

def Number.isExponent : Number → Bool
  | .int n => 0 ≤ n && Supermartingale.isWritable n.natAbs
  | .double _ => false

theorem isNumeral_one : (Scalar.given (.int 1)).isNumeral := by decide +kernel

theorem isExponent_one : (Number.int 1).isExponent := by decide +kernel

/-- A monomial that is part of a polynomial. -/
structure Monomial.IsWritten (m : Monomial) : Prop where
  coefficient : m.coefficient.isNumeral
  powers : ∀ v ∈ m.powers, IsUnknown v.1 ∧ v.2.isExponent

/-- A polynomial whose text can be read back. -/
def Equation.IsWritten (e : Equation) : Prop := ∀ m ∈ e.monomials, m.IsWritten

/-- The names that the text of a monomial has. A zero is written without any. -/
def Monomial.names (m : Monomial) : List String :=
  if m.coefficient.isZero then [] else m.powers.map (·.1)

def Equation.names (e : Equation) : List String := e.monomials.flatMap Monomial.names

/-- Every power but the first satisfies a property, together with the digits of the exponent. -/
def Monomial.AllPowers (P : String → List Char → Prop) (m : Monomial) : Prop :=
  ∀ v ∈ m.powers, v.2.exponent ≠ 1 → P v.1 (Nat.toDigits 10 v.2.exponent)

def Equation.AllPowers (P : String → List Char → Prop) (e : Equation) : Prop := ∀ m ∈ e.monomials, m.AllPowers P

/-- Whether all coefficients of a polynomial are rational numbers. -/
def Equation.isRational (e : Equation) : Bool := e.monomials.all (fun m => m.coefficient.isRational)

namespace Monomial

theorem exists_factor {v : String} {p : Number} (unknown : IsUnknown v) (exponent : p.isExponent) :
    ∃ f : Phrase .factor, f.chars = (powerText v p).toList ∧ f.names = [v] ∧ f.isExact ∧
      (∀ P : String → List Char → Prop, (p.exponent ≠ 1 → P v (Nat.toDigits 10 p.exponent)) → f.AllPowers P) ∧
      ∀ (R : Type) [CommRing R] [Algebra ℚ R] (values : String → ℕ → R),
        f.evalPowers values = values v p.exponent := by
  cases p with
  | double x => cases exponent
  | int n =>
    obtain ⟨nonnegative, writable⟩ : 0 ≤ n ∧ isWritable n.natAbs := by
      simpa [Number.isExponent] using exponent
    by_cases one : n = 1
    · refine ⟨.unsigned (.lone (.name v unknown)), ?_, rfl, rfl, fun _ _ => trivial,
        fun R _ _ values => ?_⟩
      · simp [one, powerText, Number.isOne, Number.same, Phrase.chars]
      · simp [one, Phrase.evalPowers, Number.exponent]
    · have exponent : (Number.int n).exponent = n.natAbs := by
        rw [Number.exponent]
        omega
      refine ⟨.unsigned (.pow (.name v unknown) _ (spellsWhole_toDigits writable)), ?_, rfl, rfl,
        fun P h => ?_, fun R _ _ values => ?_⟩
      · have digits := chars_ofInt n writable
        rw [ofInt, if_neg (not_lt.mpr nonnegative)] at digits
        have other : (Number.int n).isOne = false := by simpa [Number.isOne, Number.same] using one
        rw [powerText, other, if_neg Bool.false_ne_true, String.toList_append, String.toList_append,
          Number.text, ← digits]
        exact (append_assoc _ ['*', '*'] _).symm
      · rw [exponent] at h
        exact h (by omega)
      · obtain ⟨k, rfl⟩ := Int.eq_ofNat_of_zero_le nonnegative
        simp only [Phrase.evalPowers, digitsValue_toDigits, Number.exponent, Int.natAbs_natCast, Int.toNat_natCast]

theorem exists_factors {powers : List (String × Number)} (h : ∀ v ∈ powers, IsUnknown v.1 ∧ v.2.isExponent) :
    ∃ fs : List (Phrase .factor),
      fs.map Phrase.chars = powers.map (fun v => (powerText v.1 v.2).toList) ∧
      fs.flatMap Phrase.names = powers.map (·.1) ∧ (∀ f ∈ fs, f.isExact) ∧
      (∀ P : String → List Char → Prop,
        (∀ v ∈ powers, v.2.exponent ≠ 1 → P v.1 (Nat.toDigits 10 v.2.exponent)) →
        ∀ f ∈ fs, f.AllPowers P) ∧
      ∀ (R : Type) [CommRing R] [Algebra ℚ R] (values : String → ℕ → R),
        (fs.map (Phrase.evalPowers values)).prod =
          (powers.map (fun (v, p) => values v p.exponent)).prod := by
  induction powers with
  | nil =>
    exact ⟨[], rfl, rfl, forall_mem_nil _, fun _ _ => forall_mem_nil _, fun R _ _ values => rfl⟩
  | cons head powers ih =>
    obtain ⟨v, p⟩ := head
    obtain ⟨first, others⟩ := forall_mem_cons.mp h
    obtain ⟨f, chars, names, exact, power, value⟩ := exists_factor first.1 first.2
    obtain ⟨fs, allChars, allNames, allExact, allPowers, product⟩ := ih others
    refine ⟨f :: fs, ?_, ?_, forall_mem_cons.mpr ⟨exact, allExact⟩, fun P h => ?_, fun R _ _ values => ?_⟩
    · rw [map_cons, map_cons, chars, allChars]
    · rw [flatMap_cons, names, allNames]
      rfl
    · obtain ⟨own, rest⟩ := forall_mem_cons.mp h
      exact forall_mem_cons.mpr ⟨power P own, allPowers P rest⟩
    · rw [map_cons, prod_cons, value R values, product R values]
      rfl

end Monomial

/-! ## Products -/

namespace Phrase

/-- One sign joins two phrases. -/
structure Joins {r r' : Rank} (sign : Char) (join : Phrase r → Phrase r' → Phrase r) : Prop where
  chars : ∀ a b, (join a b).chars = a.chars ++ joint 1 sign ++ b.chars
  names : ∀ a b, (join a b).names = a.names ++ b.names
  exact : ∀ a b, (join a b).isExact = (a.isExact && b.isExact)
  powers : ∀ P a b, a.AllPowers P → b.AllPowers P → (join a b).AllPowers P

theorem joins_mul : Joins '*' (mul 1) := ⟨fun _ _ => rfl, fun _ _ => rfl, fun _ _ => rfl, fun _ _ _ => And.intro⟩

theorem joins_add : Joins '+' (add 1) := ⟨fun _ _ => rfl, fun _ _ => rfl, fun _ _ => rfl, fun _ _ _ => And.intro⟩

theorem Joins.chain {r r' : Rank} {sign : Char} {join : Phrase r → Phrase r' → Phrase r} (joins : Joins sign join)
    (a : Phrase r) (bs : List (Phrase r')) :
    (bs.foldl join a).chars = a.chars ++ bs.flatMap (fun b => joint 1 sign ++ b.chars) ∧
    (bs.foldl join a).names = a.names ++ bs.flatMap Phrase.names ∧
    (bs.foldl join a).isExact = (a.isExact && bs.all isExact) ∧
    ∀ P, a.AllPowers P → (∀ b ∈ bs, b.AllPowers P) → (bs.foldl join a).AllPowers P := by
  induction bs generalizing a with
  | nil => simp
  | cons b bs ih =>
    obtain ⟨chars, names, exact, powers⟩ := ih (join a b)
    simp only [foldl_cons, chars, names, exact, joins.chars, joins.names, joins.exact]
    refine ⟨by simp, by simp, by simp [Bool.and_assoc], fun P first others => ?_⟩
    obtain ⟨second, rest⟩ := forall_mem_cons.mp others
    exact powers P (joins.powers P a b first second) rest

def product (t : Phrase .term) (fs : List (Phrase .factor)) : Phrase .term := fs.foldl (mul 1) t

theorem evalPowers_product {R : Type*} [CommRing R] [Algebra ℚ R] (values : String → ℕ → R)
    (t : Phrase .term) (fs : List (Phrase .factor)) :
    (product t fs).evalPowers values =
      t.evalPowers values * (fs.map (evalPowers values)).prod := by
  induction fs generalizing t with
  | nil => simp [product]
  | cons f fs ih =>
    rw [product, foldl_cons, ← product, ih (mul 1 t f), map_cons, prod_cons, evalPowers, mul_assoc]

def total (e : Phrase .sum) (ts : List (Phrase .term)) : Phrase .sum := ts.foldl (add 1) e

theorem evalPowers_total {R : Type*} [CommRing R] [Algebra ℚ R] (values : String → ℕ → R)
    (e : Phrase .sum) (ts : List (Phrase .term)) :
    (total e ts).evalPowers values = e.evalPowers values + (ts.map (evalPowers values)).sum := by
  induction ts generalizing e with
  | nil => simp [total]
  | cons t ts ih =>
    rw [total, foldl_cons, ← total, ih (add 1 e t), map_cons, sum_cons, evalPowers, add_assoc]

end Phrase

theorem toList_intercalate (separator first : String) (rest : List String) :
    (String.intercalate separator (first :: rest)).toList =
      first.toList ++ rest.flatMap (fun s => separator.toList ++ s.toList) := by
  induction rest generalizing first with
  | nil => simp
  | cons second rest ih =>
    rw [String.intercalate_cons_cons, String.toList_append, String.toList_append, ih]
    simp

theorem intercalate_chars {r : Rank} {f : Phrase r} {fs : List (Phrase r)} {texts : List String}
    (separator : String) (chars : (f :: fs).map Phrase.chars = texts.map String.toList) :
    (String.intercalate separator texts).toList =
      f.chars ++ fs.flatMap (fun g => separator.toList ++ g.chars) := by
  cases texts with
  | nil => cases chars
  | cons s texts =>
    obtain ⟨first, others⟩ := List.cons.inj chars
    rw [toList_intercalate, first, ← flatMap_map Phrase.chars, others, flatMap_map]

/-! ## Monomials -/

theorem spellsWhole_digit {c : Char} (digit : c ∈ digits) : SpellsWhole [c] := by
  obtain ⟨isDigit, plain⟩ := (by decide : ∀ c ∈ digits, c.isDigit ∧ Token.spellsWhole [c]) c digit
  exact ⟨cons_ne_nil c [], forall_mem_singleton.mpr isDigit, plain, (by decide : 1 ≤ digitLimit)⟩

theorem spellsWhole_zero : SpellsWhole ['0'] := spellsWhole_digit (by decide)

def Phrase.zero : Phrase .term := .single (.unsigned (.lone (.whole ['0'] spellsWhole_zero)))

theorem Phrase.evalPowers_zero {R : Type*} [CommRing R] [Algebra ℚ R] (values : String → ℕ → R) :
    zero.evalPowers values = 0 := by
  simp [zero, evalPowers, digitsValue]

namespace Monomial

theorem exists_phrase {m : Monomial} (h : m.IsWritten) :
    ∃ t : Phrase .term, t.chars = m.text.toList ∧ t.names = m.names ∧
      (m.coefficient.isRational → t.isExact) ∧ (∀ P, m.AllPowers P → t.AllPowers P) ∧
      ∀ (R : Type) [CommRing R] [Algebra ℚ R] (values : String → ℕ → R),
        t.evalPowers values = m.evalPowers values := by
  obtain ⟨c, coefficientText, closed, number, exactness⟩ := Scalar.exists_phrase h.coefficient
  obtain ⟨fs, chars, factorNames, allExact, allPowers, product⟩ := exists_factors h.powers
  have factorsExact : fs.all Phrase.isExact := all_eq_true.mpr allExact
  by_cases zero : m.coefficient.isZero
  · -- nothing but a zero is written
    refine ⟨.zero, ?_, ?_, fun _ => rfl, fun _ _ => trivial, fun R _ _ values => ?_⟩
    · rw [text, if_pos zero]
      rfl
    · rw [names, if_pos zero]
      rfl
    · rw [evalPowers, Scalar.written_of_isZero h.coefficient zero, zero_smul, evalPowers_zero]
  · rw [names, if_neg zero]
    cases fs with
    | nil =>
      -- the coefficient stands alone
      have alone : m.powers = [] := by simpa using chars.symm
      refine ⟨c, ?_, by simp [closed, alone], exactness, fun P _ => c.allPowers_of_names (by simp [closed]),
        fun R _ _ values => ?_⟩
      · rw [text, if_neg zero, alone, isEmpty_nil, if_pos rfl, coefficientText]
      · rw [evalPowers, c.evalPowers_of_closed closed, number, alone, Algebra.algebraMap_eq_smul_one]
        rfl
    | cons f fs =>
      have some : m.powers.isEmpty = false := by
        cases powers : m.powers with
        | nil => simp [powers] at chars
        | cons => rfl
      have body : (String.intercalate " * " (m.powers.map (fun (v, p) => powerText v p))).toList =
          f.chars ++ fs.flatMap (fun g => joint 1 '*' ++ g.chars) :=
        intercalate_chars " * " (by rw [chars, map_map]; rfl)
      by_cases one : m.coefficient.isOne
      · obtain ⟨joined, named, exactly, powered⟩ := Phrase.joins_mul.chain (.single f) fs
        refine ⟨.product (.single f) fs, ?_, named.trans factorNames, fun _ => exactly.trans factorsExact,
          fun P h => ?_, fun R _ _ values => ?_⟩
        · rw [text, if_neg zero, some, if_neg Bool.false_ne_true, if_pos one, body]
          exact joined
        · obtain ⟨first, others⟩ := forall_mem_cons.mp (allPowers P h)
          exact powered P first others
        · rw [evalPowers, Scalar.written_of_isOne h.coefficient one, one_smul, ← product R values,
            evalPowers_product, map_cons, prod_cons]
          rfl
      · obtain ⟨joined, named, exactly, powered⟩ := Phrase.joins_mul.chain c (f :: fs)
        refine ⟨.product c (f :: fs), joined.trans ?_, named.trans ?_, fun rational => exactly.trans ?_, fun P h => ?_,
          fun R _ _ values => ?_⟩
        · rw [text, if_neg zero, some, if_neg Bool.false_ne_true, if_neg one, String.toList_append,
            String.toList_append, body, coefficientText]
          simp [joint]
        · rw [closed]
          exact factorNames
        · rw [exactness rational]
          exact factorsExact
        · exact powered P (c.allPowers_of_names (by simp [closed])) (allPowers P h)
        · rw [evalPowers, ← product R values, evalPowers_product, c.evalPowers_of_closed closed, number,
            ← Algebra.smul_def]

end Monomial

/-! ## Polynomials -/

/-- A phrase is what the text of a polynomial is made of, and has its value. -/
structure Phrase.Writes (p : Phrase .sum) (e : Equation) : Prop where
  text : p.text = e.text
  names : p.names = e.names
  exact : e.isRational → p.isExact
  powers : ∀ P, e.AllPowers P → p.AllPowers P
  value : ∀ (R : Type) [CommRing R] [Algebra ℚ R] (values : String → ℕ → R), p.evalPowers values = e.evalPowers values

theorem Phrase.Writes.eval {p : Phrase .sum} {e : Equation} (h : p.Writes e) (ρ : String → ℝ) :
    p.tree.eval ρ = e.eval ρ := by
  rw [← evalPowers_eq_eval, h.value, Equation.evalPowers_eq_eval]

namespace Equation

theorem exists_terms {ms : List Monomial} (h : ∀ m ∈ ms, m.IsWritten) :
    ∃ ts : List (Phrase .term),
      ts.map Phrase.chars = ms.map (fun m => ("(" ++ m.text ++ ")").toList) ∧
      ts.flatMap Phrase.names = ms.flatMap Monomial.names ∧
      (ms.all (fun m => m.coefficient.isRational) → ts.all Phrase.isExact) ∧
      (∀ P, (∀ m ∈ ms, m.AllPowers P) → ∀ t ∈ ts, t.AllPowers P) ∧
      ∀ (R : Type) [CommRing R] [Algebra ℚ R] (values : String → ℕ → R),
        (ts.map (Phrase.evalPowers values)).sum = (ms.map (Monomial.evalPowers values)).sum := by
  induction ms with
  | nil =>
    exact ⟨[], rfl, rfl, fun _ => rfl, fun _ _ => forall_mem_nil _, fun R _ _ values => rfl⟩
  | cons m ms ih =>
    obtain ⟨first, others⟩ := forall_mem_cons.mp h
    obtain ⟨t, chars, names, exact, powers, value⟩ := Monomial.exists_phrase first
    obtain ⟨ts, allChars, allNames, allExact, allPowers, sum⟩ := ih others
    refine ⟨.single (.unsigned (.lone (.group (.plain t)))) :: ts, ?_, ?_, ?_, fun P h => ?_, fun R _ _ values => ?_⟩
    · rw [map_cons, map_cons, allChars, String.toList_append, String.toList_append, ← chars]
      rfl
    · rw [flatMap_cons, flatMap_cons, allNames, ← names]
      rfl
    · intro rational
      rw [all_cons, Bool.and_eq_true] at rational ⊢
      exact ⟨exact rational.1, allExact rational.2⟩
    · obtain ⟨own, rest⟩ := forall_mem_cons.mp h
      exact forall_mem_cons.mpr ⟨powers P own, allPowers P rest⟩
    · rw [map_cons, map_cons, sum_cons, sum_cons, sum R values, ← value R values]
      rfl

theorem exists_phrase {e : Equation} (h : e.IsWritten) : ∃ p : Phrase .sum, p.Writes e := by
  obtain ⟨ts, chars, names, exact, powers, sum⟩ := exists_terms h
  cases ts with
  | nil =>
    have empty : e.monomials = [] := by simpa using chars.symm
    refine ⟨.plain .zero, ?_, ?_, fun _ => rfl, fun _ _ => trivial, fun R _ _ values => ?_⟩
    · rw [text, empty]
      rfl
    · exact names
    · rw [evalPowers, empty]
      exact evalPowers_zero values
  | cons t ts =>
    have written : e.text =
        String.intercalate " + " (e.monomials.map (fun m => "(" ++ m.text ++ ")")) := by
      rw [text]
      split
      · rename_i empty
        simp [empty] at chars
      · rfl
    obtain ⟨joined, named, exactly, powered⟩ := Phrase.joins_add.chain (.plain t) ts
    refine ⟨.total (.plain t) ts, ?_, named.trans names, fun rational => exactly.trans (exact rational), fun P h => ?_,
      fun R _ _ values => ?_⟩
    · rw [written, ← String.toList_inj, Phrase.text, String.toList_ofList,
        intercalate_chars " + " (chars.trans (by rw [map_map]; rfl))]
      exact joined
    · obtain ⟨first, others⟩ := forall_mem_cons.mp (powers P h)
      exact powered P first others
    · rw [evalPowers, ← sum R values, evalPowers_total, map_cons, sum_cons]
      rfl

end Equation

end Supermartingale
