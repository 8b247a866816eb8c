import Mathlib.Tactic.Positivity
import Supermartingale.Polynomial.Inequality
import Supermartingale.Proofs.Polynomial.Written

/-!
# Sums, differences and comparisons

Sums and differences are formed by appending monomials, a comparison by moving everything to one side. This keeps the
values as long as all coefficients are numbers, as they are in what is read from a text without decimals.
-/

namespace Supermartingale

open List Equation

variable {p : Phrase .sum} {e : Equation}

/-- All coefficients of a polynomial are numbers. -/
def Equation.IsNumeric (e : Equation) : Prop := ∀ m ∈ e.monomials, m.coefficient.isNumeral

theorem Equation.IsWritten.isNumeric (written : e.IsWritten) : e.IsNumeric :=
  fun m mem => (written m mem).coefficient

/-! ## Monomials -/

namespace Monomial

theorem isNumeral_canonical {c : Scalar} (numeral : c.isNumeral) (powers : List (String × Number)) :
    (canonical c powers).coefficient.isNumeral := by
  unfold canonical
  split
  · decide +kernel
  · exact numeral

theorem isNumeral_negate {m : Monomial} (numeral : m.coefficient.isNumeral) : m.negate.coefficient.isNumeral :=
  isNumeral_canonical (Scalar.isNumeral_neg numeral) _

theorem eval_negate {m : Monomial} (numeral : m.coefficient.isNumeral) (ρ : String → ℝ) :
    m.negate.eval ρ = -m.eval ρ := by
  have vanishes := Scalar.written_of_isZero (Scalar.isNumeral_neg numeral)
  rw [negate, eval_canonical ρ _ _ vanishes, Scalar.written_neg numeral, neg_smul, eval]

theorem eval_of_isZero {m : Monomial} (numeral : m.coefficient.isNumeral) (zero : m.isZero)
    (ρ : String → ℝ) : m.eval ρ = 0 := by
  rw [eval, Scalar.written_of_isZero numeral zero, zero_smul]

end Monomial

/-! ## Polynomials -/

namespace Equation

variable {e f : Equation} (ρ : String → ℝ)

section

variable {P : Monomial → Prop}

theorem forall_mem_push (all : ∀ m ∈ e.monomials, P m) {m : Monomial} (new : P m) :
    ∀ n ∈ (e.push m).monomials, P n := by
  unfold push
  split
  · exact all
  · exact forall_mem_append.mpr ⟨all, forall_mem_singleton.mpr new⟩

theorem forall_mem_sub (negated : ∀ m, P m → P m.negate) (left : ∀ m ∈ e.monomials, P m)
    (right : ∀ m ∈ f.monomials, P m) : ∀ m ∈ (e.sub f).monomials, P m := by
  obtain ⟨ms⟩ := f
  unfold sub
  induction ms generalizing e with
  | nil => exact left
  | cons m ms ih =>
    obtain ⟨first, others⟩ := forall_mem_cons.mp right
    exact ih (forall_mem_push left (negated m first)) others

end

theorem IsNumeric.push (numeric : e.IsNumeric) {m : Monomial} (numeral : m.coefficient.isNumeral) :
    (e.push m).IsNumeric :=
  forall_mem_push numeric numeral

theorem eval_push (e : Equation) {m : Monomial} (numeral : m.coefficient.isNumeral) :
    (e.push m).eval ρ = e.eval ρ + m.eval ρ := by
  unfold push
  split
  · rename_i zero
    rw [Monomial.eval_of_isZero numeral zero, add_zero]
  · simp [eval]

theorem add_spec (left : e.IsNumeric) (right : f.IsNumeric) :
    (e.add f).IsNumeric ∧ (e.add f).eval ρ = e.eval ρ + f.eval ρ := by
  obtain ⟨ms⟩ := f
  unfold add
  induction ms generalizing e with
  | nil => exact ⟨left, (add_zero _).symm⟩
  | cons m ms ih =>
    obtain ⟨first, others⟩ := forall_mem_cons.mp right
    obtain ⟨numeric, value⟩ := ih (left.push first) others
    refine ⟨numeric, ?_⟩
    rw [foldl_cons, value, eval_push ρ e first]
    simp [eval, add_assoc]

theorem sub_spec (left : e.IsNumeric) (right : f.IsNumeric) :
    (e.sub f).IsNumeric ∧ (e.sub f).eval ρ = e.eval ρ - f.eval ρ := by
  obtain ⟨ms⟩ := f
  unfold sub
  induction ms generalizing e with
  | nil => exact ⟨left, (sub_zero _).symm⟩
  | cons m ms ih =>
    obtain ⟨first, others⟩ := forall_mem_cons.mp right
    have negated := Monomial.isNumeral_negate first
    obtain ⟨numeric, value⟩ := ih (left.push negated) others
    refine ⟨numeric, ?_⟩
    rw [foldl_cons, value, eval_push ρ e negated, Monomial.eval_negate first]
    simp only [eval, map_cons, sum_cons]
    ring

end Equation

/-! ## Comparisons -/

/-- Whether a relation holds between two real numbers. -/
def Relation.Compares : Relation → ℝ → ℝ → Prop
  | .eq, x, y => x = y
  | .ne, x, y => x ≠ y
  | .gt, x, y => y < x
  | .lt, x, y => x < y
  | .ge, x, y => y ≤ x
  | .le, x, y => x ≤ y

/-- Whether an inequality holds where names have values. -/
def Inequality.Holds (i : Inequality) (ρ : String → ℝ) : Prop := i.relation.Compares (i.left.eval ρ) (i.right.eval ρ)

theorem Relation.compares_sub (relation : Relation) (x y : ℝ) :
    relation.Compares (x - y) 0 ↔ relation.Compares x y := by
  cases relation with
  | eq => exact sub_eq_zero
  | ne => exact sub_ne_zero
  | gt => exact sub_pos
  | lt => exact sub_neg
  | ge => exact sub_nonneg
  | le => exact sub_nonpos

/-- The normal form of a comparison says the same, with strict relations relaxed. -/
theorem Inequality.holds_make {left right : Equation} (relation : Relation) (ρ : String → ℝ)
    (leftNumeric : left.IsNumeric) (rightNumeric : right.IsNumeric) :
    (make left relation right).Holds ρ ↔ relation.relax.Compares (left.eval ρ) (right.eval ρ) := by
  have moved {l r : Equation} (relation : Relation) (hl : l.IsNumeric) (hr : r.IsNumeric) :
      (if r.isZero then (⟨l, relation, r⟩ : Inequality) else ⟨l.sub r, relation, .zero⟩).Holds ρ ↔
        relation.Compares (l.eval ρ) (r.eval ρ) := by
    split
    · rfl
    · rw [← relation.compares_sub, ← (sub_spec ρ hl hr).2]
      rfl
  unfold make
  by_cases turned : relation.relax = .le
  · simp only [turned, if_true]
    exact moved .ge rightNumeric leftNumeric
  · simp only [turned, if_false]
    exact moved relation.relax leftNumeric rightNumeric

theorem Inequality.make_induction {P : Equation → Prop} {Q : Inequality → Prop} {l r : Equation} {relation : Relation}
    (known : relation = .le ∨ relation = .ge) (left : P l) (right : P r)
    (whole : ∀ {a b : Equation}, P a → P b → b.isZero → Q ⟨a, .ge, b⟩)
    (moved : ∀ {a b : Equation}, P a → P b → Q ⟨a.sub b, .ge, .zero⟩) : Q (make l relation r) := by
  have each {a b : Equation} (first : P a) (second : P b) :
      Q (if b.isZero then ⟨a, .ge, b⟩ else ⟨a.sub b, .ge, .zero⟩) := by
    split
    · rename_i zero
      exact whole first second zero
    · exact moved first second
  rcases known with rfl | rfl
  · -- the sides are exchanged first
    exact each right left
  · exact each left right

/-! ## Reading -/

/-- A polynomial stands for what it is worth at every valuation. -/
def Equation.Stands (e : Equation) (value : (String → ℝ) → ℝ) : Prop := e.IsNumeric ∧ ∀ ρ, e.eval ρ = value ρ

/-- What is read from a text has the value that the text spells. -/
def ReadsExactly (s : String) : Prop :=
  ∀ tree e, Expression.read s = some tree → ofText s = .ok e → e.Stands tree.eval

theorem Equation.isNumeric_ofExpansion {x : Expansion} (writable : x.isWritable) : (ofExpansion x).IsNumeric := by
  intro m mem
  unfold ofExpansion ofTerms at mem
  obtain ⟨row, sorted, rfl⟩ := mem_map.mp mem
  rw [Sort.mem_sort] at sorted
  obtain ⟨t, inside, rfl⟩ := mem_map.mp sorted
  obtain ⟨u, term, rfl⟩ := mem_map.mp inside
  refine Monomial.isNumeral_canonical ?_ _
  exact (Bool.and_eq_true_iff.mp (all_eq_true.mp writable u term)).2

theorem Phrase.readsExactly (exact : p.isExact) : ReadsExactly p.text := by
  intro tree e read made
  rw [p.read_text] at read
  cases read
  obtain ⟨x, expanded⟩ := p.exists_expansion exact
  constructor
  · unfold ofText at made
    rw [p.read_text, Option.bind_some, expanded] at made
    dsimp only at made
    split at made
    · rename_i writable
      cases made
      exact isNumeric_ofExpansion writable
    · cases made
  · rcases p.ofText_text (R := ℝ) exact with ⟨e', same, values⟩ | long
    · cases same.symm.trans made
      exact values
    · cases long.symm.trans made

theorem ReadsExactly.phrase (exact : ReadsExactly p.text) (made : ofText p.text = .ok e) :
    e.IsNumeric ∧ ∀ ρ : String → ℝ, e.eval ρ = p.tree.eval ρ :=
  exact p.tree e p.read_text made

/-! ## Exactness

Decimals are read as approximations, so that a polynomial read from a text may differ from what the text
spells. Whether it does can be computed: the text is multiplied out with its decimals as quotients, and the
result is compared with the polynomial. -/

theorem Numeral.value_nonneg (x : Numeral) : 0 ≤ x.value := by
  unfold value
  split
  · exact Nat.cast_nonneg _
  · exact div_nonneg (Nat.cast_nonneg _) (by positivity)

namespace Expression

def quotients : Expression → Expression
  | .decimal x => .div (.whole x.value.num.natAbs) (.whole x.value.den)
  | .neg e => .neg e.quotients
  | .pos e => .pos e.quotients
  | .add l r => .add l.quotients r.quotients
  | .sub l r => .sub l.quotients r.quotients
  | .mul l r => .mul l.quotients r.quotients
  | .div l r => .div l.quotients r.quotients
  | .pow l r => .pow l.quotients r.quotients
  | e => e

theorem number_quotients (e : Expression) : e.quotients.number = e.number := by
  induction e with
  | decimal x =>
    have sign : (x.value.num.natAbs : ℤ) = x.value.num := Int.natAbs_of_nonneg (Rat.num_nonneg.mpr x.value_nonneg)
    have numerator : (x.value.num.natAbs : ℚ) = x.value.num := by
      rw [← Int.cast_natCast, sign]
    rw [quotients, number, number, number, number, numerator, ← div_eq_inv_mul, Rat.num_div_den]
  | neg e ih | pos e ih => simp only [quotients, number, ih]
  | add l r ihl ihr | sub l r ihl ihr | mul l r ihl ihr | div l r ihl ihr | pow l r ihl ihr =>
    simp only [quotients, number, ihl, ihr]
  | _ => rfl

theorem eval_quotients (ρ : String → ℝ) (e : Expression) : e.quotients.eval ρ = e.eval ρ := by
  induction e with
  | decimal x =>
    have value : algebraMap ℚ ℝ (quotients (.decimal x)).number = algebraMap ℚ ℝ x.value :=
      congrArg (algebraMap ℚ ℝ) (number_quotients (.decimal x))
    simp only [quotients, number, map_mul, map_natCast] at value
    simp only [quotients, eval, number, Algebra.smul_def]
    exact value
  | neg e ih | pos e ih => simp only [quotients, eval, ih]
  | add l r ihl ihr | sub l r ihl ihr | mul l r ihl ihr => simp only [quotients, eval, ihl, ihr]
  | div l r ihl _ | pow l r ihl _ => simp only [quotients, eval, ihl, number_quotients]
  | _ => rfl

end Expression

def Equation.expansion (e : Equation) : Expansion :=
  .collect (e.monomials.map fun m => (m.powers.map fun v => (v.1, v.2.exponent), m.coefficient.written))

theorem Equation.eval_expansion (ρ : String → ℝ) (e : Equation) : e.expansion.eval ρ = e.eval ρ := by
  rw [expansion, Expansion.eval_collect, Expansion.eval, map_map]
  refine congrArg List.sum (map_congr_left fun m _ => ?_)
  simp only [Function.comp_apply, PowerProduct.eval, map_map]
  rfl

def readsExactly (s : String) : Bool :=
  match Expression.read s, ofText s with
  | some tree, .ok e => e.monomials.all (fun m => m.coefficient.isNumeral) &&
    Expansion.ofExpression? tree.quotients = some e.expansion
  | _, _ => false

theorem readsExactly_sound {s : String} (checked : readsExactly s) : ReadsExactly s := by
  intro tree e read made
  rw [readsExactly, read, made] at checked
  obtain ⟨numeric, expanded⟩ := Bool.and_eq_true_iff.mp checked
  refine ⟨fun m mem => all_eq_true.mp numeric m mem, fun ρ => ?_⟩
  have expands := Expansion.expands_ofExpression? ρ (of_decide_eq_true expanded)
  rw [← e.eval_expansion, expands.value, Expression.eval_quotients]

end Supermartingale
