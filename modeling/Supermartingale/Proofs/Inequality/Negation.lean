import Supermartingale.Proofs.Polynomial.Arithmetic
import Supermartingale.Proofs.Polynomial.Canonical
import Supermartingale.Workbench

/-!
# Normal forms and relaxed negation

A comparison is turned around and moved to the left of `>=`. Where no coefficient is zero, moving a polynomial negates
its monomials one by one and skips none of them, so negating a comparison twice gives its monomials back as they were.
-/

namespace Supermartingale

open List Equation Monomial

/-! ## Fractions -/

namespace Scalar

def isFraction : Scalar → Bool
  | .given (.int _) | .exact _ => true
  | _ => false

variable {c : Scalar} (fraction : c.isFraction)
include fraction

theorem eq_of_isFraction : (∃ n, c = .given (.int n)) ∨ ∃ q, c = .exact q := by
  cases c with
  | given x =>
    cases x with
    | int n => exact .inl ⟨n, rfl⟩
    | double x => cases fraction
  | exact q => exact .inr ⟨q, rfl⟩
  | approx a => cases fraction
  | symbolic x => cases fraction

theorem isFraction_neg : c.neg.isFraction := by
  rcases eq_of_isFraction fraction with ⟨n, rfl⟩ | ⟨q, rfl⟩
  · rfl
  · rfl

theorem neg_neg_of_isFraction : c.neg.neg = c := by
  rcases eq_of_isFraction fraction with ⟨n, rfl⟩ | ⟨q, rfl⟩
  · simp [neg, Number.neg]
  · simp [neg]

theorem written_neg_of_isFraction : c.neg.written = -c.written := by
  rcases eq_of_isFraction fraction with ⟨n, rfl⟩ | ⟨q, rfl⟩
  · simp [neg, Number.neg, written]
  · rfl

theorem isZero_neg_of_isFraction : c.neg.isZero = c.isZero := by
  rcases eq_of_isFraction fraction with ⟨n, rfl⟩ | ⟨q, rfl⟩
  · simp [isZero, neg, Number.neg, value?, Number.value?]
  · simp [isZero, neg, value?]

end Scalar

/-! ## Monomials as they are made -/

namespace Monomial

/-- A monomial that is made of a fraction that is not zero, names and natural powers. -/
structure IsMade (m : Monomial) : Prop where
  made : ∃ names powers, make m.coefficient names powers = .ok m
  fraction : m.coefficient.isFraction
  nonzero : m.isZero = false
  natural : ∀ v ∈ m.powers, ∃ k : ℕ, v.2 = .int k

variable {m : Monomial}

namespace IsMade

variable (h : m.IsMade)
include h

/-- A monomial that is made can be made of the same names and powers with another coefficient. -/
theorem exists_powers : ∃ powers : List (String × Number), m.powers =
    Sort.sort (fun a b => decide (a.1 ≤ b.1)) (powers.filter (fun v => !v.2.isZero)) ∧
    ∀ c : Scalar, c.isZero = false → ∃ names given, make c names given = .ok ⟨c, m.powers⟩ := by
  obtain ⟨names, given, made⟩ := h.made
  unfold make at made
  split at made
  · cases made
  · rename_i fits
    have powers := congrArg Monomial.powers (Except.ok.inj made)
    rw [canonical_of_nonzero h.nonzero] at powers
    refine ⟨names.zip given, powers.symm, fun c nonzero => ⟨names, given, ?_⟩⟩
    rw [make, if_neg fits, canonical_of_nonzero nonzero]
    exact congrArg (fun ps => Except.ok (Monomial.mk c ps)) powers

theorem nonzero_neg : m.coefficient.neg.isZero = false := by
  rw [Scalar.isZero_neg_of_isFraction h.fraction]
  exact h.nonzero

theorem negate_eq : m.negate = ⟨m.coefficient.neg, m.powers⟩ := by
  obtain ⟨powers, sorted, _⟩ := h.exists_powers
  refine canonical_of_sorted h.nonzero_neg ?_ fun v mem => ?_
  · rw [sorted]
    exact pairwise_sort _
  · rw [sorted, Sort.mem_sort] at mem
    simpa using (mem_filter.mp mem).2

theorem negate : m.negate.IsMade := by
  obtain ⟨_, _, remade⟩ := h.exists_powers
  rw [h.negate_eq]
  exact ⟨remade _ h.nonzero_neg, Scalar.isFraction_neg h.fraction, h.nonzero_neg, h.natural⟩

theorem negate_negate : m.negate.negate = m := by
  rw [h.negate.negate_eq, h.negate_eq]
  dsimp only
  rw [Scalar.neg_neg_of_isFraction h.fraction]

theorem eval_negate (ρ : String → ℝ) : m.negate.eval ρ = -m.eval ρ := by
  rw [h.negate_eq, eval, eval, Scalar.written_neg_of_isFraction h.fraction, neg_smul]

end IsMade

end Monomial

/-! ## Differences -/

namespace Equation

/-- The monomials of a polynomial are made of fractions that are not zero, names and natural powers. -/
def IsMade (e : Equation) : Prop := ∀ m ∈ e.monomials, m.IsMade

variable {e f : Equation}

theorem IsMade.isZero_iff (h : e.IsMade) : e.isZero ↔ e = .zero := by
  constructor
  · intro zero
    obtain ⟨ms⟩ := e
    cases ms with
    | nil => rfl
    | cons m ms =>
      have first := all_eq_true.mp zero m mem_cons_self
      rw [(h m mem_cons_self).nonzero] at first
      cases first
  · rintro rfl
    rfl

theorem monomials_sub (right : f.IsMade) :
    (e.sub f).monomials = e.monomials ++ f.monomials.map negate := by
  obtain ⟨ms⟩ := f
  unfold sub
  induction ms generalizing e with
  | nil => simp
  | cons m ms ih =>
    obtain ⟨first, others⟩ := forall_mem_cons.mp right
    have pushed : e.push m.negate = ⟨e.monomials ++ [m.negate]⟩ := by
      rw [push, first.negate.nonzero]
      rfl
    rw [foldl_cons, pushed, ih others]
    simp

theorem IsMade.sub (left : e.IsMade) (right : f.IsMade) : (e.sub f).IsMade := by
  unfold IsMade
  rw [monomials_sub right, forall_mem_append, forall_mem_map]
  exact ⟨left, fun m mem => (right m mem).negate⟩

theorem eval_sub (right : f.IsMade) (ρ : String → ℝ) : (e.sub f).eval ρ = e.eval ρ - f.eval ρ := by
  have negated : (f.monomials.map fun m => m.negate.eval ρ).sum = -f.eval ρ := by
    rw [map_congr_left fun m mem => (right m mem).eval_negate ρ, eval, sum_neg, map_map]
    rfl
  rw [eval, monomials_sub right, map_append, sum_append, map_map]
  exact (congrArg (e.eval ρ + ·) negated).trans (sub_eq_add_neg _ _).symm

theorem isMade_zero : zero.IsMade := forall_mem_nil _

theorem IsMade.zero_sub_zero_sub (h : e.IsMade) : zero.sub (zero.sub e) = e := by
  have monomials : (zero.sub (zero.sub e)).monomials = e.monomials := by
    rw [monomials_sub (isMade_zero.sub h), monomials_sub h]
    simp only [zero, nil_append, map_map]
    exact (map_congr_left fun m mem => (h m mem).negate_negate).trans (map_id _)
  exact congrArg mk monomials

end Equation

/-! ## Comparisons -/

namespace Inequality

variable {l r e : Equation} {c : Relation}

def difference (l : Equation) (c : Relation) (r : Equation) : Equation :=
  if c.relax = .le then r.sub l else l.sub r

theorem make_eq (left : l.IsMade) (right : r.IsMade) (known : c ∈ [.lt, .le, .gt, .ge]) :
    make l c r = ⟨difference l c r, .ge, .zero⟩ := by
  -- a polynomial that is zero is empty, so it can be subtracted as well
  have moved (l : Equation) {r : Equation} (right : r.IsMade) :
      (if r.isZero then (⟨l, .ge, r⟩ : Inequality) else ⟨l.sub r, .ge, .zero⟩) = ⟨l.sub r, .ge, .zero⟩ := by
    split
    · rename_i zero
      cases right.isZero_iff.mp zero
      rfl
    · rfl
  simp only [mem_cons, not_mem_nil, or_false] at known
  rcases known with rfl | rfl | rfl | rfl
  · exact moved r left
  · exact moved r left
  · exact moved l right
  · exact moved l right

theorem isMade_difference (left : l.IsMade) (right : r.IsMade) (c : Relation) : (difference l c r).IsMade := by
  unfold difference
  split
  · exact right.sub left
  · exact left.sub right

theorem nonneg_difference_iff (left : l.IsMade) (right : r.IsMade) (known : c ∈ [.lt, .le, .gt, .ge]) (ρ : String → ℝ) :
    0 ≤ (difference l c r).eval ρ ↔ c.relax.Compares (l.eval ρ) (r.eval ρ) := by
  have moved (l : Equation) {r : Equation} (right : r.IsMade) : 0 ≤ (l.sub r).eval ρ ↔ r.eval ρ ≤ l.eval ρ := by
    rw [eval_sub right, sub_nonneg]
  simp only [mem_cons, not_mem_nil, or_false] at known
  rcases known with rfl | rfl | rfl | rfl
  · exact moved r left
  · exact moved r left
  · exact moved l right
  · exact moved l right

theorem negate_normal (h : e.IsMade) : (⟨e, .ge, .zero⟩ : Inequality).negate = ⟨zero.sub e, .ge, .zero⟩ :=
  make_eq h isMade_zero (by decide : Relation.le ∈ [.lt, .le, .gt, .ge])

theorem holds_negate_normal (h : e.IsMade) (ρ : String → ℝ) :
    (⟨e, .ge, .zero⟩ : Inequality).negate.Holds ρ ↔ e.eval ρ ≤ 0 := by
  rw [negate_normal h]
  exact (congrArg (0 ≤ ·) ((eval_sub h ρ).trans (zero_sub _))).to_iff.trans neg_nonneg

end Inequality

/-! ## Workbenches -/

namespace Workbench

/-- A polynomial stands at a place of a workbench. -/
def Bench.HoldsAt (b : Bench) (r : Ref) (e : Equation) : Prop := b.cells[r]? = some (e.monomials.map .monomial)

/-- An item of a workbench stands for an inequality. -/
def Bench.StandsFor (b : Bench) (a : Item) (i : Inequality) : Prop :=
  ∃ l r, a = .inequality l i.relation r ∧ b.HoldsAt l i.left ∧ b.HoldsAt r i.right

/-- A workbench on which something was put into new places. -/
structure Bench.Extends (b b' : Bench) : Prop where
  cells : b.cells.toList <+: b'.cells.toList
  names : b'.names = b.names
  spaces : b'.spaces = b.spaces

variable {b b' : Bench} {i : Inequality} {e f : Equation} {l r : Ref} {a : Item}

theorem Bench.Extends.refl (b : Bench) : b.Extends b := ⟨prefix_rfl, rfl, rfl⟩

theorem Bench.Extends.holdsAt (extended : b.Extends b') {r : Ref} {e : Equation} (holds : b.HoldsAt r e) :
    b'.HoldsAt r e := by
  unfold HoldsAt at holds ⊢
  rw [← Array.getElem?_toList] at holds ⊢
  obtain ⟨bound, _⟩ := List.getElem?_eq_some_iff.mp holds
  obtain ⟨new, cells⟩ := extended.cells
  rw [← cells, List.getElem?_append_left bound, holds]

theorem Bench.Extends.standsFor (extended : b.Extends b') (stands : b.StandsFor a i) : b'.StandsFor a i := by
  obtain ⟨l, r, same, left, right⟩ := stands
  exact ⟨l, r, same, extended.holdsAt left, extended.holdsAt right⟩

/-- What a step gives on a workbench, and the workbench behind it. -/
def Step.on {α : Type} (step : Step α) (b : Bench) : Except Error α × Bench := (ExceptT.run step).run b

theorem Step.on_bind {α β : Type} {x : Step α} {f : α → Step β} {a : α} (first : x.on b = (.ok a, b')) :
    (x >>= f).on b = (f a).on b' := by
  change (ExceptT.run x b >>= fun r => ExceptT.bindCont f r.1 r.2 : Id _) = _
  have first : ExceptT.run x b = ((.ok a, b') : Except Error α × Bench) := first
  rw [first]
  rfl

theorem mapM_term (ms : List Monomial) : (ms.map Part.monomial).mapM Part.term = .ok ms := by
  induction ms with
  | nil => rfl
  | cons m ms ih =>
    rw [map_cons, mapM_cons, ih]
    rfl

theorem fetch_on {r : Ref} {e : Equation} (holds : b.HoldsAt r e) : (fetch r).on b = (.ok e, b) := by
  have found : (parts r).on b = (.ok (e.monomials.map .monomial), b) := by
    change (Except.ok ((b.cells[r]?).getD []), b) = _
    rw [holds, Option.getD_some]
  unfold fetch
  rw [Step.on_bind found, mapM_term]
  rfl

theorem store_on (b : Bench) (e : Equation) :
    ∃ b', (store e).on b = (.ok b.cells.size, b') ∧ b.Extends b' ∧ b'.HoldsAt b.cells.size e := by
  refine ⟨{ b with cells := b.cells.push (e.monomials.map .monomial) }, rfl, ⟨?_, rfl, rfl⟩, ?_⟩
  · simp
  · simp [Bench.HoldsAt]

theorem Bench.Extends.trans {b' b'' : Bench} (first : b.Extends b') (second : b'.Extends b'') : b.Extends b'' :=
  ⟨first.cells.trans second.cells, second.names.trans first.names, second.spaces.trans first.spaces⟩

theorem compare_on (left : b.HoldsAt l e) (right : b.HoldsAt r f) (c : Relation) :
    ∃ a b', (compare l c r).on b = (.ok a, b') ∧ b.Extends b' ∧
      b'.StandsFor a (if f.isZero then ⟨e, c, f⟩ else ⟨e.sub f, c, .zero⟩) := by
  have fetched {g : Equation → Step Item} : (fetch r >>= g).on b = (g f).on b := Step.on_bind (fetch_on right)
  unfold compare
  rw [fetched]
  by_cases zero : f.isZero
  · rw [if_pos zero, if_pos zero]
    exact ⟨_, b, rfl, .refl b, l, r, rfl, left, right⟩
  · rw [if_neg zero, if_neg zero, Step.on_bind (fetch_on left)]
    obtain ⟨b₁, stored, extended, difference⟩ := store_on b (e.sub f)
    obtain ⟨b₂, stored', extended', nothing⟩ := store_on b₁ .zero
    rw [Step.on_bind stored, Step.on_bind stored']
    exact ⟨_, b₂, rfl, extended.trans extended', _, _, rfl, extended'.holdsAt difference, nothing⟩

theorem makeInequality_on (left : b.HoldsAt l e) (right : b.HoldsAt r f) (c : Relation) :
    ∃ a b', (makeInequality (.equation l) c (.equation r)).on b = (.ok a, b') ∧ b.Extends b' ∧
      b'.StandsFor a (.make e c f) := by
  unfold makeInequality Inequality.make
  by_cases turned : c.relax = .le
  · simp only [turned, if_true]
    exact compare_on right left _
  · simp only [turned, if_false]
    exact compare_on left right _

theorem negateInequality_on (stands : b.StandsFor a i) :
    ∃ a' b', (negateInequality a).on b = (.ok a', b') ∧ b.Extends b' ∧ b'.StandsFor a' i.negate := by
  obtain ⟨l, r, rfl, left, right⟩ := stands
  exact makeInequality_on left right _

end Workbench

/-! ## Main result -/

/-- A comparison of polynomials is kept as a difference that is to be nonnegative, and it is where the
comparison holds, strict ones relaxed. Its negation holds where the difference is not positive and leaves it as
it is, and the negation of the negation is the comparison itself. -/
structure Inequality.Normalises (i : Inequality) (l : Equation) (c : Relation) (r : Equation) : Prop where
  relation : i.relation = .ge
  right : i.right.isZero ∧ ∀ ρ, i.right.eval ρ = (0 : ℝ)
  holds : ∀ ρ : String → ℝ, 0 ≤ i.left.eval ρ ↔ c.relax.Compares (l.eval ρ) (r.eval ρ)
  negation : ∀ ρ : String → ℝ, i.negate.Holds ρ ↔ i.left.eval ρ ≤ 0
  kept : ∀ (b : Workbench.Bench) (a : Workbench.Item), b.StandsFor a i →
    ∃ a' b', (Workbench.negateInequality a).on b = (.ok a', b') ∧ b'.StandsFor a' i.negate ∧
      ∀ x j, b.StandsFor x j → b'.StandsFor x j
  twice : i.negate.negate = i ∧ i.negate.negate.same i

theorem Inequality.normalises_and_negates {l r : Equation} (left : l.IsMade) (right : r.IsMade) {c : Relation}
    (known : c ∈ [.lt, .le, .gt, .ge]) : (make l c r).Normalises l c r := by
  have made := isMade_difference left right c
  have twice : (⟨difference l c r, .ge, .zero⟩ : Inequality).negate.negate = ⟨difference l c r, .ge, .zero⟩ := by
    rw [negate_normal made, negate_normal (isMade_zero.sub made), made.zero_sub_zero_sub]
  rw [make_eq left right known]
  refine ⟨rfl, ⟨rfl, fun _ => rfl⟩, nonneg_difference_iff left right known, holds_negate_normal made,
    fun b a stands => ?_, twice, ?_⟩
  · obtain ⟨a', b', negated, extended, result⟩ := Workbench.negateInequality_on stands
    exact ⟨a', b', negated, result, fun x j => extended.standsFor⟩
  · rw [twice, same, beq_self_eq_true]

namespace Equation

def arch : Equation := ⟨[⟨.exact (-1 / 2), [("S1", .int 2)]⟩, ⟨.given (.int 3), [("A1", .int 1), ("S2", .int 1)]⟩]⟩

/-- `5/7 + S1**2`, of which the square is like a monomial of the other. -/
def bowl : Equation := ⟨[⟨.exact (5 / 7), []⟩, ⟨.given (.int 1), [("S1", .int 2)]⟩]⟩

theorem isMade_arch : arch.IsMade := by
  have quotient : (Scalar.exact (-1 / 2)).isZero = false := by decide +kernel
  refine forall_mem_cons.mpr ⟨?_, forall_mem_singleton.mpr ?_⟩
  · have made : make (.exact (-1 / 2)) ["S1", "S2"] [.int 2, .int 0] = _ :=
      congrArg Except.ok (canonical_of_nonzero quotient _)
    exact ⟨⟨_, _, made⟩, rfl, quotient, by simpa using ⟨2, rfl⟩⟩
  · exact ⟨⟨["S2", "A1"], [.int 1, .int 1], rfl⟩, rfl, by decide +kernel, by simpa using ⟨1, rfl⟩⟩

theorem isMade_bowl : bowl.IsMade := by
  have quotient : (Scalar.exact (5 / 7)).isZero = false := by decide +kernel
  refine forall_mem_cons.mpr ⟨?_, forall_mem_singleton.mpr ?_⟩
  · have made : make (.exact (5 / 7)) [] [] = _ :=
      congrArg Except.ok (canonical_of_nonzero quotient _)
    exact ⟨⟨_, _, made⟩, rfl, quotient, forall_mem_nil _⟩
  · exact ⟨⟨["S1"], [.int 2], rfl⟩, rfl, by decide +kernel, by simpa using ⟨2, rfl⟩⟩

end Equation

theorem Inequality.arch_normalises_and_negates : arch.IsMade ∧ bowl.IsMade ∧
    Relation.lt ∈ [Relation.lt, .le, .gt, .ge] ∧ (make .arch .lt .bowl).Normalises .arch .lt .bowl :=
  ⟨isMade_arch, isMade_bowl, by decide, normalises_and_negates isMade_arch isMade_bowl (by decide)⟩

end Supermartingale
