import Mathlib.Algebra.MvPolynomial.Basic
import Mathlib.Data.String.Basic
import Supermartingale.Proofs.Polynomial.Expansion

/-!
# A polynomial has one expansion

The products of an expansion are in order, none of them twice, without zero coefficients and powers. So a term is in
it exactly if the polynomial has that coefficient at the exponents of the term.
-/

namespace Supermartingale

open List

/-- Two lists that a strict order sorts are equal if they have the same members. -/
theorem eq_of_pairwise_of_mem_iff {α : Type} (lt : α → α → Prop) (asymm : ∀ a b, lt a b → ¬ lt b a)
    {xs ys : List α} (first : xs.Pairwise lt) (second : ys.Pairwise lt)
    (same : ∀ a, a ∈ xs ↔ a ∈ ys) : xs = ys := by
  have distinct {zs : List α} (sorted : zs.Pairwise lt) : zs.Nodup :=
    sorted.imp fun {a b} below => by
      rintro rfl
      exact asymm _ _ below below
  refine List.Perm.eq_of_pairwise (fun a b _ _ below above => absurd above (asymm a b below)) first second ?_
  exact (perm_ext_iff_of_nodup (distinct first) (distinct second)).mpr same

/-! ## Products -/

namespace PowerProduct

variable {p : PowerProduct}

noncomputable def exponents (p : PowerProduct) : String →₀ ℕ := (p.map fun v => Finsupp.single v.1 v.2).sum

open MvPolynomial

theorem eval_X (p : PowerProduct) : eval (X (R := ℚ)) p = monomial p.exponents 1 := by
  induction p with
  | nil => rfl
  | cons v p ih =>
    rw [eval_cons, ih, X_pow_eq_monomial, monomial_mul, one_mul]
    rfl

theorem exponents_cons (v : String) (k : ℕ) (p : PowerProduct) :
    exponents ((v, k) :: p) = Finsupp.single v k + exponents p := rfl

theorem exponents_of_not_mem {s : String} (absent : s ∉ p.map (·.1)) : p.exponents s = 0 := by
  induction p with
  | nil => rfl
  | cons v p ih =>
    rw [map_cons, mem_cons, not_or] at absent
    rw [exponents_cons, Finsupp.add_apply, Finsupp.single_eq_of_ne absent.1, ih absent.2]

theorem exponents_of_mem (sorted : p.Sorted) {s : String} {k : ℕ} (mem : (s, k) ∈ p) : p.exponents s = k := by
  induction p with
  | nil => cases mem
  | cons v p ih =>
    have once := sorted.nodup
    rw [map_cons, nodup_cons] at once
    rw [exponents_cons, Finsupp.add_apply]
    rcases mem_cons.mp mem with rfl | mem
    · rw [Finsupp.single_eq_same, exponents_of_not_mem once.1, add_zero]
    · have different : s ≠ v.1 := by
        rintro rfl
        exact once.1 (mem_map.mpr ⟨_, mem, rfl⟩)
      rw [Finsupp.single_eq_of_ne different, zero_add]
      exact ih (pairwise_cons.mp sorted).2 mem

theorem Proper.mem_iff (proper : p.Proper) {v : String × ℕ} : v ∈ p ↔ p.exponents v.1 = v.2 ∧ v.2 ≠ 0 := by
  constructor
  · intro mem
    exact ⟨exponents_of_mem proper.sorted mem, proper.positive v mem⟩
  · rintro ⟨power, positive⟩
    by_contra absent
    by_cases named : v.1 ∈ p.map (·.1)
    · obtain ⟨w, mem, same⟩ := mem_map.mp named
      have other : p.exponents v.1 = w.2 := by
        rw [← same]
        exact exponents_of_mem proper.sorted mem
      have : w = v := Prod.ext same (other.symm.trans power)
      exact absent (this ▸ mem)
    · exact positive (power ▸ exponents_of_not_mem named)

theorem Proper.eq_of_exponents {p q : PowerProduct} (hp : p.Proper) (hq : q.Proper)
    (same : p.exponents = q.exponents) : p = q := by
  refine eq_of_pairwise_of_mem_iff (fun a b : String × ℕ => compare a.1 b.1 = .lt) ?_ hp.sorted hq.sorted ?_
  · intro v w below above
    rw [Std.OrientedCmp.gt_of_lt below] at above
    cases above
  · intro v
    rw [hp.mem_iff, hq.mem_iff, same]

end PowerProduct

/-! ## Sums -/

section

open MvPolynomial

variable {σ R α : Type*} [CommSemiring R]

theorem coeff_sum_monomial_of_not_mem (f : α → σ →₀ ℕ) (g : α → R) {l : List α} {m : σ →₀ ℕ}
    (absent : ∀ a ∈ l, f a ≠ m) : coeff m (l.map fun a => monomial (f a) (g a)).sum = 0 := by
  classical
  induction l with
  | nil => rfl
  | cons a l ih =>
    rw [forall_mem_cons] at absent
    rw [map_cons, sum_cons, coeff_add, coeff_monomial, if_neg absent.1, ih absent.2, add_zero]

theorem coeff_sum_monomial (f : α → σ →₀ ℕ) (g : α → R) {l : List α} (distinct : (l.map f).Nodup) {a : α}
    (mem : a ∈ l) : coeff (f a) (l.map fun a => monomial (f a) (g a)).sum = g a := by
  classical
  induction l with
  | nil => cases mem
  | cons b l ih =>
    rw [map_cons, nodup_cons, mem_map] at distinct
    rw [map_cons, sum_cons, coeff_add, coeff_monomial]
    rcases mem_cons.mp mem with rfl | mem
    · have others := coeff_sum_monomial_of_not_mem f g fun c inside same => distinct.1 ⟨c, inside, same⟩
      rw [if_pos rfl, others, add_zero]
    · rw [if_neg fun same => distinct.1 ⟨a, mem, same.symm⟩, zero_add, ih distinct.2 mem]

end

namespace Expansion

variable {s : Expansion} {t : PowerProduct × ℚ}

/-! ### Terms and coefficients -/

open MvPolynomial

theorem eval_X (s : Expansion) : s.eval (X (R := ℚ)) = (s.map fun t => monomial t.1.exponents t.2).sum := by
  induction s with
  | nil => rfl
  | cons t s ih =>
    rw [eval_cons, ih, PowerProduct.eval_X, smul_monomial, smul_eq_mul, mul_one]
    rfl

theorem coeff_eval_X_of_not_mem {m : String →₀ ℕ}
    (absent : ∀ t ∈ s, t.1.exponents ≠ m) : coeff m (s.eval (X (R := ℚ))) = 0 := by
  rw [eval_X]
  exact coeff_sum_monomial_of_not_mem _ _ absent

theorem Canonical.coeff_eval_X (h : s.Canonical) (mem : t ∈ s) :
    coeff t.1.exponents (s.eval (X (R := ℚ))) = t.2 := by
  have distinct : (s.map fun t => t.1.exponents).Nodup := by
    rw [List.Nodup, pairwise_map]
    refine h.sorted.imp_of_mem fun {t u} ht hu below same => ?_
    rw [(h.proper t ht).eq_of_exponents (h.proper u hu) same, PowerProduct.order_self] at below
    cases below
  have coefficient := coeff_sum_monomial (fun t : PowerProduct × ℚ => t.1.exponents) (·.2) distinct mem
  rwa [← eval_X] at coefficient

theorem Canonical.mem_iff (h : s.Canonical) :
    t ∈ s ↔ t.1.Proper ∧ t.2 ≠ 0 ∧ coeff t.1.exponents (s.eval (X (R := ℚ))) = t.2 := by
  refine ⟨fun mem => ⟨h.proper t mem, h.nonzero t mem, h.coeff_eval_X mem⟩, ?_⟩
  rintro ⟨proper, nonzero, coefficient⟩
  by_cases found : ∃ u ∈ s, u.1.exponents = t.1.exponents
  · obtain ⟨u, inside, same⟩ := found
    have product : u.1 = t.1 := (h.proper u inside).eq_of_exponents proper same
    have : u = t := Prod.ext product (by rw [← h.coeff_eval_X inside, product, coefficient])
    exact this ▸ inside
  · rw [coeff_eval_X_of_not_mem fun u inside same => found ⟨u, inside, same⟩] at coefficient
    exact absurd coefficient.symm nonzero

theorem Canonical.eq_of_eval_X {s t : Expansion} (hs : s.Canonical) (ht : t.Canonical)
    (same : s.eval (X (R := ℚ)) = t.eval X) : s = t := by
  refine eq_of_pairwise_of_mem_iff (fun t u : PowerProduct × ℚ => t.1.order u.1 = .lt) ?_ hs.sorted ht.sorted ?_
  · intro t u below above
    rw [Std.OrientedCmp.gt_of_lt below] at above
    cases above
  · intro t
    rw [hs.mem_iff, ht.mem_iff, same]

end Expansion

/-! ## What is written down -/

namespace Monomial

def ofTerm (t : PowerProduct × ℚ) : Monomial := ⟨.exact t.2, t.1.map fun v => (v.1, .int v.2)⟩

variable {c : Scalar} {powers : List (String × Number)}

theorem pairwise_sort (powers : List (String × Number)) :
    (Sort.sort (fun a b => decide (a.1 ≤ b.1)) powers).Pairwise (fun a b => decide (a.1 ≤ b.1)) :=
  Sort.pairwise_sort _ (fun a b => by simpa using le_total a.1 b.1) (fun a b c => by simpa using le_trans) powers

theorem pairwise_lt_sort (distinct : (powers.map Prod.fst).Nodup) :
    (Sort.sort (fun a b => decide (a.1 ≤ b.1)) powers).Pairwise fun a b => a.1 < b.1 := by
  have sorting := (Sort.sort_perm (fun a b => decide (a.1 ≤ b.1)) powers).map Prod.fst
  have apart := pairwise_map.mp (sorting.nodup_iff.mpr distinct)
  exact ((pairwise_sort powers).and apart).imp fun both => lt_of_le_of_ne (of_decide_eq_true both.1) both.2

theorem canonical_of_nonzero (nonzero : c.isZero = false) (powers : List (String × Number)) :
    canonical c powers =
      ⟨c, Sort.sort (fun a b => decide (a.1 ≤ b.1)) (powers.filter (fun v => !v.2.isZero))⟩ := by
  rw [canonical, nonzero]
  rfl

theorem canonical_of_sorted (nonzero : c.isZero = false) (sorted : powers.Pairwise fun a b => decide (a.1 ≤ b.1))
    (present : ∀ v ∈ powers, v.2.isZero = false) : canonical c powers = ⟨c, powers⟩ := by
  have kept : powers.filter (fun v => !v.2.isZero) = powers := filter_eq_self.mpr fun v mem => by simp [present v mem]
  rw [canonical_of_nonzero nonzero, kept, Sort.sort_eq_self _ sorted]

end Monomial

namespace Equation

theorem powerOf_eq_exponents {p : PowerProduct} (proper : p.Proper) (g : String) :
    powerOf g p = p.exponents g := by
  unfold powerOf
  cases found : p.find? (fun v => v.1 == g) with
  | none =>
    rw [List.find?_eq_none] at found
    refine (PowerProduct.exponents_of_not_mem fun named => ?_).symm
    obtain ⟨v, mem, rfl⟩ := mem_map.mp named
    simpa using found v mem
  | some v =>
    have same : v.1 = g := by simpa using List.find?_some found
    rw [← same, PowerProduct.exponents_of_mem proper.sorted (mem_of_find?_eq_some found)]
    rfl

/-- Sorting the powers of all generators and dropping zeros gives the product back. -/
theorem sort_powers {generators : List String} (distinct : generators.Nodup) {p : PowerProduct}
    (proper : p.Proper) (listed : ∀ v ∈ p.map (·.1), v ∈ generators) :
    Sort.sort (fun a b => decide (a.1 ≤ b.1)) ((generators.zip ((generators.map fun g => powerOf g p).map
      fun n : ℕ => Number.int (Int.ofNat n))).filter fun v => !v.2.isZero) =
      p.map fun v => (v.1, Number.int v.2) := by
  rw [map_map, ← map_prod_left_eq_zip]
  simp only [Function.comp_apply]
  generalize powers : (generators.map fun g => (g, Number.int (Int.ofNat (powerOf g p)))).filter
    (fun v => !v.2.isZero) = present
  have once : (present.map (·.1)).Nodup := by
    rw [← powers]
    refine List.Nodup.sublist (filter_sublist.map _) ?_
    simpa [Function.comp_def] using distinct
  refine eq_of_pairwise_of_mem_iff (fun a b : String × Number => a.1 < b.1)
    (fun a b => lt_asymm) (Monomial.pairwise_lt_sort once) ?_ ?_
  · exact pairwise_map.mpr (proper.sorted.imp compare_lt_iff_lt.mp)
  · intro v
    rw [Sort.mem_sort, ← powers, mem_filter, mem_map, mem_map]
    constructor
    · rintro ⟨⟨g, _, rfl⟩, nonzero⟩
      refine ⟨(g, powerOf g p), proper.mem_iff.mpr ⟨(powerOf_eq_exponents proper g).symm, ?_⟩, rfl⟩
      simpa [Number.isZero, Number.same] using nonzero
    · rintro ⟨w, mem, rfl⟩
      have power := proper.mem_iff.mp mem
      refine ⟨⟨w.1, listed _ (mem_map_of_mem mem), ?_⟩, ?_⟩
      · rw [powerOf_eq_exponents proper, power.1]
        rfl
      · simpa [Number.isZero, Number.same] using power.2

/-- The polynomial of a canonical sum has its terms as monomials, in another order. -/
theorem monomials_ofExpansion {s : Expansion} (h : s.Canonical) :
    (ofExpansion s).monomials.Perm (s.map Monomial.ofTerm) := by
  unfold ofExpansion ofTerms
  extract_lets generators rows sorted
  have distinct : generators.Nodup := (Sort.sort_perm _ _).nodup_iff.mpr (nodup_eraseDups _)
  refine ((Sort.sort_perm _ rows).map _).trans ?_
  rw [map_map, map_map]
  refine .of_eq (map_congr_left fun t mem => ?_)
  have listed : ∀ v ∈ t.1.map (·.1), v ∈ generators := by
    intro v name
    rw [Sort.mem_sort, mem_eraseDups]
    exact mem_flatMap.mpr ⟨_, mem_map_of_mem mem, name⟩
  have nonzero : Scalar.isZero (.exact t.2) = false := by
    simpa [Scalar.isZero, Scalar.value?] using h.nonzero t mem
  simp only [Function.comp_apply]
  rw [Monomial.canonical_of_nonzero nonzero, sort_powers distinct (h.proper t mem) listed]
  rfl

end Equation

end Supermartingale
