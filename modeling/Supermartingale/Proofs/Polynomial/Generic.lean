import Mathlib.Algebra.CharZero.Infinite
import Mathlib.Algebra.MvPolynomial.Funext
import Supermartingale.Proofs.Polynomial.Canonical
import Supermartingale.Proofs.Polynomial.NextState
import Supermartingale.Proofs.Polynomial.Template

/-!
# Generic polynomials

The table of a degree lists every vector of powers up to that degree once, so a template is the generic polynomial of
its degree: every polynomial of at most that degree comes from exactly one choice of its constants.
-/

namespace Supermartingale

open List

open MvPolynomial

namespace Powers

variable {n : ℕ} {v : List ℕ}

/-! ## The vectors of powers -/

theorem mem_vectors_iff {n d : ℕ} : v ∈ vectors n d ↔ v.length = n ∧ v.sum ≤ d := by
  induction n generalizing d v with
  | zero =>
    simp only [vectors, mem_singleton, length_eq_zero_iff]
    constructor
    · rintro rfl
      simp
    · exact And.left
  | succ n ih =>
    simp only [vectors, mem_flatMap, mem_range, mem_map, ih]
    constructor
    · rintro ⟨p, small, w, ⟨length, sum⟩, rfl⟩
      simp only [length_cons, sum_cons]
      omega
    · rintro ⟨length, sum⟩
      cases v with
      | nil => cases length
      | cons p w =>
        simp only [length_cons, sum_cons] at length sum
        exact ⟨p, by omega, w, by omega, rfl⟩

theorem pairwise_vectors (n d : ℕ) : (vectors n d).Pairwise (· < ·) := by
  induction n generalizing d with
  | zero => simp [vectors]
  | succ n ih =>
    refine pairwise_flatMap.mpr ⟨fun p _ => pairwise_map.mpr ((ih _).imp cons_lt_cons_self.mpr), ?_⟩
    -- a smaller first power comes first, whatever the others are
    refine pairwise_lt_range.imp fun {p q} less v left w right => ?_
    obtain ⟨v, _, rfl⟩ := mem_map.mp left
    obtain ⟨w, _, rfl⟩ := mem_map.mp right
    exact cons_lt_cons_iff.mpr (.inl less)

theorem nodup_vectors (n d : ℕ) : (vectors n d).Nodup := (pairwise_vectors n d).imp ne_of_lt

theorem length_vectors (n d : ℕ) : (vectors n d).length = (n + d).choose n := by
  induction n generalizing d with
  | zero => simp [vectors]
  | succ n ih =>
    simp only [vectors, length_flatMap, length_map, ih]
    -- what is left for the other powers runs through all numbers up to the degree
    rw [← sum_toFinset _ nodup_range, toFinset_range,
      Finset.sum_flip fun r => (n + r).choose n, show n + 1 + d = d + n + 1 by omega,
      ← Nat.sum_range_add_choose]
    exact Finset.sum_congr rfl fun i _ => by rw [Nat.add_comm]

theorem table_eq (d n : ℕ) : table d n = number (vectors n d) := by simp [table]

theorem map_snd_table (d n : ℕ) : (table d n).map (·.2) = vectors n d := by
  rw [table_eq]
  refine ext_getElem (by simp [number]) fun i _ _ => ?_
  simp [number]

theorem length_table (d n : ℕ) : (table d n).length = (n + d).choose n := by
  rw [← length_vectors, ← map_snd_table, length_map]

noncomputable def exponents (n : ℕ) (v : List ℕ) : Fin n →₀ ℕ := Finsupp.equivFunOnFinite.symm fun i => v.getD i 0

@[simp] theorem exponents_apply (v : List ℕ) (i : Fin n) : exponents n v i = v.getD i 0 := rfl

theorem exponents_injective {v w : List ℕ} (hv : v.length = n) (hw : w.length = n)
    (same : exponents n v = exponents n w) : v = w := by
  refine ext_getElem (hv.trans hw.symm) fun i left right => ?_
  have entry := DFunLike.congr_fun same ⟨i, hv ▸ left⟩
  simpa [left, right] using entry

theorem degree_exponents (hv : v.length = n) : (exponents n v).degree = v.sum := by
  subst hv
  rw [Finsupp.degree_eq_sum, ← Fin.sum_univ_getElem]
  exact Finset.sum_congr rfl fun i _ => by simp

theorem exists_vector {n d : ℕ} (m : Fin n →₀ ℕ) (small : m.degree ≤ d) :
    ∃ v ∈ vectors n d, exponents n v = m := by
  have same : exponents n (List.ofFn m) = m := by
    ext i
    simp
  refine ⟨List.ofFn m, mem_vectors_iff.mpr ⟨length_ofFn, ?_⟩, same⟩
  rwa [← degree_exponents length_ofFn, same]

/-! ## Sums over a table -/

noncomputable def combination (n : ℕ) (rows : List (String × List ℕ)) (c : String × List ℕ → ℝ) :
    MvPolynomial (Fin n) ℝ :=
  (rows.map fun row => MvPolynomial.monomial (exponents n row.2) (c row)).sum

theorem eval_combination (rows : List (String × List ℕ)) (c : String × List ℕ → ℝ) (x : Fin n → ℝ) :
    MvPolynomial.eval x (combination n rows c) =
      (rows.map fun row => c row * ∏ i : Fin n, x i ^ exponents n row.2 i).sum := by
  rw [combination, map_list_sum, map_map]
  refine congrArg List.sum (map_congr_left fun row _ => ?_)
  rw [Function.comp_apply, eval_monomial, Finsupp.prod_fintype]
  exact fun i => pow_zero _

/-- The rows list every vector of powers up to a degree once. -/
structure IsFull (n d : ℕ) (rows : List (String × List ℕ)) : Prop where
  distinct : (rows.map fun row => exponents n row.2).Nodup
  small : ∀ row ∈ rows, (exponents n row.2).degree ≤ d
  complete : ∀ m : Fin n →₀ ℕ, m.degree ≤ d → ∃ row ∈ rows, exponents n row.2 = m

theorem isFull_table (d n : ℕ) : IsFull n d (table d n) := by
  have listed := map_snd_table d n
  generalize table d n = rows at listed
  refine ⟨?_, fun row mem => ?_, fun m degree => ?_⟩
  · have distinct : ((vectors n d).map (exponents n)).Nodup :=
      (nodup_vectors n d).map_on fun v hv w hw same =>
        exponents_injective (mem_vectors_iff.mp hv).1 (mem_vectors_iff.mp hw).1 same
    rwa [← listed, map_map] at distinct
  · have inside := mem_map_of_mem (f := Prod.snd) mem
    rw [listed, mem_vectors_iff] at inside
    rw [degree_exponents inside.1]
    exact inside.2
  · obtain ⟨v, mem, same⟩ := exists_vector m degree
    rw [← listed] at mem
    obtain ⟨row, inside, rfl⟩ := mem_map.mp mem
    exact ⟨row, inside, same⟩

namespace IsFull

variable {n d : ℕ} {rows : List (String × List ℕ)} (full : IsFull n d rows)

include full

theorem coeff_combination (c : String × List ℕ → ℝ) {row : String × List ℕ} (mem : row ∈ rows) :
    coeff (exponents n row.2) (combination n rows c) = c row :=
  coeff_sum_monomial (fun row : String × List ℕ => exponents n row.2) c full.distinct mem

theorem coeff_combination_of_large (c : String × List ℕ → ℝ) {m : Fin n →₀ ℕ}
    (large : ¬ m.degree ≤ d) : coeff m (combination n rows c) = 0 := by
  refine coeff_sum_monomial_of_not_mem (fun row : String × List ℕ => exponents n row.2) c ?_
  intro row mem same
  exact large (same ▸ full.small row mem)

theorem totalDegree_combination (c : String × List ℕ → ℝ) : (combination n rows c).totalDegree ≤ d := by
  refine Finset.sup_le fun m used => ?_
  by_contra large
  exact mem_support_iff.mp used (full.coeff_combination_of_large c large)

theorem combination_coeff {P : MvPolynomial (Fin n) ℝ} (small : P.totalDegree ≤ d) :
    combination n rows (fun row => coeff (exponents n row.2) P) = P := by
  ext m
  by_cases degree : m.degree ≤ d
  · obtain ⟨row, mem, rfl⟩ := full.complete m degree
    exact full.coeff_combination _ mem
  · rw [full.coeff_combination_of_large _ degree]
    exact (coeff_eq_zero_of_totalDegree_lt (lt_of_le_of_lt small (not_le.mp degree))).symm

end IsFull

end Powers

/-! ## Points -/

def stateValue {n : ℕ} (x : Fin n → ℝ) (s : String) : ℝ :=
  if h : (Powers.stateNames n).idxOf s < n then x ⟨_, h⟩ else 0

/-- The values of constants, and for all other names those of the state variables at a point. -/
def pointValue {n : ℕ} (x : Fin n → ℝ) {names : List String} (c : {s // s ∈ names} → ℝ) (s : String) : ℝ :=
  if h : s ∈ names then c ⟨s, h⟩ else stateValue x s

/-- Every polynomial of at most the degree comes from one choice of the constants, and every choice of the
constants gives such a polynomial. -/
structure Equation.IsGeneric (e : Equation) (n d : ℕ) : Prop where
  fits : ∀ P : MvPolynomial (Fin n) ℝ, P.totalDegree ≤ d →
    ∃! c : {s // s ∈ e.constants} → ℝ, ∀ x, e.eval (pointValue x c) = MvPolynomial.eval x P
  within : ∀ c : {s // s ∈ e.constants} → ℝ, ∃ P : MvPolynomial (Fin n) ℝ, P.totalDegree ≤ d ∧
    ∀ x, e.eval (pointValue x c) = MvPolynomial.eval x P

theorem stateValue_name {n : ℕ} (x : Fin n → ℝ) (i : Fin n) : stateValue x ("S" ++ toString (i.1 + 1)) = x i := by
  have inside : i.1 < (Powers.stateNames n).length := by simp [Powers.stateNames]
  have found := (nodup_stateNames n).idxOf_getElem i.1 inside
  have name : (Powers.stateNames n)[i.1] = "S" ++ toString (i.1 + 1) := by simp [Powers.stateNames]
  rw [name] at found
  have small : (Powers.stateNames n).idxOf ("S" ++ toString (i.1 + 1)) < n := by omega
  rw [stateValue, dif_pos small]
  exact congrArg x (Fin.ext found)

namespace Powers

variable {rows : List (String × List ℕ)} {stem : String}

/-! ## Templates -/

theorem powersValue_stateNames {n : ℕ} {v : List ℕ} (length : v.length = n) (ρ : String → ℝ) :
    Monomial.powersValue ρ ((stateNames n).zip (v.map fun p : ℕ => Number.int (Int.ofNat p))) =
      ∏ i : Fin n, ρ ("S" ++ toString (i.1 + 1)) ^ exponents n v i := by
  rw [← prod_ofFn, Monomial.powersValue]
  congr 1
  subst length
  refine ext_getElem (by simp [stateNames]) fun i left right => ?_
  simp [stateNames, Number.exponent]

theorem eval_equation {n : ℕ} {e : Equation} (made : equation (stateNames n) stem rows = .ok e) (ρ : String → ℝ) :
    e.eval ρ = (rows.map fun row => ρ (constantName stem row) *
      ∏ i : Fin n, ρ ("S" ++ toString (i.1 + 1)) ^ exponents n row.2 i).sum := by
  have fits := fits_of_equation made
  rw [equation_eq stem fits] at made
  cases made
  rw [Equation.eval, map_map]
  refine congrArg List.sum (map_congr_left fun row mem => ?_)
  have length : row.2.length = n := by simpa [stateNames] using fits row mem
  rw [Function.comp_apply,
    Monomial.eval_canonical _ _ _ (by simp [Scalar.isZero, Scalar.value?, Number.value?]), factors,
    map_append, zip_append (by simp [fits row mem]), Monomial.powersValue, map_append,
    prod_append, ← Monomial.powersValue, powersValue_stateNames length]
  simp [Scalar.written, Number.exponent, mul_comm]

def chosen {names : List String} (stem : String) (c : {s // s ∈ names} → ℝ) (row : String × List ℕ) : ℝ :=
  if h : constantName stem row ∈ names then c ⟨_, h⟩ else 0

theorem existsUnique_chosen {names : List String}
    (listed : names = rows.map (constantName stem)) (distinct : (rows.map (constantName stem)).Nodup)
    (g : String × List ℕ → ℝ) : ∃! c : {s // s ∈ names} → ℝ, ∀ row ∈ rows, chosen stem c row = g row := by
  have origin : ∀ s : {s // s ∈ names}, ∃ row ∈ rows, constantName stem row = s.1 := fun s =>
    mem_map.mp (listed ▸ s.2)
  choose rowOf inside named using origin
  refine ⟨fun s => g (rowOf s), fun row mem => ?_, fun c fits => ?_⟩
  · have known : constantName stem row ∈ names := listed ▸ mem_map_of_mem mem
    rw [chosen, dif_pos known]
    exact congrArg g (inj_on_of_nodup_map distinct (inside _) mem (named _))
  · funext s
    have known : constantName stem (rowOf s) ∈ names := named s ▸ s.2
    rw [← fits _ (inside s), chosen, dif_pos known]
    exact congrArg c (Subtype.ext (named s).symm)

section

variable {n d : ℕ} {stem : String} {e : Equation}
  (made : equation (stateNames n) stem (table d n) = .ok e)

include made

theorem eval_pointValue (c : {s // s ∈ e.constants} → ℝ) (x : Fin n → ℝ) :
    e.eval (pointValue x c) = MvPolynomial.eval x (combination n (table d n) (chosen stem c)) := by
  have names := constants_equation made (plain_stateNames n)
  have state (i : Fin n) : pointValue x c ("S" ++ toString (i.1 + 1)) = x i := by
    have plain := plain_stateNames n ("S" ++ toString (i.1 + 1)) (mem_map.mpr ⟨i, by simp, rfl⟩)
    -- a constant has an underscore in its name
    have absent : "S" ++ toString (i.1 + 1) ∉ e.constants := by
      rw [names]
      intro mem
      obtain ⟨row, _, same⟩ := mem_map.mp mem
      refine plain ?_
      rw [← same]
      simp
    rw [pointValue, dif_neg absent, stateValue_name]
  rw [eval_equation made, eval_combination]
  refine congrArg List.sum (map_congr_left fun row mem => ?_)
  have constant : constantName stem row ∈ e.constants := names ▸ mem_map_of_mem mem
  rw [pointValue, dif_pos constant, chosen, dif_pos constant]
  exact congrArg _ (Finset.prod_congr rfl fun i _ => by rw [state i])

theorem isGeneric_equation : e.IsGeneric n d := by
  have value := eval_pointValue made
  have names : e.constants = (table d n).map (constantName stem) := constants_equation made (plain_stateNames n)
  have distinct := nodup_constants_table stem d n
  have full := isFull_table d n
  generalize table d n = rows at value names distinct full
  refine ⟨fun P small => ?_, fun c => ⟨_, full.totalDegree_combination _, value c⟩⟩
  obtain ⟨c, fits, unique⟩ := existsUnique_chosen names distinct fun row => coeff (exponents n row.2) P
  refine ⟨c, fun x => ?_, fun c' same => unique c' fun row mem => ?_⟩
  · have polynomial : combination n rows (chosen stem c) =
        combination n rows (fun row => coeff (exponents n row.2) P) :=
      congrArg List.sum (map_congr_left fun row mem => by rw [fits row mem])
    rw [value, polynomial, full.combination_coeff small]
  · -- polynomials with the same values everywhere have the same coefficients
    have polynomial : combination n rows (chosen stem c') = P := MvPolynomial.funext fun x => by rw [← value, same]
    rw [← full.coeff_combination (chosen stem c') mem, polynomial]

end

/-! ## Tables on a shelf -/

theorem Shelf.Sound.exists_get {shelf : Shelf} (sound : shelf.Sound) (d n : ℕ) :
    ∃ shelf', shelf.get (.ofNat d) (.ofNat n) = .ok (table d n, shelf') ∧ shelf'.Sound := by
  have success : ∃ result, shelf.get (.ofNat d) (.ofNat n) = .ok result := by
    simp only [Shelf.get, Value.ofNat, Value.int, Value.toNumber, Value.number?, bind, Except.bind, pure, Except.pure]
    split
    · exact ⟨_, rfl⟩
    · rw [if_neg (by omega)]
      exact ⟨_, rfl⟩
  obtain ⟨⟨rows, shelf'⟩, got⟩ := success
  obtain ⟨kept, d', n', degree, dimension, rfl⟩ := sound.get got
  have given : (Value.ofNat d).IsDegree d := ⟨_, rfl, by simp [Number.same]⟩
  cases given.unique degree
  cases (rfl : (Value.ofNat n).count = .ok n).symm.trans dimension
  exact ⟨shelf', got, kept⟩

/-- A table has the vectors of powers up to its degree, each of them once and in lexicographic order, with numbers from
one on. -/
theorem rows_enumerate_powers {shelf : Shelf} (sound : shelf.Sound) (d : ℕ) (generators : ℕ ⊕ List String) :
    ∃ rows shelf', shelf.get (.ofNat d) (dimension generators) = .ok (rows, shelf') ∧ shelf'.Sound ∧
      let n := generators.elim id length
      (∀ v, v ∈ rows.map Prod.snd ↔ v.length = n ∧ v.sum ≤ d) ∧ (rows.map Prod.snd).Nodup ∧
      (rows.map Prod.snd).Pairwise (· < ·) ∧
      rows.map Prod.fst = (List.range ((n + d).choose n)).map fun i => toString (i + 1) := by
  have counted : dimension generators = .ofNat (generators.elim id length) := by
    cases generators <;> rfl
  rw [counted]
  generalize generators.elim id length = n
  obtain ⟨shelf', got, kept⟩ := sound.exists_get d n
  refine ⟨table d n, shelf', got, kept, ?_⟩
  dsimp only
  rw [map_snd_table, ← length_vectors]
  refine ⟨fun v => mem_vectors_iff, nodup_vectors n d, pairwise_vectors n d, ?_⟩
  rw [table_eq]
  refine ext_getElem (by simp [number]) fun i _ _ => ?_
  simp [number]

theorem six_rows : Shelf.Sound {} ∧ ∃ rows shelf', Shelf.get {} (.ofNat 2) (dimension (.inr ["x", "y"])) =
    .ok (rows, shelf') ∧ rows.length = 6 := by
  obtain ⟨rows, shelf', got, -, -, -, -, numbers⟩ := rows_enumerate_powers Shelf.sound_empty 2 (.inr ["x", "y"])
  refine ⟨Shelf.sound_empty, rows, shelf', got, ?_⟩
  simpa [Nat.choose] using congrArg length numbers

def template (n d : ℕ) (stem : String) : Equation :=
  ⟨(table d n).map fun row =>
    Monomial.canonical (.given (.int 1)) (factors (stateNames n) (constantName stem row) row.2)⟩

theorem equation_eq_template (n d : ℕ) (stem : String) :
    equation (stateNames n) stem (table d n) = .ok (template n d stem) := by
  refine equation_eq stem fun row mem => ?_
  rw [(mem_table mem).2.1, stateNames, length_map, length_range]

end Powers

end Supermartingale
