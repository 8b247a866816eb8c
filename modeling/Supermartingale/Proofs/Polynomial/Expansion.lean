import Mathlib.Algebra.BigOperators.Ring.List
import Mathlib.Tactic.Ring
import Supermartingale.Proofs.Polynomial.Value

/-!
# Multiplying out keeps the value

An expression has the value of its expansion at every valuation, and so has the polynomial that is written down for
it. What carries the argument is that the names of a product of powers increase.
-/

namespace Supermartingale

open List

variable {R : Type*} [CommRing R]

/-! ## Products of powers -/

namespace PowerProduct

/-- The value of a product of powers. -/
def eval (ρ : String → R) (p : PowerProduct) : R := (p.map (fun (v, k) => ρ v ^ k)).prod

@[simp] theorem eval_nil (ρ : String → R) : eval ρ [] = 1 := rfl

@[simp] theorem eval_cons (ρ : String → R) (v : String) (k : ℕ) (p : PowerProduct) :
    eval ρ ((v, k) :: p) = ρ v ^ k * eval ρ p := rfl

/-- How two products are multiplied: the name that comes first is taken, from both if it is in both. -/
inductive Multiplies : PowerProduct → PowerProduct → PowerProduct → Prop where
  | left (t : PowerProduct) : Multiplies [] t t
  | right (s : PowerProduct) : Multiplies s [] s
  | less {a b : String} {x y : ℕ} {s t r : PowerProduct} (below : compare a b = .lt)
      (rest : Multiplies s ((b, y) :: t) r) : Multiplies ((a, x) :: s) ((b, y) :: t) ((a, x) :: r)
  | greater {a b : String} {x y : ℕ} {s t r : PowerProduct} (above : compare a b = .gt)
      (rest : Multiplies ((a, x) :: s) t r) : Multiplies ((a, x) :: s) ((b, y) :: t) ((b, y) :: r)
  | equal {a : String} {x y : ℕ} {s t r : PowerProduct} (rest : Multiplies s t r) :
      Multiplies ((a, x) :: s) ((a, y) :: t) ((a, x + y) :: r)

theorem multiplies_mul (s t : PowerProduct) : Multiplies s t (s.mul t) := by
  induction s generalizing t with
  | nil => exact .left t
  | cons v s ihs =>
    obtain ⟨a, x⟩ := v
    induction t with
    | nil => exact .right _
    | cons w t iht =>
      obtain ⟨b, y⟩ := w
      unfold mul mulFrom
      split
      · exact .less ‹_› (ihs _)
      · exact .greater ‹_› iht
      · rename_i same
        cases Std.LawfulEqOrd.eq_of_compare same
        exact .equal (ihs t)

variable {s t r p : PowerProduct} {a b : String}

theorem Multiplies.eval_eq (h : Multiplies s t r) (ρ : String → R) : eval ρ r = eval ρ s * eval ρ t := by
  induction h with
  | left t => simp
  | right s => simp
  | less _ _ ih =>
    simp only [eval_cons, ih]
    ring
  | greater _ _ ih =>
    simp only [eval_cons, ih]
    ring
  | equal _ ih =>
    simp only [eval_cons, ih, pow_add]
    ring

theorem eval_mul (ρ : String → R) (s t : PowerProduct) : eval ρ (s.mul t) = eval ρ s * eval ρ t :=
  (multiplies_mul s t).eval_eq ρ

theorem eq_of_order_eq (p q : PowerProduct) (same : p.order q = .eq) : p = q := by
  fun_induction order p q with
  | case1 => rfl
  | case2 => cases same
  | case3 => cases same
  | case4 a x s b y t names ih =>
    obtain ⟨powers, rest⟩ := Ordering.then_eq_eq.mp same
    cases Std.LawfulEqOrd.eq_of_compare names
    cases Nat.compare_eq_eq.mp powers
    rw [ih rest]
  | case5 a x s b y t different => exact absurd same different

/-- The names of a product increase. -/
def Sorted (p : PowerProduct) : Prop := p.Pairwise (fun a b => compare a.1 b.1 = .lt)

/-- A name comes before all names of a product. -/
def Above (a : String) (p : PowerProduct) : Prop := ∀ v ∈ p, compare a v.1 = .lt

theorem Above.trans (below : compare a b = .lt) (h : Above b p) : Above a p :=
  fun v mem => Std.TransCmp.lt_trans below (h v mem)

theorem Above.cons {k : ℕ} (below : compare a b = .lt) (h : Above b p) : Above a ((b, k) :: p) := by
  intro v mem
  rcases mem_cons.mp mem with rfl | mem
  · exact below
  · exact h.trans below v mem

theorem Multiplies.forall_mem {P : String × ℕ → Prop} (joined : ∀ a x y, P (a, x) → P (a, y) → P (a, x + y))
    (h : Multiplies s t r) (hs : ∀ v ∈ s, P v) (ht : ∀ v ∈ t, P v) : ∀ v ∈ r, P v := by
  induction h with
  | left t => exact ht
  | right s => exact hs
  | less _ _ ih =>
    rw [forall_mem_cons] at hs ⊢
    exact ⟨hs.1, ih hs.2 ht⟩
  | greater _ _ ih =>
    rw [forall_mem_cons] at ht ⊢
    exact ⟨ht.1, ih hs ht.2⟩
  | equal _ ih =>
    rw [forall_mem_cons] at hs ht ⊢
    exact ⟨joined _ _ _ hs.1 ht.1, ih hs.2 ht.2⟩

theorem Multiplies.above {a : String} (h : Multiplies s t r) (hs : Above a s) (ht : Above a t) : Above a r :=
  h.forall_mem (fun _ _ _ first _ => first) hs ht

theorem Multiplies.sorted (h : Multiplies s t r) (hs : Sorted s) (ht : Sorted t) : Sorted r := by
  induction h with
  | left t => exact ht
  | right s => exact hs
  | less below rest ih =>
    obtain ⟨first, others⟩ := pairwise_cons.mp hs
    exact pairwise_cons.mpr ⟨rest.above first (.cons below (pairwise_cons.mp ht).1), ih others ht⟩
  | greater above rest ih =>
    obtain ⟨first, others⟩ := pairwise_cons.mp ht
    have below := Std.OrientedCmp.gt_iff_lt.mp above
    exact pairwise_cons.mpr ⟨rest.above (.cons below (pairwise_cons.mp hs).1) first, ih hs others⟩
  | equal rest ih =>
    obtain ⟨first, others⟩ := pairwise_cons.mp hs
    obtain ⟨second, others'⟩ := pairwise_cons.mp ht
    exact pairwise_cons.mpr ⟨rest.above first second, ih others others'⟩

theorem Sorted.mul {s t : PowerProduct} (hs : Sorted s) (ht : Sorted t) : Sorted (s.mul t) :=
  (multiplies_mul s t).sorted hs ht

theorem Sorted.nodup (h : Sorted p) : (p.map (·.1)).Nodup := by
  refine pairwise_map.mpr (List.Pairwise.imp ?_ h)
  intro a b below same
  rw [same, (Std.ReflCmp.compare_self : compare b.1 b.1 = .eq)] at below
  cases below

theorem order_eq : order = List.compareLex (compareLex (compareOn Prod.fst) (compareOn Prod.snd)) := by
  funext p q
  fun_induction order p q with
  | case1 => rfl
  | case2 => rfl
  | case3 => rfl
  | case4 a x s b y t names ih =>
    simp only [List.compareLex_cons_cons, compareLex, compareOn, names, Ordering.then, ih]
  | case5 a x s b y t different =>
    simp only [List.compareLex_cons_cons, compareLex, compareOn]
    cases names : compare a b with
    | eq => exact absurd names different
    | lt => rfl
    | gt => rfl

instance : Std.TransCmp order := order_eq ▸ inferInstance

theorem order_self (p : PowerProduct) : p.order p = .eq := Std.ReflCmp.compare_self

/-- The names of a product increase and no power is zero. -/
structure Proper (p : PowerProduct) : Prop where
  sorted : Sorted p
  positive : ∀ v ∈ p, v.2 ≠ 0

theorem Proper.mul {s t : PowerProduct} (hs : s.Proper) (ht : t.Proper) : (s.mul t).Proper where
  sorted := hs.sorted.mul ht.sorted
  positive := (multiplies_mul s t).forall_mem (fun _ _ _ first _ zero => first (Nat.add_eq_zero_iff.mp zero).1)
    hs.positive ht.positive

end PowerProduct

/-! ## Sums of terms -/

namespace Expansion

variable [Algebra ℚ R]

def eval (ρ : String → R) (s : Expansion) : R := (s.map (fun (p, c) => c • PowerProduct.eval ρ p)).sum

section

variable (ρ : String → R)
include ρ

@[simp] theorem eval_nil : eval ρ [] = 0 := rfl

@[simp] theorem eval_cons (p : PowerProduct) (c : ℚ) (s : Expansion) :
    eval ρ ((p, c) :: s) = c • PowerProduct.eval ρ p + eval ρ s := rfl

@[simp] theorem eval_append (s t : Expansion) : eval ρ (s ++ t) = eval ρ s + eval ρ t := by
  simp [eval]

theorem eval_gather (p : PowerProduct) (a : ℚ) (rest : List (PowerProduct × ℚ)) :
    eval ρ (gather p a rest) = a • PowerProduct.eval ρ p + eval ρ rest := by
  fun_induction gather p a rest with
  | case1 p => simp
  | case2 p a _ => simp
  | case3 p a q b rest same ih =>
    cases PowerProduct.eq_of_order_eq p q same
    rw [ih, eval_cons, add_smul, add_assoc]
  | case4 p q b rest _ ih => rw [ih, eval_cons, zero_smul, zero_add]
  | case5 p a q b rest _ _ ih => rw [eval_cons, ih, eval_cons]

theorem eval_collect (terms : List (PowerProduct × ℚ)) :
    eval ρ (collect terms) = eval ρ terms := by
  have sorting := Sort.sort_perm (fun t u => t.1.order u.1 != .gt) terms
  rw [show eval ρ terms = eval ρ (Sort.sort (fun t u => t.1.order u.1 != .gt) terms) from
    (sorting.map _).sum_eq.symm]
  unfold collect
  split
  · rename_i empty
    rw [empty]
  · rename_i p a rest cons
    rw [cons, eval_gather, eval_cons]

theorem eval_ofRat (c : ℚ) : eval ρ (ofRat c) = algebraMap ℚ R c := by
  unfold ofRat
  split
  · rename_i zero
    simp [zero]
  · simp [Algebra.algebraMap_eq_smul_one]

theorem eval_ofName (s : String) : eval ρ (ofName s) = ρ s := by
  simp [ofName]

theorem eval_add (s t : Expansion) : eval ρ (add s t) = eval ρ s + eval ρ t := by
  rw [add, eval_collect, eval_append]

theorem eval_neg (s : Expansion) : eval ρ (neg s) = -eval ρ s := by
  induction s with
  | nil => simp [neg]
  | cons t s ih =>
    obtain ⟨p, c⟩ := t
    simp only [neg, map_cons, eval_cons, neg_smul, neg_add] at ih ⊢
    rw [ih]

theorem eval_scale (c : ℚ) (s : Expansion) : eval ρ (scale c s) = c • eval ρ s := by
  unfold scale
  split
  · rename_i zero
    simp [zero]
  · induction s with
    | nil => simp
    | cons t s ih =>
      obtain ⟨p, d⟩ := t
      simp only [map_cons, eval_cons, smul_add, mul_smul] at ih ⊢
      rw [ih]

theorem eval_distribute (p : PowerProduct) (a : ℚ) (t : Expansion) :
    eval ρ (t.map (fun (q, b) => (p.mul q, a * b))) = a • PowerProduct.eval ρ p * eval ρ t := by
  induction t with
  | nil => simp
  | cons u t ih =>
    obtain ⟨q, b⟩ := u
    simp only [map_cons, eval_cons, PowerProduct.eval_mul, mul_add] at ih ⊢
    rw [ih, smul_mul_smul_comm]

theorem eval_mul (s t : Expansion) : eval ρ (mul s t) = eval ρ s * eval ρ t := by
  rw [mul, eval_collect]
  induction s with
  | nil => simp
  | cons u s ih =>
    obtain ⟨p, a⟩ := u
    simp only [flatMap_cons, eval_append, eval_cons, add_mul]
    rw [ih, eval_distribute]

theorem eval_pow (s : Expansion) (k : ℕ) : eval ρ (pow s k) = eval ρ s ^ k := by
  induction k with
  | zero => simp [pow, eval_ofRat]
  | succ k ih => rw [pow, eval_mul, ih, pow_succ']

end

variable {s : Expansion}

theorem eval_of_number? (ρ : String → R) {c : ℚ} (found : number? s = some c) : eval ρ s = algebraMap ℚ R c := by
  unfold number? at found
  split at found
  · cases found
    simp
  · cases found
    simp [Algebra.algebraMap_eq_smul_one]
  · cases found

theorem natural?_eq_some {k : ℕ} (found : natural? s = some k) : ∃ c, number? s = some c ∧ c.num.natAbs = k := by
  unfold natural? at found
  split at found
  · rename_i c number
    split at found
    · cases found
      exact ⟨c, number, rfl⟩
    · cases found
  · cases found

/-! ### Sums are canonical -/

/-- The products of a sum are in order, none twice, and no coefficient is zero. -/
structure Canonical (s : Expansion) : Prop where
  sorted : s.Pairwise fun t u => t.1.order u.1 = .lt
  nonzero : ∀ t ∈ s, t.2 ≠ 0
  proper : ∀ t ∈ s, t.1.Proper

theorem canonical_nil : Canonical [] := ⟨.nil, by simp, by simp⟩

section

variable {p : PowerProduct} {a : ℚ} {rest : List (PowerProduct × ℚ)}

theorem mem_gather {t : PowerProduct × ℚ} (mem : t ∈ gather p a rest) : t.2 ≠ 0 ∧ t.1 ∈ ((p, a) :: rest).map (·.1) := by
  fun_induction gather p a rest with
  | case1 p => cases mem
  | case2 p a nonzero =>
    cases mem_singleton.mp mem
    exact ⟨nonzero, mem_cons_self⟩
  | case3 p a q b rest same ih =>
    cases PowerProduct.eq_of_order_eq p q same
    exact (ih mem).imp_right (mem_cons_of_mem _)
  | case4 p q b rest _ ih => exact (ih mem).imp_right (mem_cons_of_mem _)
  | case5 p a q b rest _ nonzero ih =>
    rcases mem_cons.mp mem with rfl | mem
    · exact ⟨nonzero, mem_cons_self⟩
    · exact (ih mem).imp_right (mem_cons_of_mem _)

theorem pairwise_gather (ordered : (((p, a) :: rest).map (·.1)).Pairwise fun p q => p.order q ≠ .gt) :
    (gather p a rest).Pairwise fun t u => t.1.order u.1 = .lt := by
  fun_induction gather p a rest with
  | case1 p => exact .nil
  | case2 p a _ => exact pairwise_singleton _ _
  | case3 p a q b rest same ih =>
    cases PowerProduct.eq_of_order_eq p q same
    exact ih (pairwise_cons.mp ordered).2
  | case4 p q b rest _ ih => exact ih (pairwise_cons.mp ordered).2
  | case5 p a q b rest different _ ih =>
    obtain ⟨first, others⟩ := pairwise_cons.mp ordered
    -- the head is below the second product, and that is not above the later ones
    have below : p.order q = .lt := by
      have := first q mem_cons_self
      cases order : p.order q <;> simp_all
    refine pairwise_cons.mpr ⟨fun t mem => ?_, ih others⟩
    rcases mem_cons.mp (mem_gather mem).2 with same | later
    · exact same ▸ below
    · exact Std.TransCmp.lt_of_lt_of_isLE below (Ordering.ne_gt_iff_isLE.mp ((pairwise_cons.mp others).1 _ later))

end

theorem canonical_collect {terms : List (PowerProduct × ℚ)} (proper : ∀ t ∈ terms, t.1.Proper) :
    Canonical (collect terms) := by
  have ordered := Sort.pairwise_sort (fun t u : PowerProduct × ℚ => t.1.order u.1 != .gt)
    (fun t u => ?_) (fun t u v => ?_) terms
  · have members : ∀ p ∈ (Sort.sort (fun t u : PowerProduct × ℚ => t.1.order u.1 != .gt) terms).map (·.1), p.Proper :=
      forall_mem_map.mpr fun t mem => proper t ((Sort.mem_sort _).mp mem)
    unfold collect
    split
    · exact canonical_nil
    · rename_i p a rest cons
      rw [cons] at ordered members
      refine ⟨pairwise_gather ?_, fun t mem => (mem_gather mem).1, fun t mem => members _ (mem_gather mem).2⟩
      exact pairwise_map.mpr (ordered.imp fun {t u} (h : _ = true) => by simpa using h)
  · simp only [bne_iff_ne, ne_eq]
    by_contra both
    rw [not_or, not_not, not_not] at both
    rw [Std.OrientedCmp.gt_iff_lt.mp both.1] at both
    cases both.2
  · simp only [bne_iff_ne, ne_eq, Ordering.ne_gt_iff_isLE]
    exact Std.TransCmp.isLE_trans

theorem canonical_ofRat (c : ℚ) : Canonical (ofRat c) := by
  unfold ofRat
  split
  · exact canonical_nil
  · exact ⟨pairwise_singleton _ _, by simpa, by simpa using ⟨List.Pairwise.nil, by simp⟩⟩

theorem canonical_ofName (s : String) : Canonical (ofName s) :=
  ⟨pairwise_singleton _ _, by simp [ofName],
    by simpa [ofName] using ⟨pairwise_singleton _ _, by simp⟩⟩

namespace Canonical

variable {s t : Expansion} (hs : s.Canonical) (ht : t.Canonical)
include hs

theorem map_coefficient {f : ℚ → ℚ} (keeps : ∀ c, c ≠ 0 → f c ≠ 0) : Canonical (s.map fun t => (t.1, f t.2)) := by
  refine ⟨pairwise_map.mpr hs.sorted, ?_, ?_⟩
  · intro t mem
    obtain ⟨u, inside, rfl⟩ := mem_map.mp mem
    exact keeps _ (hs.nonzero u inside)
  · intro t mem
    obtain ⟨u, inside, rfl⟩ := mem_map.mp mem
    exact hs.proper u inside

theorem neg : Canonical (neg s) := hs.map_coefficient fun _ nonzero => neg_ne_zero.mpr nonzero

theorem scale (c : ℚ) : Canonical (scale c s) := by
  unfold Expansion.scale
  split
  · exact canonical_nil
  · rename_i factor
    exact hs.map_coefficient fun _ nonzero => mul_ne_zero factor nonzero

include ht

theorem add : Canonical (add s t) := canonical_collect (forall_mem_append.mpr ⟨hs.proper, ht.proper⟩)

theorem mul : Canonical (mul s t) := by
  refine canonical_collect fun w mem => ?_
  obtain ⟨u, hu, mem⟩ := mem_flatMap.mp mem
  obtain ⟨v, hv, rfl⟩ := mem_map.mp mem
  exact (hs.proper u hu).mul (ht.proper v hv)

omit ht in
theorem pow (k : ℕ) : Canonical (pow s k) := by
  induction k with
  | zero => exact canonical_ofRat 1
  | succ k ih => exact hs.mul ih

end Canonical

/-! ### Expressions and their expansions -/

/-- A sum is what an expression gives when it is multiplied out. Its number is part of this because
divisors and exponents count for their numbers. -/
structure Expands (ρ : String → R) (e : Expression) (s : Expansion) : Prop where
  canonical : Canonical s
  value : eval ρ s = e.eval ρ
  number : eval (fun _ => (0 : ℚ)) s = e.number

namespace Expands

variable {ρ : String → R} {e l r : Expression} {s t : Expansion}

theorem whole (n : ℕ) : Expands ρ (.whole n) (ofRat n) :=
  ⟨canonical_ofRat n, by simp [eval_ofRat, Expression.eval], by simp [eval_ofRat, Expression.number]⟩

theorem name (v : String) : Expands ρ (.name v) (ofName v) :=
  ⟨canonical_ofName v, eval_ofName ρ v, eval_ofName (fun _ => 0) v⟩

theorem neg (h : Expands ρ e s) : Expands ρ (.neg e) (neg s) :=
  ⟨h.canonical.neg, by rw [eval_neg, h.value, Expression.eval],
    by rw [eval_neg, h.number, Expression.number]⟩

theorem add (hl : Expands ρ l s) (hr : Expands ρ r t) : Expands ρ (.add l r) (add s t) :=
  ⟨hl.canonical.add hr.canonical, by rw [eval_add, hl.value, hr.value, Expression.eval],
    by rw [eval_add, hl.number, hr.number, Expression.number]⟩

theorem sub (hl : Expands ρ l s) (hr : Expands ρ r t) : Expands ρ (.sub l r) (Expansion.add s (Expansion.neg t)) :=
  ⟨hl.canonical.add hr.canonical.neg,
    by rw [eval_add, eval_neg, hl.value, hr.value, Expression.eval, sub_eq_add_neg],
    by rw [eval_add, eval_neg, hl.number, hr.number, Expression.number, sub_eq_add_neg]⟩

theorem mul (hl : Expands ρ l s) (hr : Expands ρ r t) : Expands ρ (.mul l r) (mul s t) :=
  ⟨hl.canonical.mul hr.canonical, by rw [eval_mul, hl.value, hr.value, Expression.eval],
    by rw [eval_mul, hl.number, hr.number, Expression.number]⟩

theorem number_eq (h : Expands ρ e s) {c : ℚ} (found : number? s = some c) : e.number = c := by
  rw [← h.number, eval_of_number? _ found, Algebra.algebraMap_self_apply]

theorem div (hl : Expands ρ l s) (hr : Expands ρ r t) {c : ℚ} (found : number? t = some c) :
    Expands ρ (.div l r) (scale (1 / c) s) :=
  ⟨hl.canonical.scale _, by rw [eval_scale, hl.value, Expression.eval, hr.number_eq found, one_div],
    by rw [eval_scale, hl.number, Expression.number, hr.number_eq found, one_div, smul_eq_mul]⟩

theorem pow (hl : Expands ρ l s) (hr : Expands ρ r t) {k : ℕ} (found : natural? t = some k) :
    Expands ρ (.pow l r) (pow s k) := by
  obtain ⟨c, number, rfl⟩ := natural?_eq_some found
  exact ⟨hl.canonical.pow _, by rw [eval_pow, hl.value, Expression.eval, hr.number_eq number],
    by rw [eval_pow, hl.number, Expression.number, hr.number_eq number]⟩

end Expands

/-- What holds of the expansions of whole numbers and names and is kept by the operations holds of all. -/
theorem ofExpression?_induction {motive : Expression → Expansion → Prop} (whole : ∀ n : ℕ, motive (.whole n) (ofRat n))
    (name : ∀ v, motive (.name v) (ofName v)) (pos : ∀ {e s}, motive e s → motive (.pos e) s)
    (neg : ∀ {e s}, motive e s → motive (.neg e) (neg s))
    (add : ∀ {l r s t}, motive l s → motive r t → motive (.add l r) (add s t))
    (sub : ∀ {l r s t}, motive l s → motive r t → motive (.sub l r) (Expansion.add s (Expansion.neg t)))
    (mul : ∀ {l r s t}, motive l s → motive r t → motive (.mul l r) (mul s t))
    (div : ∀ {l r s t c}, motive l s → motive r t → number? t = some c → motive (.div l r) (scale (1 / c) s))
    (pow : ∀ {l r s t k}, motive l s → motive r t → natural? t = some k → motive (.pow l r) (pow s k))
    {e : Expression} {s : Expansion} (expanded : ofExpression? e = some s) : motive e s := by
  induction e generalizing s with
  | whole n =>
    cases expanded
    exact whole n
  | name v =>
    simp only [ofExpression?] at expanded
    split at expanded
    · split at expanded
      · cases expanded
      · cases expanded
        exact name v
    · cases expanded
  | pos e ih => exact pos (ih expanded)
  | neg e ih =>
    obtain ⟨x, inner, rfl⟩ := Option.map_eq_some_iff.mp expanded
    exact neg (ih inner)
  | add l r ihl ihr | sub l r ihl ihr | mul l r ihl ihr =>
    simp only [ofExpression?] at expanded
    split at expanded
    · rename_i x y left right
      cases expanded
      first
        | exact add (ihl left) (ihr right)
        | exact sub (ihl left) (ihr right)
        | exact mul (ihl left) (ihr right)
    · cases expanded
  | div l r ihl ihr =>
    simp only [ofExpression?] at expanded
    split at expanded
    · rename_i x c left right
      obtain ⟨y, right, number⟩ := Option.bind_eq_some_iff.mp right
      split at expanded
      · cases expanded
      · cases expanded
        exact div (ihl left) (ihr right) number
    · cases expanded
  | pow l r ihl ihr =>
    simp only [ofExpression?] at expanded
    split at expanded
    · rename_i x k left right
      obtain ⟨y, right, natural⟩ := Option.bind_eq_some_iff.mp right
      cases expanded
      exact pow (ihl left) (ihr right) natural
    · cases expanded
  | _ => cases expanded

theorem expands_ofExpression? (ρ : String → R) {e : Expression} {s : Expansion}
    (expanded : ofExpression? e = some s) : Expands ρ e s :=
  ofExpression?_induction .whole .name (fun ih => ⟨ih.canonical, ih.value, ih.number⟩) .neg .add .sub .mul
    (fun left right => left.div right) (fun left right => left.pow right) expanded

end Expansion

/-! ## The polynomial of an expansion -/

theorem nodup_eraseDups (names : List String) : names.eraseDups.Nodup := by
  match names with
  | [] => simp
  | a :: rest =>
    rw [eraseDups_cons, nodup_cons, mem_eraseDups]
    exact ⟨by simp, nodup_eraseDups (rest.filter (fun b => !b == a))⟩
termination_by names.length
decreasing_by exact Nat.lt_succ_of_le (length_filter_le _ _)

namespace Equation

/-- The powers of all generators multiply to a product that has every one of its names once. -/
theorem prod_powerOf (ρ : String → R) (generators : List String) (powers : PowerProduct)
    (distinct : generators.Nodup) (once : (powers.map (·.1)).Nodup)
    (listed : ∀ v ∈ powers.map (·.1), v ∈ generators) :
    (generators.map (fun g => ρ g ^ powerOf g powers)).prod = PowerProduct.eval ρ powers := by
  induction powers generalizing generators with
  | nil => simp [powerOf]
  | cons head powers ih =>
    obtain ⟨a, k⟩ := head
    simp only [map_cons, nodup_cons, forall_mem_cons] at once listed
    have others : ∀ g ∈ generators.erase a, powerOf g ((a, k) :: powers) = powerOf g powers := by
      intro g mem
      have different : a ≠ g := fun same => distinct.not_mem_erase (same ▸ mem)
      simp [powerOf, different]
    rw [← prod_map_erase _ listed.1, PowerProduct.eval_cons]
    congr 1
    · simp [powerOf]
    · rw [map_congr_left (fun g mem => by rw [others g mem])]
      refine ih _ (distinct.erase a) once.2 fun v mem => ?_
      exact (mem_erase_of_ne (fun same : v = a => once.1 (same ▸ mem))).mpr (listed.2 v mem)

theorem powersValue_zip (ρ : String → R) (generators : List String) (power : String → ℕ) :
    Monomial.powersValue ρ (generators.zip ((generators.map power).map
      (fun n : ℕ => Number.int (Int.ofNat n)))) = (generators.map (fun g => ρ g ^ power g)).prod := by
  induction generators with
  | nil => rfl
  | cons g generators ih =>
    simp only [Monomial.powersValue, map_cons, zip_cons_cons, prod_cons] at ih ⊢
    rw [ih]
    rfl

variable [Algebra ℚ R]

theorem eval_ofTerms (ρ : String → R) (terms : List (List (String × ℕ) × Scalar))
    (once : ∀ t ∈ terms, (t.1.map (·.1)).Nodup) (vanishes : ∀ t ∈ terms, t.2.isZero → t.2.written = 0) :
    (ofTerms terms).eval ρ =
      (terms.map (fun t => t.2.written • PowerProduct.eval ρ t.1)).sum := by
  unfold ofTerms Equation.eval
  extract_lets generators rows sorted
  have distinct : generators.Nodup := (Sort.sort_perm _ _).nodup_iff.mpr (nodup_eraseDups _)
  have listed : ∀ t ∈ terms, ∀ v ∈ t.1.map (·.1), v ∈ generators := by
    intro t mem v name
    rw [Sort.mem_sort, mem_eraseDups]
    exact mem_flatMap.mpr ⟨t, mem, name⟩
  -- the order of the rows does not matter for the sum
  have sorting := Sort.sort_perm (fun r q => vectorGe r.1 q.1) rows
  rw [map_map, ((sorting.map _).sum_eq), map_map]
  refine congrArg List.sum (map_congr_left fun t mem => ?_)
  simp only [Function.comp_apply]
  rw [Monomial.eval_canonical ρ _ _ (vanishes t mem), powersValue_zip,
    prod_powerOf ρ generators t.1 distinct (once t mem) (listed t mem)]

theorem eval_ofExpansion (ρ : String → R) {s : Expansion} (h : s.Canonical) :
    (ofExpansion s).eval ρ = Expansion.eval ρ s := by
  unfold ofExpansion
  rw [eval_ofTerms]
  · rw [map_map]
    rfl
  · intro t mem
    obtain ⟨u, hu, rfl⟩ := mem_map.mp mem
    exact (h.proper u hu).sorted.nodup
  · intro t mem zero
    obtain ⟨u, hu, rfl⟩ := mem_map.mp mem
    simpa [Scalar.isZero, Scalar.value?, Scalar.written] using zero

/-- Reading a text that is a polynomial with rational coefficients gives a polynomial of the same
value, or fails because a coefficient has too many digits. -/
theorem ofText_of_expansion {s : String} {tree : Expression} {x : Expansion}
    (parsed : Expression.read s = some tree) (expanded : Expansion.ofExpression? tree = some x) :
    (∃ p, ofText s = .ok p ∧ ∀ ρ : String → R, p.eval ρ = tree.eval ρ) ∨
      ofText s = .error .numeralTooLong := by
  unfold ofText
  rw [parsed, Option.bind_some, expanded]
  dsimp only
  split
  · left
    refine ⟨ofExpansion x, rfl, fun ρ => ?_⟩
    have expands := Expansion.expands_ofExpression? ρ expanded
    rw [eval_ofExpansion ρ expands.canonical, expands.value]
  · right
    rfl

end Equation

end Supermartingale
