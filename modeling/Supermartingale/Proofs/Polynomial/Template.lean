import Supermartingale.Proofs.Except
import Supermartingale.Proofs.Polynomial.Variable
import Supermartingale.Proofs.Polynomial.Written

/-!
# Polynomials with unknown coefficients

A template has one monomial for every row of a table of powers, with an unknown constant of its own. With one state
variable it is the general polynomial of its degree. Every table on the shelf that templates share is the one of its
degree and dimension, and stays so.
-/

namespace Supermartingale

open List Number

/-! ## Canonical monomials -/

namespace Monomial

variable {powers : List (String × Number)}

theorem mem_canonical {c : Scalar} {v : String × Number} (mem : v ∈ (canonical c powers).powers) :
    v ∈ powers ∧ v.2.isZero = false := by
  unfold canonical at mem
  split at mem
  · cases mem
  · simpa using mem

theorem isWritten_canonical (h : ∀ v ∈ powers, IsUnknown v.1 ∧ v.2.isExponent) :
    (canonical (.given (.int 1)) powers).IsWritten :=
  ⟨isNumeral_one, fun v mem => h v (mem_canonical mem).1⟩

theorem mem_names_canonical {s : String} :
    s ∈ (canonical (.given (.int 1)) powers).names ↔ ∃ p, (s, p) ∈ powers ∧ p.isZero = false := by
  have names : (canonical (.given (.int 1)) powers).names =
      (Sort.sort (fun a b => decide (a.1 ≤ b.1)) (powers.filter (fun v => !v.2.isZero))).map (·.1) :=
    rfl
  simp [names]

/-- A monomial with coefficient one has the value of its powers that are not zero. -/
theorem evalPowers_canonical {R : Type*} [CommRing R] [Algebra ℚ R] (values : String → ℕ → R)
    (powers : List (String × Number)) :
    (canonical (.given (.int 1)) powers).evalPowers values =
      ((powers.filter (fun (_, p) => !p.isZero)).map (fun (v, p) => values v p.exponent)).prod := by
  have sorting := Sort.sort_perm (fun a b => decide (a.1 ≤ b.1))
    (powers.filter (fun (_, p) => !p.isZero))
  have product := (sorting.map (fun (v, p) => values v p.exponent)).prod_eq
  rw [← product]
  exact (congrArg (· • _) (by simp [Scalar.written] : Scalar.written (.given (.int 1)) = 1)).trans
    (one_smul ℚ _)

end Monomial

namespace Powers

/-! ## Rows -/

def constantName (stem : String) (row : String × List ℕ) : String := stem ++ "_" ++ row.1

theorem mem_number {vs : List (List ℕ)} (mem : row ∈ number vs) :
    ∃ i, row.1 = toString (i + 1) ∧ row.2 ∈ vs := by
  rw [number, mem_mapIdx] at mem
  obtain ⟨i, bound, same⟩ := mem
  refine ⟨i, ?_, ?_⟩
  · rw [← same]
  · rw [← same]
    exact getElem_mem bound

theorem mem_vectors {n d : ℕ} {v : List ℕ} (mem : v ∈ vectors n d) : v.length = n ∧ ∀ p ∈ v, p ≤ d := by
  induction n generalizing d v with
  | zero =>
    cases mem_singleton.mp mem
    exact ⟨rfl, forall_mem_nil _⟩
  | succ n ih =>
    obtain ⟨p, inside, later⟩ := mem_flatMap.mp mem
    obtain ⟨w, rest, rfl⟩ := mem_map.mp later
    obtain ⟨length, bounded⟩ := ih rest
    have bound : p ≤ d := Nat.lt_succ_iff.mp (mem_range.mp inside)
    refine ⟨by rw [length_cons, length], forall_mem_cons.mpr ⟨bound, fun q other => ?_⟩⟩
    exact (bounded q other).trans (Nat.sub_le d p)

/-- A row of a table has as many powers as there are variables, none of them above the degree. -/
theorem mem_table {degree : ℤ} {n : ℕ} (mem : row ∈ table degree n) :
    (∃ i : ℕ, row.1 = toString (i + 1)) ∧ row.2.length = n ∧ ∀ p ∈ row.2, p ≤ degree.toNat := by
  unfold table at mem
  split at mem
  · cases mem
  · obtain ⟨i, index, vector⟩ := mem_number mem
    exact ⟨⟨i, index⟩, mem_vectors vector⟩

/-! ## Equations -/

def factors (names : List String) (constant : String) (powers : List ℕ) : List (String × Number) :=
  (names ++ [constant]).zip ((powers ++ [1]).map (fun p : ℕ => int (Int.ofNat p)))

variable {names : List String} {rows : List (String × List ℕ)} {row : String × List ℕ} {constant : String}
  {powers : List ℕ} {e : Equation}

theorem monomial_eq (fits : powers.length = names.length) :
    monomial names constant powers =
      .ok (Monomial.canonical (.given (.int 1)) (factors names constant powers)) := by
  rw [monomial]
  exact if_pos (by simp [fits])

theorem equation_eq (stem : String) (fits : ∀ row ∈ rows, row.2.length = names.length) :
    equation names stem rows = .ok ⟨rows.map fun row =>
      Monomial.canonical (.given (.int 1)) (factors names (constantName stem row) row.2)⟩ := by
  refine bind_eq_ok.mpr ⟨_, mapM_eq_ok.mpr ?_, rfl⟩
  rw [forall₂_map_right_iff, forall₂_same]
  exact fun row mem => monomial_eq (fits row mem)

theorem isExponent_of_isWritable {p : ℕ} (writable : isWritable p) : (int (Int.ofNat p)).isExponent := by
  simpa [isExponent] using writable

theorem mem_factors {v : String × Number} (mem : v ∈ factors names constant powers) :
    (v.1 ∈ names ∨ v.1 = constant) ∧ ∃ p : ℕ, (p ∈ powers ∨ p = 1) ∧ v.2 = .int (Int.ofNat p) := by
  obtain ⟨name, power⟩ := of_mem_zip mem
  obtain ⟨p, inside, same⟩ := mem_map.mp power
  refine ⟨by simpa using name, p, by simpa using inside, same.symm⟩

/-- What a template is made of: its text can be read back, and its names are the ones it is made over
and its constants. -/
theorem equation_spec {stem : String} (made : equation names stem rows = .ok e)
    (fits : ∀ row ∈ rows, row.2.length = names.length) (known : ∀ s ∈ names, IsUnknown s)
    (constants : ∀ row ∈ rows, IsUnknown (constantName stem row))
    (writable : ∀ row ∈ rows, ∀ p ∈ row.2, isWritable p) :
    e.IsWritten ∧ ∀ s ∈ e.names, s ∈ names ∨ ∃ row ∈ rows, s = constantName stem row := by
  rw [equation_eq stem fits] at made
  cases made
  constructor
  · intro m mem
    obtain ⟨row, inside, rfl⟩ := mem_map.mp mem
    refine Monomial.isWritten_canonical fun v factor => ?_
    obtain ⟨name, p, power, same⟩ := mem_factors factor
    constructor
    · rcases name with old | constant
      · exact known _ old
      · rw [constant]
        exact constants row inside
    · rw [same]
      rcases power with given | rfl
      · exact isExponent_of_isWritable (writable row inside p given)
      · exact isExponent_one
  · intro s mem
    obtain ⟨m, inside, name⟩ := mem_flatMap.mp mem
    obtain ⟨row, present, rfl⟩ := mem_map.mp inside
    obtain ⟨p, factor, _⟩ := Monomial.mem_names_canonical.mp name
    rcases (mem_factors factor).1 with old | same
    · exact .inl old
    · exact .inr ⟨row, present, same⟩

theorem table_one (d : ℕ) : table d 1 = (List.range (d + 1)).map (fun p => (toString (p + 1), [p])) := by
  have rows : vectors 1 d = (List.range (d + 1)).map (fun p => [p]) := by
    simp only [vectors, map_cons, map_nil]
    exact flatMap_pure_eq_map _ _
  rw [table, if_neg (by omega), number, Int.toNat_natCast, rows]
  apply ext_getElem
  · simp
  · simp

theorem evalPowers_equation_one {R : Type*} [CommRing R] [Algebra ℚ R] {name stem : String} {d : ℕ}
    (made : equation [name] stem (table d 1) = .ok e) (values : String → ℕ → R) :
    e.evalPowers values = ((List.range (d + 1)).map fun p =>
      (if p = 0 then 1 else values name p) * values (stem ++ "_" ++ toString (p + 1)) 1).sum := by
  have fits : ∀ row ∈ table d 1, row.2.length = [name].length := fun row mem => (mem_table mem).2.1
  rw [equation_eq stem fits] at made
  cases made
  rw [Equation.evalPowers, table_one, map_map, map_map]
  refine congrArg List.sum (map_congr_left fun p _ => ?_)
  simp only [Function.comp_apply, Monomial.evalPowers_canonical, factors, constantName]
  by_cases zero : p = 0
  · simp [zero, isZero, same, exponent]
  · simp [zero, isZero, same, exponent]

end Powers

/-! ## Tables -/

/-- A value is given as the degree of a template. -/
def Value.IsDegree (v : Value) (d : ℤ) : Prop := ∃ x, v.number? = some x ∧ (Number.int d).same x

theorem Value.IsDegree.unique {v : Value} {d d' : ℤ} (first : v.IsDegree d) (second : v.IsDegree d') : d = d' := by
  obtain ⟨x, known, same⟩ := first
  obtain ⟨x', known', same'⟩ := second
  cases known.symm.trans known'
  cases x with
  | int n =>
    simp only [Number.same, beq_iff_eq] at same same'
    omega
  | double y =>
    simp only [Number.same, Bool.and_eq_true, decide_eq_true_eq] at same same'
    exact_mod_cast same.2.trans same'.2.symm

theorem Value.toNumber_eq_ok {v : Value} {x : Number} : v.toNumber = .ok x ↔ v.number? = some x := by
  unfold toNumber
  cases v.number? with
  | none => simp
  | some y => simp

theorem Value.count_eq_ok {v : Value} {n : ℕ} :
    v.count = .ok n ↔ ∃ i, v.number? = some (.int i) ∧ i.toNat = n := by
  cases v with
  | number x =>
    cases x with
    | int i => simp [count, int?, number?]
    | double y => simp [count, int?, number?]
  | bool b => simp [count, int?, number?]
  | _ => simp [count, int?, number?]

namespace Powers

/-- Every table on a shelf is the one of its degree and dimension. -/
def Shelf.Sound (shelf : Shelf) : Prop :=
  ∀ entry ∈ shelf.made, ∃ d : ℤ, entry.1.1 = .int d ∧ entry.2 = table d entry.1.2

theorem Shelf.sound_empty : Shelf.Sound {} := fun _ mem => nomatch mem

theorem Shelf.Sound.get {shelf shelf' : Shelf} (sound : shelf.Sound) {degree dimension : Value}
    (got : shelf.get degree dimension = .ok (rows, shelf')) :
    shelf'.Sound ∧ ∃ (d : ℤ) (n : ℕ), degree.IsDegree d ∧ dimension.count = .ok n ∧
      rows = table d n := by
  obtain ⟨x, degreeNumber, got⟩ := bind_eq_ok.mp got
  obtain ⟨y, dimensionNumber, got⟩ := bind_eq_ok.mp got
  rw [Value.toNumber_eq_ok] at degreeNumber dimensionNumber
  cases y with
  | double y => cases got
  | int n =>
    have counted : dimension.count = .ok n.toNat := Value.count_eq_ok.mpr ⟨n, dimensionNumber, rfl⟩
    simp only [pure_bind] at got
    split at got
    · rename_i k rows' found
      cases got
      have mem := mem_of_find?_eq_some found
      have matching := List.find?_some found
      obtain ⟨d, key, table⟩ := sound _ mem
      obtain ⟨number, size⟩ := Bool.and_eq_true_iff.mp matching
      dsimp only at key table number size
      rw [key] at number
      rw [beq_iff_eq] at size
      refine ⟨?_, d, n.toNat, ⟨x, degreeNumber, number⟩, counted, size ▸ table⟩
      intro entry inside
      rcases mem_cons.mp inside with rfl | other
      · exact ⟨d, key, table⟩
      · exact sound entry (mem_of_mem_filter other)
    · cases x with
      | double x => cases got
      | int d =>
        dsimp only at got
        split at got
        · cases got
        · cases got
          refine ⟨?_, d, n.toNat, ⟨.int d, degreeNumber, by simp [Number.same]⟩, counted, rfl⟩
          intro entry inside
          rcases mem_cons.mp (mem_of_mem_take inside) with rfl | other
          · exact ⟨d, rfl, rfl⟩
          · exact sound entry other

/-! ## Constants -/

variable {names : List String} {rows : List (String × List ℕ)} {stem : String} {e : Equation}

theorem eraseDups_of_nodup (distinct : names.Nodup) : names.eraseDups = names := by
  induction names with
  | nil => rfl
  | cons name names ih =>
    rw [nodup_cons] at distinct
    have others : names.filter (fun other => !other == name) = names := by
      rw [filter_eq_self]
      intro other mem
      simpa using fun same : other = name => distinct.1 (same ▸ mem)
    rw [eraseDups_cons, others, ih distinct.2]

theorem constants_table (stem : String) (d : ℤ) (n : ℕ) :
    constants stem (table d n) =
      (List.range (table d n).length).map fun i => stem ++ "_" ++ toString (i + 1) := by
  unfold table
  split
  · rfl
  · refine ext_getElem (by simp [constants, number]) fun i _ _ => ?_
    simp [constants, number]

theorem nodup_constants_table (stem : String) (d : ℤ) (n : ℕ) : (constants stem (table d n)).Nodup := by
  rw [constants_table]
  refine nodup_range.map fun i j same => ?_
  exact Nat.succ_injective (append_toString_injective (stem ++ "_") same)

theorem plain_stateNames (n : ℕ) : ∀ s ∈ stateNames n, '_' ∉ s.toList := by
  intro s mem
  obtain ⟨i, _, rfl⟩ := mem_map.mp mem
  rw [String.toList_append, toList_toString_nat, mem_append, not_or]
  refine ⟨by decide, fun digit => ?_⟩
  exact absurd (isDigit_toDigits _ _ digit) (by decide)

theorem fits_of_equation (made : equation names stem rows = .ok e) :
    ∀ row ∈ rows, row.2.length = names.length := by
  intro row mem
  obtain ⟨ms, monomials, _⟩ := bind_eq_ok.mp made
  obtain ⟨m, _, single⟩ := exists_mem_of_mapM monomials mem
  dsimp only [monomial] at single
  split at single
  · rename_i fits
    simpa using fits.symm
  · cases single

theorem constants_monomial {constant : String} {powers : List ℕ}
    (fits : powers.length = names.length) (plain : ∀ s ∈ names, '_' ∉ s.toList) (marked : '_' ∈ constant.toList) :
    (Monomial.canonical (.given (.int 1)) (factors names constant powers)).constants = [constant] := by
  have split : factors names constant powers =
      names.zip (powers.map fun p : ℕ => Number.int (Int.ofNat p)) ++ [(constant, .int 1)] := by
    rw [factors, map_append, zip_append (by simp [fits])]
    rfl
  have none : ((names.zip (powers.map fun p : ℕ => Number.int (Int.ofNat p))).filter
      (fun v => !v.2.isZero)).filter (fun v => v.1.toList.contains '_') = [] := by
    rw [filter_eq_nil_iff]
    intro v mem
    have name := (of_mem_zip (mem_of_mem_filter mem)).1
    simpa using plain v.1 name
  have sorted := (Sort.sort_perm (fun a b => decide (a.1 ≤ b.1))
    ((factors names constant powers).filter fun v => !v.2.isZero)).filter fun v => v.1.toList.contains '_'
  have single : ((factors names constant powers).filter fun v => !v.2.isZero).filter
      (fun v => v.1.toList.contains '_') = [(constant, .int 1)] := by
    rw [split, filter_append, filter_append, none]
    simp [Number.isZero, Number.same, marked]
  rw [single, perm_singleton] at sorted
  have unfolded : (Monomial.canonical (.given (.int 1)) (factors names constant powers)).constants =
      ((Sort.sort (fun a b => decide (a.1 ≤ b.1))
        ((factors names constant powers).filter fun v => !v.2.isZero)).map (·.1)).filter
          fun v => v.toList.contains '_' := rfl
  rw [unfolded, filter_map]
  exact congrArg (List.map (·.1)) sorted

theorem flatMap_constants_equation (made : equation names stem rows = .ok e) (plain : ∀ s ∈ names, '_' ∉ s.toList) :
    e.monomials.flatMap Monomial.constants = constants stem rows := by
  have fits := fits_of_equation made
  rw [equation_eq stem fits] at made
  cases made
  rw [flatMap_map, constants, ← flatMap_pure_eq_map]
  refine flatMap_congr fun row mem => ?_
  exact constants_monomial (fits row mem) plain (by simp [constantName])

theorem constants_equation {d : ℤ} {n : ℕ}
    (made : equation names stem (table d n) = .ok e) (plain : ∀ s ∈ names, '_' ∉ s.toList) :
    e.constants = constants stem (table d n) := by
  rw [Equation.constants, flatMap_constants_equation made plain, eraseDups_of_nodup (nodup_constants_table stem d n)]

end Powers

end Supermartingale
