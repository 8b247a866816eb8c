import Supermartingale.Proofs.Except
import Supermartingale.Proofs.Polynomial.Written

/-!
# Terms of polynomials

The monomials of a polynomial are added up from the left, each its coefficient times the powers of its names, and a
power is split into halves until single names are left. The value of the term is that of the polynomial.
-/

namespace Supermartingale

open List Smt.Term

/-! ## Leaves -/

namespace Smt.Term

def Over (P : Scalar → Prop) (Q : String → Prop) : Term → Prop
  | number c => P c
  | var name => Q name
  | mul a b => a.Over P Q ∧ b.Over P Q
  | add a b => a.Over P Q ∧ b.Over P Q

variable {P : Scalar → Prop} {Q : String → Prop}

theorem over_power (one : P (.given (.int 1))) {name : String} (named : Q name) (n : ℕ) :
    (power name n).Over P Q := by
  fun_induction power name n with
  | case1 => exact one
  | case2 => exact named
  | case3 => exact ⟨named, named⟩
  | case4 n _ _ _ ihl ihr => exact ⟨ihl, ihr⟩

theorem Over.mono {P' : Scalar → Prop} {Q' : String → Prop} {t : Term} (spanned : t.Over P Q)
    (numbers : ∀ c, P c → P' c) (names : ∀ name, Q name → Q' name) : t.Over P' Q' := by
  induction t with
  | number c => exact numbers c spanned
  | var name => exact names name spanned
  | mul a b iha ihb | add a b iha ihb => exact ⟨iha spanned.1, ihb spanned.2⟩

end Smt.Term

section

variable {P : Scalar → Prop} {Q : String → Prop}

theorem Monomial.over_powerTerm (one : P (.given (.int 1))) {name : String} (named : Q name) {p : Number}
    {t : Smt.Term} (made : powerTerm name p = .ok t) : t.Over P Q := by
  have power := over_power one named
  unfold powerTerm at made
  split at made
  · split at made
    · cases made
    · cases made
      exact power _
  · split at made
    · cases made
      exact power _
    · split at made
      · cases made
        exact ⟨power _, power _⟩
      · cases made

variable (zero : P .zero) (one : P (.given (.int 1)))

include zero one

theorem Monomial.over_term {m : Monomial} (coefficient : P m.coefficient) (named : ∀ name ∈ m.names, Q name)
    {t : Smt.Term} (made : m.term = .ok t) : t.Over P Q := by
  unfold term at made
  unfold names at named
  split at made
  · cases made
    exact zero
  · rename_i nonzero
    rw [if_neg nonzero, forall_mem_map] at named
    have start : (number m.coefficient).Over P Q := coefficient
    refine foldlM_invariant (fun v mem t t' spanned multiplied => ?_) start made
    obtain ⟨factor, power, same⟩ := bind_eq_ok.mp multiplied
    cases same
    exact ⟨spanned, over_powerTerm one (named v mem) power⟩

theorem Equation.over_term {e : Equation} (coefficients : ∀ m ∈ e.monomials, P m.coefficient)
    (named : ∀ name ∈ e.names, Q name) {t : Smt.Term} (made : e.term = .ok t) : t.Over P Q := by
  have summand (m : Monomial) (mem : m ∈ e.monomials) {t : Smt.Term} (made : m.term = .ok t) : t.Over P Q :=
    m.over_term zero one (coefficients m mem)
      (fun name inside => named name (mem_flatMap.mpr ⟨m, mem, inside⟩)) made
  unfold term at made
  split at made
  · cases made
    exact zero
  · split at made
    · cases made
      exact zero
    · rename_i m ms monomials
      rw [monomials] at summand
      obtain ⟨first, leading, rest⟩ := bind_eq_ok.mp made
      refine foldlM_invariant (fun n mem t t' spanned added => ?_) (summand m mem_cons_self leading) rest
      obtain ⟨next, term, same⟩ := bind_eq_ok.mp added
      cases same
      exact ⟨spanned, summand n (mem_cons_of_mem m mem) term⟩

end

theorem Equation.exists_power_of_mem_names {e : Equation} {name : String} (mem : name ∈ e.names) :
    ∃ m ∈ e.monomials, ∃ v ∈ m.powers, v.1 = name := by
  obtain ⟨m, inside, named⟩ := mem_flatMap.mp mem
  unfold Monomial.names at named
  split at named
  · cases named
  · exact ⟨m, inside, mem_map.mp named⟩

/-! ## Natural powers -/

def Number.natural? : Number → Option ℕ
  | .int n => if n < 0 then none else some n.toNat
  | .double x => Monomial.natOfDouble? x

def Number.natural (p : Number) : ℕ := p.natural?.getD 0

/-- All powers of a polynomial are natural numbers. -/
def Equation.HasNaturalPowers (e : Equation) : Prop := ∀ m ∈ e.monomials, ∀ v ∈ m.powers, v.2.natural?.isSome

theorem Monomial.powerTerm_eq (v : String) {p : Number} (natural : p.natural?.isSome) :
    powerTerm v p = .ok (power v p.natural) := by
  cases p with
  | int n =>
    by_cases negative : n < 0
    · simp [Number.natural?, negative] at natural
    · simp [powerTerm, Number.natural, Number.natural?, negative]
  | double x =>
    obtain ⟨n, found⟩ := Option.isSome_iff_exists.mp natural
    have found : natOfDouble? x = some n := found
    simp [powerTerm, Number.natural, Number.natural?, found]

/-! ## Values -/

/-- What coefficients and names are taken to be. A coefficient that is zero counts as zero, and one as one. -/
structure Reading (R : Type) [CommRing R] where
  coefficient : Scalar → R
  name : String → R
  zero : ∀ c, c.isZero → coefficient c = 0
  one : coefficient (.given (.int 1)) = 1

section

variable {R : Type} [CommRing R] (κ : Reading R)

def Monomial.valueIn (m : Monomial) : R :=
  κ.coefficient m.coefficient * (m.powers.map fun v => κ.name v.1 ^ v.2.natural).prod

def Equation.valueIn (e : Equation) : R := (e.monomials.map (Monomial.valueIn κ)).sum

namespace Smt

def Term.valueIn : Term → R
  | number c => κ.coefficient c
  | var name => κ.name name
  | mul a b => a.valueIn * b.valueIn
  | add a b => a.valueIn + b.valueIn

theorem Term.valueIn_power (name : String) (n : ℕ) : (power name n).valueIn κ = κ.name name ^ n := by
  fun_induction power name n with
  | case1 => rw [valueIn, κ.one, pow_zero]
  | case2 => rw [valueIn, pow_one]
  | case3 => rw [valueIn, valueIn, sq]
  | case4 n _ _ _ ihl ihr =>
    -- the two halves of the exponent add up to it
    rw [valueIn, ihl, ihr, ← pow_add]
    congr 1
    omega

end Smt

end

namespace Smt.Term

def occurrences (name : String) : Term → ℕ
  | number _ => 0
  | var v => if v = name then 1 else 0
  | mul a b => a.occurrences name + b.occurrences name
  | add a b => a.occurrences name + b.occurrences name

theorem occurrences_power (name v : String) (n : ℕ) :
    (power v n).occurrences name = if v = name then n else 0 := by
  fun_induction power v n with
  | case1 => simp [occurrences]
  | case2 => rfl
  | case3 =>
    rw [occurrences, occurrences]
    split <;> rfl
  | case4 n _ _ _ ihl ihr =>
    rw [occurrences, ihl, ihr]
    split
    · omega
    · rfl

end Smt.Term

def Monomial.degreeIn (name : String) (m : Monomial) : ℕ :=
  (m.powers.map fun v => if v.1 = name then v.2.natural else 0).sum

/-! ## Terms of monomials and polynomials -/

namespace Monomial

theorem foldlM_natural {powers : List (String × Number)} (natural : ∀ v ∈ powers, v.2.natural?.isSome) (t : Smt.Term) :
    ∃ t', powers.foldlM (fun t (v, p) => do return mul t (← powerTerm v p)) t = .ok t' ∧
      (∀ (R : Type) [CommRing R] (κ : Reading R),
        t'.valueIn κ = t.valueIn κ * (powers.map fun v => κ.name v.1 ^ v.2.natural).prod) ∧
      ∀ name, t'.occurrences name =
        t.occurrences name + (powers.map fun v => if v.1 = name then v.2.natural else 0).sum := by
  induction powers generalizing t with
  | nil => exact ⟨t, rfl, fun R _ κ => by simp, fun name => by simp⟩
  | cons v powers ih =>
    obtain ⟨first, others⟩ := forall_mem_cons.mp natural
    obtain ⟨t', folded, value, count⟩ := ih others (.mul t (.power v.1 v.2.natural))
    refine ⟨t', ?_, fun R _ κ => ?_, fun name => ?_⟩
    · rw [foldlM_cons]
      dsimp only
      rw [powerTerm_eq v.1 first]
      exact folded
    · rw [value, Smt.Term.valueIn, Smt.Term.valueIn_power, map_cons, prod_cons, mul_assoc]
    · rw [count, Smt.Term.occurrences, Smt.Term.occurrences_power, map_cons, sum_cons, add_assoc]

structure IsDenotedBy (m : Monomial) (t : Smt.Term) : Prop where
  term : m.term = .ok t
  value : ∀ (R : Type) [CommRing R] (κ : Reading R), t.valueIn κ = m.valueIn κ
  count : m.isZero = false → ∀ name, t.occurrences name = m.degreeIn name

theorem exists_isDenotedBy {m : Monomial} (natural : ∀ v ∈ m.powers, v.2.natural?.isSome) : ∃ t, m.IsDenotedBy t := by
  by_cases zero : m.coefficient.isZero
  · refine ⟨.number .zero, by rw [term, if_pos zero], fun R _ κ => ?_, fun nonzero => ?_⟩
    · rw [Smt.Term.valueIn, valueIn, κ.zero _ zero, κ.zero _ (by decide +kernel), zero_mul]
    · rw [isZero, zero] at nonzero
      cases nonzero
  · obtain ⟨t, folded, value, count⟩ := foldlM_natural natural (.number m.coefficient)
    refine ⟨t, by rw [term, if_neg zero, folded], value, fun _ name => ?_⟩
    rw [count, Smt.Term.occurrences, zero_add]
    rfl

end Monomial

theorem Monomial.map_valueIn {R : Type} [CommRing R] (κ : Reading R) {ms : List Monomial} {ts : List Smt.Term}
    (denoted : Forall₂ IsDenotedBy ms ts) : ts.map (Smt.Term.valueIn κ) = ms.map (valueIn κ) := by
  induction denoted with
  | nil => rfl
  | cons first _ ih => rw [map_cons, map_cons, first.value, ih]

namespace Smt.Term

def total : List Term → Term
  | [] => number .zero
  | t :: ts => ts.foldl add t

theorem valueIn_foldl {R : Type} [CommRing R] (κ : Reading R) (t : Term) (ts : List Term) :
    (ts.foldl add t).valueIn κ = t.valueIn κ + (ts.map (valueIn κ)).sum := by
  induction ts generalizing t with
  | nil => simp
  | cons u ts ih => rw [foldl_cons, ih, valueIn, map_cons, sum_cons, add_assoc]

end Smt.Term

namespace Equation

variable {ts : List Smt.Term} {e : Equation}

theorem valueIn_of_isZero {R : Type} [CommRing R] (κ : Reading R) (zero : e.isZero) : e.valueIn κ = 0 := by
  refine sum_eq_zero fun x mem => ?_
  obtain ⟨m, inside, rfl⟩ := mem_map.mp mem
  rw [Monomial.valueIn, κ.zero _ (all_eq_true.mp zero m inside), zero_mul]

theorem foldlM_total {ms : List Monomial} (denoted : Forall₂ Monomial.IsDenotedBy ms ts) (t : Smt.Term) :
    ms.foldlM (fun t m => do return Smt.Term.add t (← m.term)) t = .ok (ts.foldl .add t) := by
  induction denoted generalizing t with
  | nil => rfl
  | cons first _ ih =>
    rw [foldlM_cons, first.term]
    exact ih _

theorem term_eq (denoted : Forall₂ Monomial.IsDenotedBy e.monomials ts) :
    e.term = .ok (if e.isZero then .number .zero else .total ts) := by
  unfold term
  split
  · rfl
  · obtain ⟨ms⟩ := e
    cases denoted with
    | nil => rfl
    | cons first others =>
      dsimp only
      rw [first.term]
      exact foldlM_total others _

theorem valueIn_total {R : Type} [CommRing R] (κ : Reading R)
    (denoted : Forall₂ Monomial.IsDenotedBy e.monomials ts) :
    (if e.isZero then .number .zero else total ts).valueIn κ = e.valueIn κ := by
  split
  · rename_i zero
    rw [valueIn_of_isZero κ zero]
    exact κ.zero _ (by decide +kernel)
  · rw [valueIn, ← Monomial.map_valueIn κ denoted]
    cases ts with
    | nil => exact κ.zero _ (by decide +kernel)
    | cons t ts => exact Smt.Term.valueIn_foldl κ t ts

end Equation

end Supermartingale
