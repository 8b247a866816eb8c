import Supermartingale.Proofs.Smt.Reading

/-!
# The solver's text of a polynomial

Polynomials with natural powers, among them all that are read, have a term. Its text is read as products and sums of
two arguments exactly if the coefficients and names in it are words, as numbers and variables are, and roots are not.
A comparison is the text of its left side, at least zero.
-/

namespace Supermartingale

open List

/-- All powers of a polynomial are whole numbers above zero. -/
def Equation.HasPositivePowers (e : Equation) : Prop := ∀ m ∈ e.monomials, ∀ v ∈ m.powers, ∃ k : ℕ, 0 < k ∧ v.2 = .int k

theorem Equation.HasPositivePowers.natural {e : Equation} (h : e.HasPositivePowers) : e.HasNaturalPowers := by
  intro m mem v power
  obtain ⟨k, _, same⟩ := h m mem v power
  rw [same, Number.natural?, if_neg (Int.not_lt.mpr (Int.natCast_nonneg k))]
  rfl

/-! ## What is read has positive powers -/

namespace Equation

theorem hasPositivePowers_ofTerms (terms : List (List (String × ℕ) × Scalar)) : (ofTerms terms).HasPositivePowers := by
  intro m mem v power
  unfold ofTerms at mem
  obtain ⟨row, _, rfl⟩ := mem_map.mp mem
  obtain ⟨listed, nonzero⟩ := Monomial.mem_canonical power
  obtain ⟨k, _, same⟩ := mem_map.mp (of_mem_zip listed).2
  refine ⟨k, ?_, same.symm⟩
  rw [← same] at nonzero
  refine Nat.pos_of_ne_zero fun zero => ?_
  rw [zero] at nonzero
  cases nonzero

theorem hasPositivePowers_ofForm (x : Symbolic) : (ofForm x).HasPositivePowers := by
  unfold ofForm
  split
  · intro m mem v power
    have listed : m ∈ [Monomial.constant (Scalar.ofForm x)] := (mem_filter.mp mem).1
    cases mem_singleton.mp listed
    cases (Monomial.mem_canonical power).1
  · exact hasPositivePowers_ofTerms _

theorem hasPositivePowers_ofText {s : String} {e : Equation} (read : ofText s = .ok e) : e.HasPositivePowers := by
  unfold ofText at read
  split at read
  · split at read
    · cases read
      exact hasPositivePowers_ofTerms _
    · cases read
  · obtain ⟨x, _, rest⟩ := bind_eq_ok.mp read
    unfold ofSymbolic at rest
    dsimp only at rest
    split at rest
    · cases rest
    · obtain ⟨y, _, same⟩ := bind_eq_ok.mp rest
      cases same
      exact hasPositivePowers_ofForm y

end Equation

/-! ## Texts of terms -/

namespace Smt

open Sexp (IsWord Reads)

/-- Atoms, products and sums of two arguments. -/
inductive Sexp.IsArithmetic : Sexp → Prop where
  | atom (s : String) : IsArithmetic (.atom s)
  | binary {op : String} (known : op = "*" ∨ op = "+") {a b : Sexp} (left : IsArithmetic a) (right : IsArithmetic b) :
      IsArithmetic (.list [.atom op, a, b])

def Sexp.valueIn {R : Type} [CommRing R] (δ : String → R) : Sexp → R
  | atom s => δ s
  | list [atom "+", a, b] => a.valueIn δ + b.valueIn δ
  | list [atom "*", a, b] => a.valueIn δ * b.valueIn δ
  | list _ => 0

/-- All atoms are words. -/
inductive Sexp.IsSpelled : Sexp → Prop where
  | atom {s : String} (word : IsWord s) : IsSpelled (.atom s)
  | list {xs : List Sexp} (members : ∀ x ∈ xs, IsSpelled x) : IsSpelled (.list xs)

section

variable {word : List Char} {done : List Sexp} (plain : ∀ c ∈ word, c ∉ ['(', ')', ' '])
  (spelled : ∀ x ∈ done, x.IsSpelled)
include plain spelled

theorem Sexp.isSpelled_flush : ∀ x ∈ flush word done, x.IsSpelled := by
  unfold flush
  split
  · exact spelled
  · rename_i nonempty
    refine forall_mem_cons.mpr ⟨.atom ⟨?_, ?_⟩, spelled⟩
    · simpa using nonempty
    · simpa using plain

theorem Sexp.isSpelled_readFrom {stack : List (List Sexp)} (outer : ∀ ys ∈ stack, ∀ x ∈ ys, x.IsSpelled)
    {cs : List Char} {xs : List Sexp} (read : readFrom word done stack cs = some xs) : ∀ x ∈ xs, x.IsSpelled := by
  -- on the characters left: the word begun is plain, and what is done and on the stack is spelled
  induction cs generalizing word done stack with
  | nil =>
    unfold readFrom at read
    split at read
    · cases read
      simpa using isSpelled_flush plain spelled
    · cases read
  | cons c cs ih =>
    have flushed := isSpelled_flush plain spelled
    unfold readFrom at read
    split at read
    · exact ih (forall_mem_nil _) (forall_mem_nil _) (forall_mem_cons.mpr ⟨flushed, outer⟩) read
    split at read
    · split at read
      · cases read
      · obtain ⟨first, others⟩ := forall_mem_cons.mp outer
        exact ih (forall_mem_nil _) (forall_mem_cons.mpr ⟨.list (by simpa using flushed), first⟩) others read
    split at read
    · exact ih (forall_mem_nil _) flushed outer read
    · exact ih (forall_mem_cons.mpr ⟨by simp [*], plain⟩) spelled outer read

end

namespace Term

/-- Coefficients and names are written as words, without blanks and parentheses. -/
def IsWorded (t : Term) : Prop := t.Over (fun c => IsWord c.text) IsWord

theorem isWorded_of_isSpelled {t : Term} (spelled : t.sexp.IsSpelled) : t.IsWorded := by
  induction t with
  | number c | var name =>
    cases spelled with
    | atom word => exact word
  | mul a b iha ihb | add a b iha ihb =>
    cases spelled with
    | list members => exact ⟨iha (members _ (by simp)), ihb (members _ (by simp))⟩

theorem read_render_iff {t : Term} : Sexp.read t.render = some [t.sexp] ↔ t.IsWorded := by
  constructor
  · intro read
    have spelled := Sexp.isSpelled_readFrom (forall_mem_nil _) (forall_mem_nil _) (forall_mem_nil _) read
    exact isWorded_of_isSpelled (spelled _ mem_cons_self)
  · exact fun worded => (reads_sexp worded).read_eq

theorem isArithmetic_sexp (t : Term) : t.sexp.IsArithmetic := by
  induction t with
  | number c => exact .atom _
  | var name => exact .atom _
  | mul a b iha ihb => exact .binary (.inl rfl) iha ihb
  | add a b iha ihb => exact .binary (.inr rfl) iha ihb

theorem valueIn_sexp {R : Type} [CommRing R] {κ : Reading R} {δ : String → R} {t : Term}
    (agrees : t.Over (fun c => δ c.text = κ.coefficient c) fun name => δ name = κ.name name) :
    t.sexp.valueIn δ = t.valueIn κ := by
  induction t with
  | number c | var name => exact agrees
  | mul a b iha ihb | add a b iha ihb => rw [sexp, Sexp.valueIn, valueIn, iha agrees.1, ihb agrees.2]

end Term

end Smt

namespace Equation

def IsWorded (e : Equation) : Prop :=
  (∀ m ∈ e.monomials, Smt.Sexp.IsWord m.coefficient.text) ∧ ∀ name ∈ e.names, Smt.Sexp.IsWord name

theorem IsWritten.isWorded {e : Equation} (written : e.IsWritten) : e.IsWorded := by
  refine ⟨fun m mem => .of_isAtom (.scalar (written m mem).coefficient), fun name mem => ?_⟩
  obtain ⟨m, inside, v, power, rfl⟩ := exists_power_of_mem_names mem
  exact .of_isAtom (.of_isUnknown ((written m inside).powers v power).1)

/-- The texts of coefficients are read as the coefficients, and names as their values. -/
structure AgreesWith {R : Type} [CommRing R] (e : Equation) (κ : Reading R) (δ : String → R) : Prop where
  coefficients : ∀ m ∈ e.monomials, δ m.coefficient.text = κ.coefficient m.coefficient
  names : ∀ name ∈ e.names, δ name = κ.name name
  zero : δ "0" = 0
  one : δ "1" = 1

/-- The term of a polynomial: what it is made of, its text, how the text is read, and its value. -/
structure IsDenotedBy (e : Equation) (t : Smt.Term) : Prop where
  text : e.smt = .ok t.render
  products : ∃ ts, Forall₂ Monomial.IsDenotedBy e.monomials ts ∧ t = if e.isZero then .number .zero else .total ts
  value : ∀ (R : Type) [CommRing R] (κ : Reading R), t.valueIn κ = e.valueIn κ
  arithmetic : t.sexp.IsArithmetic
  reads : Smt.Sexp.read t.render = some [t.sexp] ↔ t.IsWorded
  worded : e.IsWorded → t.IsWorded
  agrees : ∀ (R : Type) [CommRing R] (κ : Reading R) (δ : String → R), e.AgreesWith κ δ → t.sexp.valueIn δ = e.valueIn κ

theorem exists_isDenotedBy {e : Equation} (natural : e.HasNaturalPowers) : ∃ t, e.IsDenotedBy t := by
  obtain ⟨ts, denoted⟩ := exists_forall₂ fun m mem => Monomial.exists_isDenotedBy (natural m mem)
  have made := term_eq denoted
  have value (R : Type) [CommRing R] (κ : Reading R) := valueIn_total κ denoted
  refine ⟨_, bind_eq_ok.mpr ⟨_, made, rfl⟩, ⟨ts, denoted, rfl⟩, value, Smt.Term.isArithmetic_sexp _,
    Smt.Term.read_render_iff, fun worded => ?_, fun R _ κ δ agrees => ?_⟩
  · exact e.over_term (by decide +kernel) (by decide +kernel) worded.1 worded.2 made
  · have zero : δ Scalar.zero.text = κ.coefficient .zero := agrees.zero.trans (κ.zero _ (by decide +kernel)).symm
    have one : δ (Scalar.given (.int 1)).text = κ.coefficient (.given (.int 1)) := agrees.one.trans κ.one.symm
    have leaves := e.over_term (P := fun c => δ c.text = κ.coefficient c) zero one agrees.coefficients agrees.names made
    rw [Smt.Term.valueIn_sexp leaves, value]

theorem HasNaturalPowers.sub {e f : Equation} (left : e.HasNaturalPowers) (right : f.HasNaturalPowers) :
    (e.sub f).HasNaturalPowers :=
  forall_mem_sub (fun _ natural v mem => natural v (Monomial.mem_canonical mem).1) left right

end Equation

theorem Inequality.exists_smt_make {l r : Equation} (left : l.HasNaturalPowers) (right : r.HasNaturalPowers)
    {c : Relation} (known : c ∈ [.lt, .le, .gt, .ge]) :
    ∃ t, (make l c r).left.IsDenotedBy t ∧ (make l c r).smt = .ok ("(>= " ++ t.render ++ " 0)") := by
  have compared {l r : Equation} (left : l.HasNaturalPowers) (zero : r.isZero) :
      ∃ t, l.IsDenotedBy t ∧ (⟨l, .ge, r⟩ : Inequality).smt = .ok ("(>= " ++ t.render ++ " 0)") := by
    obtain ⟨t, denoted⟩ := Equation.exists_isDenotedBy left
    have nothing : r.smt = .ok "0" := by
      unfold Equation.smt Equation.term
      rw [if_pos zero]
      rfl
    have text : "(" ++ Relation.ge.sign ++ " " ++ t.render ++ " " ++ "0" ++ ")" = "(>= " ++ t.render ++ " 0)" := by
      rw [← String.toList_inj]
      simp [Relation.sign]
    refine ⟨t, denoted, ?_⟩
    rw [← text]
    exact bind_eq_ok.mpr ⟨_, denoted.text, bind_eq_ok.mpr ⟨_, nothing, rfl⟩⟩
  have made {c : Relation} (direction : c = .le ∨ c = .ge) :
      ∃ t, (make l c r).left.IsDenotedBy t ∧ (make l c r).smt = .ok ("(>= " ++ t.render ++ " 0)") :=
    make_induction (Q := fun i => ∃ t, i.left.IsDenotedBy t ∧ i.smt = .ok ("(>= " ++ t.render ++ " 0)")) direction
      left right (fun left _ zero => compared left zero) fun left right => compared (left.sub right) rfl
  simp only [mem_cons, not_mem_nil, or_false] at known
  rcases known with rfl | rfl | rfl | rfl
  · exact made (c := .le) (.inl rfl)
  · exact made (.inl rfl)
  · exact made (c := .ge) (.inr rfl)
  · exact made (.inr rfl)

namespace Equation

/-- Polynomials with natural powers, among them all that are read, have a term of products and sums, with the value
of the polynomial and each name as often as its power says. The text is read as this one expression exactly if all
coefficients and names in it are words, as those of written polynomials are. A comparison is the text of its left
side, at least zero. -/
theorem smt_denotes : (∀ s e, ofText s = .ok e → e.HasPositivePowers ∧ ∃ t, e.IsDenotedBy t) ∧
    (∀ e : Equation, e.HasNaturalPowers → ∃ t, e.IsDenotedBy t) ∧ (∀ e : Equation, e.IsWritten → e.IsWorded) ∧
    ∀ l r : Equation, l.HasNaturalPowers → r.HasNaturalPowers → ∀ c ∈ [Relation.lt, .le, .gt, .ge],
      ∃ t, (Inequality.make l c r).left.IsDenotedBy t ∧
        (Inequality.make l c r).smt = .ok ("(>= " ++ t.render ++ " 0)") := by
  refine ⟨fun s e read => ?_, fun e natural => exists_isDenotedBy natural, fun e written => written.isWorded,
    fun l r left right c known => Inequality.exists_smt_make left right known⟩
  have positive := hasPositivePowers_ofText read
  exact ⟨positive, exists_isDenotedBy positive.natural⟩

def quintic : Equation := ⟨[⟨.given (.int 3), [("S1", .int 5)]⟩, ⟨.given (.int 1), []⟩]⟩

theorem quintic_smt_denotes : quintic.HasNaturalPowers ∧
    ∃ t, quintic.IsDenotedBy t ∧ t.render = "(+ (* 3 (* (* S1 S1) (* S1 (* S1 S1)))) 1)" ∧
      Smt.Sexp.read t.render = some [t.sexp] := by
  have natural : quintic.HasNaturalPowers := by
    unfold HasNaturalPowers
    decide +kernel
  have text : quintic.smt = .ok "(+ (* 3 (* (* S1 S1) (* S1 (* S1 S1)))) 1)" := by
    cbv
  have worded : quintic.IsWorded := by
    unfold IsWorded
    decide +kernel
  obtain ⟨t, denoted⟩ := smt_denotes.2.1 quintic natural
  exact ⟨natural, t, denoted, Except.ok.inj (denoted.text.symm.trans text), denoted.reads.mpr (denoted.worded worded)⟩

/-- A root is one name of a polynomial, but its text is read as two arguments. -/
theorem root_not_arithmetic : ∃ e x, ofText "(4*S1)**(1/2)" = .ok e ∧ e.HasPositivePowers ∧
    e.smt = .ok "(* 2 sqrt(S1))" ∧ Smt.Sexp.read "(* 2 sqrt(S1))" = some [x] ∧ ¬ x.IsArithmetic := by
  have texts : (ofText "(4*S1)**(1/2)" >>= smt) = .ok "(* 2 sqrt(S1))" := by decide +kernel
  obtain ⟨e, read, text⟩ := bind_eq_ok.mp texts
  refine ⟨e, .list [.atom "*", .atom "2", .atom "sqrt", .list [.atom "S1"]], read, hasPositivePowers_ofText read,
    text, by rfl, ?_⟩
  rintro ⟨⟩

end Equation

end Supermartingale
