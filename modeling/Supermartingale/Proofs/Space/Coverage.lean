import Supermartingale.Proofs.Polynomial.NextState
import Supermartingale.Proofs.Smt.Reading
import Supermartingale.Proofs.Space.Conjunction

/-!
# Literals cover the state space

The solver is told two formulas, one for the proposition that stands for a space and one for its negation. Where the
space is true as it is written, the first one holds, and where it is false, the second one does.
-/

namespace Supermartingale

open List String

namespace Space

/-! ## Spaces as they are written -/

/-- A polynomial over the state variables as it is written. Without blanks it is read as a polynomial that has
the value which the text spells. -/
structure IsSide (n : ℕ) (cs : List Char) : Prop where
  chars : ∀ c ∈ cs, c ∈ sideChars
  exact : ∃ tree e, Expression.read (ofList cs) = some tree ∧
    Equation.ofText (ofList (unblanked cs)) = .ok e ∧ e.isOver (Powers.stateNames n) ∧
    ∀ ρ : String → ℝ, e.eval ρ = tree.eval ρ

noncomputable def spelledAt (ρ : String → ℝ) (cs : List Char) : ℝ :=
  (Expression.read (ofList cs)).elim 0 fun tree => tree.eval ρ

/-- There are one or two comparisons between polynomials. -/
structure Chunk.IsProper (n : ℕ) (c : Chunk) : Prop where
  count : c.rest.length = 1 ∨ c.rest.length = 2
  first : IsSide n c.first
  rest : ∀ x ∈ c.rest, x.1 ∈ signs ∧ IsSide n x.2

/-- The comparisons between neighbours are true as they are written. -/
def Ascends (ρ : String → ℝ) : List Char → List (Relation × List Char) → Prop
  | _, [] => True
  | a, (r, b) :: rest => r.Compares (spelledAt ρ a) (spelledAt ρ b) ∧ Ascends ρ b rest

namespace Conjunction

structure IsProper (n : ℕ) (s : Conjunction) : Prop where
  words : ∀ x ∈ s.rest, x.1 ∈ ["and", "AND", "&"]
  chunks : ∀ c ∈ s.chunks, c.IsProper n

/-- The truth of a space as it is written. -/
def IsTrue (ρ : String → ℝ) (s : Conjunction) : Prop := ∀ c ∈ s.chunks, Ascends ρ c.first c.rest

end Conjunction

/-! ## Reading a space -/

variable {n : ℕ} {cs : List Char} {c : Chunk}

theorem IsSide.chars_operand (side : IsSide n cs) : ∀ d ∈ cs, d ∈ operandChars :=
  fun d mem => mem_append_right _ (side.chars d mem)

theorem Chunk.IsProper.plain (proper : c.IsProper n) : c.IsPlain :=
  ⟨proper.first.chars_operand, fun x mem => ⟨(proper.rest x mem).1, (proper.rest x mem).2.chars_operand⟩⟩

theorem Conjunction.IsProper.plain {s : Conjunction} (proper : s.IsProper n) : s.IsPlain :=
  ⟨proper.words, fun c mem => (proper.chunks c mem).plain⟩

theorem IsSide.exists_compareTexts {a b : List Char} (left : IsSide n a) (right : IsSide n b) (r : Relation) :
    ∃ i, compareTexts (unblanked a) r (unblanked b) = .ok i := by
  obtain ⟨_, l, _, first, _⟩ := left.exact
  obtain ⟨_, r, _, second, _⟩ := right.exact
  exact ⟨_, bind_eq_ok.mpr ⟨l, first, bind_eq_ok.mpr ⟨r, second, rfl⟩⟩⟩

theorem Chunk.IsProper.isSide_of_mem (proper : c.IsProper n) : ∀ cs ∈ c.operands, IsSide n cs :=
  forall_mem_cons.mpr ⟨proper.first, forall_mem_map.mpr fun x mem => (proper.rest x mem).2⟩

def Chunk.comparisons (c : Chunk) : List Comparison :=
  chain (unblanked c.first) (c.rest.map fun x => (x.1, unblanked x.2))

theorem IsSide.isOver (side : IsSide n cs) : ∃ e, Equation.ofText (ofList (unblanked cs)) = .ok e ∧
    e.isOver (Powers.stateNames n) ∧ ∀ ρ, e.eval ρ = spelledAt ρ cs := by
  obtain ⟨tree, e, read, made, within, values⟩ := side.exact
  exact ⟨e, made, within, fun ρ => by rw [values, spelledAt, read, Option.elim_some]⟩

theorem chain_spec {rest : List (Relation × List Char)} (known : ∀ x ∈ rest, x.1 ∈ signs ∧ IsSide n x.2)
    (first : IsSide n cs) : let comparisons := chain (unblanked cs) (rest.map fun x => (x.1, unblanked x.2))
    (∀ c ∈ comparisons, c.isOver (Powers.stateNames n)) ∧
      ∀ ρ, (∀ c ∈ comparisons, c.Holds ρ) ↔ Ascends ρ cs rest := by
  induction rest generalizing cs with
  | nil => simp [chain, Ascends]
  | cons x rest ih =>
    obtain ⟨⟨_, side⟩, others⟩ := forall_mem_cons.mp known
    obtain ⟨spanned, truth⟩ := ih others side
    obtain ⟨l, madel, overl, valuel⟩ := first.isOver
    obtain ⟨r, mader, overr, valuer⟩ := side.isOver
    simp only [map_cons, chain, forall_mem_cons]
    refine ⟨⟨by simp [Comparison.isOver, madel, mader, overl, overr], spanned⟩, fun ρ => ?_⟩
    refine and_congr ⟨?_, fun compares => ?_⟩ (truth ρ)
    · rintro ⟨l', r', madel', mader', compares⟩
      cases madel.symm.trans madel'
      cases mader.symm.trans mader'
      rwa [valuel, valuer] at compares
    · exact ⟨l, r, madel, mader, by rwa [valuel, valuer]⟩

namespace Conjunction.IsProper

variable {s : Conjunction} (proper : s.IsProper n)
include proper

theorem written_text : written s.text = s.chunks.flatMap Chunk.comparisons := by
  rw [written, proper.plain.splitOn_text, flatMap_map]
  refine flatMap_congr fun c mem => ?_
  unfold chunkComparisons Chunk.comparisons
  rw [(proper.chunks c mem).plain.cutWritten]

theorem isOk_read : (read s.text).isOk := by
  have each : ∀ k ∈ s.comparisons, ∃ i, k.inequality = .ok i := by
    intro k mem
    obtain ⟨c, inside, listed⟩ := mem_flatMap.mp mem
    obtain ⟨left, right, _⟩ := mem_chain listed
    have sides := (proper.chunks c inside).isSide_of_mem
    exact (sides _ left).exists_compareTexts (sides _ right) _
  obtain ⟨is, made⟩ := exists_mapM_eq_ok each
  rw [proper.plain.read_eq fun c inside => (proper.chunks c inside).count, made]
  rfl

theorem spans : Spans (Powers.stateNames n) s.text := by
  refine ⟨proper.isOk_read, fun c mem => ?_⟩
  rw [proper.written_text] at mem
  obtain ⟨chunk, inside, listed⟩ := mem_flatMap.mp mem
  have known := proper.chunks chunk inside
  exact (chain_spec known.rest known.first).1 c listed

theorem holds_iff (ρ : String → ℝ) : Holds ρ s.text ↔ s.IsTrue ρ := by
  unfold Holds IsTrue
  rw [proper.written_text]
  simp only [forall_mem_flatMap]
  refine forall₂_congr fun chunk inside => ?_
  have known := proper.chunks chunk inside
  exact (chain_spec known.rest known.first).2 ρ

end Conjunction.IsProper

end Space

/-! ## What the solver is told -/

open Smt (Sexp)

/-- A text is read as one sentence, which is true where a property holds. -/
def Says (text : String) (P : (String → ℝ) → Prop) : Prop :=
  ∃ s, Sexp.Reads text.toList [s] ∧ ∀ other ρ, s.Holds other ρ ↔ P ρ

theorem Says.join {a b : String} {P Q : (String → ℝ) → Prop} (first : Says a P) (second : Says b Q) (k : Connective) :
    Says ("(" ++ k.word ++ " " ++ a ++ " " ++ b ++ ")") fun ρ => k.Holds [P, Q] fun r => r ρ := by
  obtain ⟨s, reads, truth⟩ := first
  obtain ⟨t, reads', truth'⟩ := second
  have word : Sexp.IsWord k.word := by cases k <;> decide
  refine ⟨Sexp.joined k [s, t], .binary word reads reads', fun other ρ => ?_⟩
  rw [Sexp.holds_joined]
  cases k <;> simp [Connective.Holds, truth, truth']

theorem Inequality.says {i : Inequality} (left : i.left.IsWritten) (right : i.right.IsWritten) :
    ∃ text, i.smt = .ok text ∧ Says text i.Holds := by
  obtain ⟨text, a, b, made, reads, holds⟩ := i.exists_reads left right
  exact ⟨text, made, _, reads, fun other ρ => (Sexp.holds_compared other ρ _ a b).trans (holds ρ)⟩

namespace Space

def isSide (n : ℕ) (cs : List Char) : Bool :=
  cs.all sideChars.contains &&
    Token.scan "**" (ofList cs) == Token.scan "**" (ofList (unblanked cs)) &&
    readsExactly (ofList (unblanked cs)) &&
    match Equation.ofText (ofList (unblanked cs)) with
    | .ok e => e.isOver (Powers.stateNames n)
    | .error _ => false

theorem isSide_sound {n : ℕ} {cs : List Char} (checked : isSide n cs) : IsSide n cs := by
  simp only [isSide, Bool.and_eq_true, beq_iff_eq] at checked
  obtain ⟨⟨⟨chars, scanned⟩, exactly⟩, within⟩ := checked
  have same : Expression.read (ofList cs) = Expression.read (ofList (unblanked cs)) := by
    rw [Expression.read, scanned, Expression.read]
  refine ⟨fun c mem => by simpa using all_eq_true.mp chars c mem, ?_⟩
  cases made : Equation.ofText (ofList (unblanked cs)) with
  | error f => simp [made] at within
  | ok e =>
    cases read : Expression.read (ofList (unblanked cs)) with
    | none => simp [readsExactly, read] at exactly
    | some tree =>
      exact ⟨tree, e, same.trans read, rfl, by simpa [made] using within,
        (readsExactly_sound exactly tree e read made).2⟩

/-- `0 <= S1 < 5 AND 0.5*S1 > S2**2 & S2>=1/3`. -/
def wedge : Conjunction where
  first := ⟨"0 ".toList, [(.le, " S1 ".toList), (.lt, " 5 ".toList)]⟩
  rest := [("AND", ⟨" 0.5*S1 ".toList, [(.gt, " S2**2 ".toList)]⟩), ("&", ⟨" S2".toList, [(.ge, "1/3".toList)]⟩)]

theorem isProper_wedge : wedge.IsProper 2 := by
  refine ⟨by decide, ?_⟩
  have checked : ∀ c ∈ wedge.chunks, (c.rest.length = 1 ∨ c.rest.length = 2) ∧ isSide 2 c.first ∧
      ∀ x ∈ c.rest, x.1 ∈ signs ∧ isSide 2 x.2 := by decide +kernel
  intro c mem
  obtain ⟨count, first, rest⟩ := checked c mem
  exact ⟨count, isSide_sound first, fun x inside => ⟨(rest x inside).1, isSide_sound (rest x inside).2⟩⟩

end Space

/-- Where a space is true as it is written, the formula of its proposition holds, and where it is false, that of
the negation. So one of the two always holds, and both do exactly where no side of the inequalities in normal form
is negative and one of them is zero. -/
theorem Guard.literals_cover {n : ℕ} {s : Space.Conjunction} (proper : s.IsProper n) (proposition : String) :
    ∃ is negative positive, Space.read s.text = .ok is ∧
      literals proposition s.text = .ok [("!" ++ proposition, negative), (proposition, positive)] ∧
      ∃ no yes, Sexp.read negative = some [no] ∧ Sexp.read positive = some [yes] ∧ ∀ other ρ,
        (s.IsTrue ρ → yes.Holds other ρ) ∧ (¬ s.IsTrue ρ → no.Holds other ρ) ∧
        (yes.Holds other ρ ∨ no.Holds other ρ) ∧
        (yes.Holds other ρ ∧ no.Holds other ρ ↔
          (∀ i ∈ is, 0 ≤ i.left.eval ρ) ∧ ∃ i ∈ is, i.left.eval ρ = 0) := by
  obtain ⟨is, comprises, _, normal, truth⟩ := proper.spans.exists_comprises fun name => isUnknown_stateName
  obtain ⟨negative, positive, literals, ⟨no, reads', holds'⟩, yes, reads, holds⟩ := Space.exists_literals
    (R := fun _ => Says) (Q := Inequality.IsWritten) (fun first second => first.join second _)
    (fun _ _ written => Inequality.says written.left written.right)
    Inequality.IsWritten.negate comprises.result comprises.isWritten
  refine ⟨is, negative, positive, comprises.result, literals proposition, no, yes, reads'.read_eq, reads.read_eq,
    fun other ρ => ?_⟩
  have positively : yes.Holds other ρ ↔ ∀ i ∈ is, 0 ≤ i.left.eval ρ :=
    (holds other ρ).trans (forall₂_congr fun i member => (normal i member).holds_iff ρ)
  have negatively : no.Holds other ρ ↔ ∃ i ∈ is, i.left.eval ρ ≤ 0 := by
    refine (holds' other ρ).trans ?_
    exact exists_congr fun i => and_congr_right fun member => (normal i member).holds_negate_iff ρ
  obtain ⟨inside, outside⟩ := truth ρ
  rw [proper.holds_iff] at inside outside
  have true : s.IsTrue ρ → yes.Holds other ρ := fun inner => (holds other ρ).mpr (inside inner)
  have false : ¬ s.IsTrue ρ → no.Holds other ρ := by
    intro fails
    obtain ⟨i, member, holds⟩ := outside fails
    exact negatively.mpr ⟨i, member, ((normal i member).holds_negate_iff ρ).mp holds⟩
  refine ⟨true, false, (em (s.IsTrue ρ)).imp true false, ?_⟩
  rw [positively, negatively]
  refine and_congr_right fun nonnegative => exists_congr fun i => and_congr_right fun member => ?_
  exact ⟨fun least => le_antisymm least (nonnegative i member), le_of_eq⟩

theorem Guard.literals_cover_wedge : ∃ is negative positive, Space.read Space.wedge.text = .ok is ∧
    literals "p" Space.wedge.text = .ok [("!" ++ "p", negative), ("p", positive)] ∧
    ∃ no yes, Sexp.read negative = some [no] ∧ Sexp.read positive = some [yes] ∧ ∀ other ρ,
      (Space.wedge.IsTrue ρ → yes.Holds other ρ) ∧ (¬ Space.wedge.IsTrue ρ → no.Holds other ρ) ∧
      (yes.Holds other ρ ∨ no.Holds other ρ) ∧
      (yes.Holds other ρ ∧ no.Holds other ρ ↔ (∀ i ∈ is, 0 ≤ i.left.eval ρ) ∧ ∃ i ∈ is, i.left.eval ρ = 0) :=
  literals_cover Space.isProper_wedge "p"

end Supermartingale
