import Supermartingale.Proofs.Polynomial.RoundTrip
import Supermartingale.Proofs.Space.Coverage

/-!
# How spaces are read

A space gives one inequality for each of its comparisons, in their order and in normal form, and the
inequality is true where the comparison is, made non-strict.
-/

namespace Supermartingale

open List Equation String

/-! ## Operands -/

namespace Space

variable {cs : List Char} {k : Comparison} {word : String}

open MvPolynomial (X)

/-- A polynomial without decimals as it is written. Its blanks stand between words, so nothing else is read when
they are taken away. -/
structure IsOperand (cs : List Char) (tree : Expression) : Prop where
  chars : ∀ c ∈ cs, c ∈ operandChars
  read : Expression.read (ofList cs) = some tree
  spaced : Expression.read (ofList (unblanked cs)) = some tree
  polynomial : tree.isPolynomial
  exact : tree.isExact

/-- An operand, which may have decimals, can be read. -/
def IsReadable (cs : List Char) : Prop := ∃ e, ofText (ofList (unblanked cs)) = .ok e ∧ e.IsNumeric

/-- An operand is refused with an error of a given kind. -/
def IsRefused (P : Error → Prop) (cs : List Char) : Prop :=
  ∃ e, ofText (ofList (unblanked cs)) = .error e ∧ P e

/-- The value of an operand as it is read. -/
noncomputable def readAt (ρ : String → ℝ) (cs : List Char) : ℝ :=
  match ofText (ofList (unblanked cs)) with
  | .ok e => e.eval ρ
  | .error _ => 0

theorem readAt_eq {e : Equation} (made : ofText (ofList (unblanked cs)) = .ok e)
    (ρ : String → ℝ) : readAt ρ cs = e.eval ρ := by
  rw [readAt, made]

namespace IsOperand

variable {cs : List Char} {tree : Expression} (operand : IsOperand cs tree)
include operand

theorem readAt_of_isShort (short : IsShort (tree.eval X)) : IsReadable cs ∧ ∀ ρ, readAt ρ cs = tree.eval ρ := by
  obtain ⟨x, canonical, value, made⟩ := Expression.ofText_eq operand.spaced operand.polynomial operand.exact
  rw [← value, canonical.isShort_iff] at short
  rw [if_pos short] at made
  refine ⟨⟨_, made, isNumeric_ofExpansion short⟩, fun ρ => ?_⟩
  rw [readAt_eq made, ← value, eval_ofExpansion ρ canonical]

theorem ofText_of_not_isShort (long : ¬ IsShort (tree.eval X)) :
    ofText (ofList (unblanked cs)) = .error .numeralTooLong := by
  obtain ⟨x, canonical, value, made⟩ := Expression.ofText_eq operand.spaced operand.polynomial operand.exact
  rw [← value, canonical.isShort_iff] at long
  rwa [if_neg long] at made

theorem isReadable_iff : IsReadable cs ↔ IsShort (tree.eval X) := by
  refine ⟨fun ⟨e, made, _⟩ => ?_, fun short => (operand.readAt_of_isShort short).1⟩
  by_contra long
  rw [operand.ofText_of_not_isShort long] at made
  cases made

theorem cases : IsReadable cs ∨ IsRefused (· = .numeralTooLong) cs := by
  by_cases short : IsShort (tree.eval X)
  · exact .inl (operand.readAt_of_isShort short).1
  · exact .inr ⟨_, operand.ofText_of_not_isShort short, rfl⟩

end IsOperand

/-! ## Comparisons -/

/-- The truth of a comparison that is made non-strict. -/
def Comparison.RelaxedAt (ρ : String → ℝ) (k : Comparison) : Prop :=
  k.relation.relax.Compares (readAt ρ k.left) (readAt ρ k.right)

/-- An inequality that says what a comparison does, in normal form. -/
def Comparison.IsReadAs (k : Comparison) (i : Inequality) : Prop := i.IsNormal ∧ ∀ ρ, i.Holds ρ ↔ k.RelaxedAt ρ

theorem exists_mem_chain {a cs : List Char} {rest : List (Relation × List Char)} (nonempty : rest ≠ [])
    (mem : cs ∈ a :: rest.map Prod.snd) : ∃ k ∈ chain a rest, cs = k.left ∨ cs = k.right := by
  induction rest generalizing a with
  | nil => exact absurd rfl nonempty
  | cons x rest ih =>
    rcases mem_cons.mp mem with rfl | later
    · exact ⟨_, mem_cons_self, .inl rfl⟩
    · rcases mem_cons.mp later with rfl | inside
      · exact ⟨_, mem_cons_self, .inr rfl⟩
      · have more : rest ≠ [] := by
          rintro rfl
          cases inside
        obtain ⟨k, found, side⟩ := ih more (mem_cons_of_mem _ inside)
        exact ⟨k, mem_cons_of_mem _ found, side⟩

theorem Comparison.exists_inequality (known : k.relation ∈ signs) (left : IsReadable k.left)
    (right : IsReadable k.right) : ∃ i, k.inequality = .ok i ∧ k.IsReadAs i := by
  obtain ⟨l, madel, numericl⟩ := left
  obtain ⟨r, mader, numericr⟩ := right
  have relaxed : ∀ r ∈ signs, (r.relax = .le ∨ r.relax = .ge) ∧ r.relax.relax = r.relax := by decide
  obtain ⟨direction, twice⟩ := relaxed _ known
  refine ⟨_, bind_eq_ok.mpr ⟨l, madel, bind_eq_ok.mpr ⟨r, mader, rfl⟩⟩,
    Inequality.isNormal_make direction numericl numericr, fun ρ => ?_⟩
  rw [Inequality.holds_make _ ρ numericl numericr, twice, RelaxedAt, readAt_eq madel, readAt_eq mader]

/-- Whether a comparison can be read depends on its operands only. -/
theorem Comparison.inequality_cases {P : Error → Prop}
    (left : IsReadable k.left ∨ IsRefused P k.left) (right : IsReadable k.right ∨ IsRefused P k.right) :
    ((∃ i, k.inequality = .ok i) ∨ ∃ e, k.inequality = .error e ∧ P e) ∧
      (¬ IsReadable k.left ∨ ¬ IsReadable k.right → ∃ e, k.inequality = .error e) := by
  unfold inequality compareTexts
  rcases left with ⟨l, madel, numericl⟩ | ⟨e, failed, holds⟩
  · rcases right with ⟨r, mader, numericr⟩ | ⟨e, failed, holds⟩
    · refine ⟨.inl ⟨_, by rw [madel, mader]; rfl⟩, ?_⟩
      rintro (unread | unread)
      · exact absurd ⟨l, madel, numericl⟩ unread
      · exact absurd ⟨r, mader, numericr⟩ unread
    · exact ⟨.inr ⟨e, by rw [madel, failed]; rfl, holds⟩, fun _ => ⟨e, by rw [madel, failed]; rfl⟩⟩
  · exact ⟨.inr ⟨e, by rw [failed]; rfl, holds⟩, fun _ => ⟨e, by rw [failed]; rfl⟩⟩

/-! ## Spaces -/

theorem Chunk.IsPlain.readChunk_refused {c : Chunk} (plain : c.IsPlain) (uncounted : ¬ c.IsCounted) :
    ∃ e, readChunk (ofList c.chars) = .error e ∧ e.kind = .value := by
  have cut := plain.cutWritten
  unfold readChunk
  simp only [toList_relaxSigns, cutSigns_relaxChars, cut]
  obtain ⟨first, rest⟩ := c
  match rest, uncounted with
  | [], _ => exact ⟨_, rfl, rfl⟩
  | [_], uncounted => exact absurd (.inl rfl) uncounted
  | [_, _], uncounted => exact absurd (.inr rfl) uncounted
  | _ :: _ :: _ :: _, _ => exact ⟨_, rfl, rfl⟩

namespace Conjunction

variable {s : Conjunction} (plain : s.IsPlain)
include plain

theorem IsPlain.exists_read (counted : s.IsCounted) (readable : ∀ cs ∈ s.operands, IsReadable cs) :
    ∃ is, Space.read s.text = .ok is ∧ Forall₂ Comparison.IsReadAs s.comparisons is := by
  have each : ∀ k ∈ s.comparisons, ∃ i, k.inequality = .ok i ∧ k.IsReadAs i := by
    intro k mem
    obtain ⟨c, inside, listed⟩ := mem_flatMap.mp mem
    obtain ⟨left, right, relation⟩ := mem_chain listed
    obtain ⟨x, found, same⟩ := mem_map.mp relation
    exact Comparison.exists_inequality (same ▸ ((plain.chunks c inside).rest x found).1)
      (readable _ (mem_flatMap.mpr ⟨c, inside, left⟩)) (readable _ (mem_flatMap.mpr ⟨c, inside, right⟩))
  obtain ⟨is, related⟩ := exists_forall₂ each
  refine ⟨is, ?_, related.imp fun _ _ known => known.2⟩
  rw [plain.read_eq counted]
  exact mapM_eq_ok.mpr (related.imp fun _ _ known => known.1)

theorem IsPlain.read_error {P : Error → Prop} (counted : s.IsCounted)
    (each : ∀ cs ∈ s.operands, IsReadable cs ∨ IsRefused P cs) (unread : ∃ cs ∈ s.operands, ¬ IsReadable cs) :
    ∃ e, Space.read s.text = .error e ∧ P e := by
  have compared {k : Comparison} {c : Chunk} (inside : c ∈ s.chunks) (listed : k ∈ chain c.first c.rest) :=
    have ⟨left, right, _⟩ := mem_chain listed
    Comparison.inequality_cases (each _ (mem_flatMap.mpr ⟨c, inside, left⟩))
      (each _ (mem_flatMap.mpr ⟨c, inside, right⟩))
  rw [plain.read_eq counted]
  refine exists_mapM_eq_error (fun k mem => ?_) ?_
  · obtain ⟨c, inside, listed⟩ := mem_flatMap.mp mem
    exact (compared inside listed).1
  -- every operand belongs to a comparison, since no chunk is without one
  · obtain ⟨cs, mem, failed⟩ := unread
    obtain ⟨c, inside, operand⟩ := mem_flatMap.mp mem
    have nonempty : c.rest ≠ [] := by
      intro none
      simpa [Chunk.IsCounted, none] using counted c inside
    obtain ⟨k, found, side⟩ := exists_mem_chain nonempty operand
    refine ⟨k, mem_flatMap.mpr ⟨c, inside, found⟩, (compared inside found).2 ?_⟩
    rcases side with rfl | rfl
    · exact .inl failed
    · exact .inr failed

/-- Only the chunks with one or two comparisons have their operands read. -/
theorem IsPlain.read_uncounted (uncounted : ¬ s.IsCounted)
    (each : ∀ c ∈ s.chunks, c.IsCounted → ∀ cs ∈ c.operands, IsReadable cs ∨ IsRefused (·.kind = .value) cs) :
    ∃ e, Space.read s.text = .error e ∧ e.kind = .value := by
  -- the first chunk that fails decides on the error, and this need not be the one that is counted wrong
  have parts : ∃ e, (s.chunks.mapM fun c => readChunk (ofList c.chars)) = .error e ∧ e.kind = .value := by
    refine exists_mapM_eq_error (fun c inside => ?_) ?_
    · by_cases counted : c.IsCounted
      · rw [(plain.chunks c inside).readChunk_eq counted]
        refine mapM_cases fun k listed => ?_
        obtain ⟨left, right, _⟩ := mem_chain listed
        exact (Comparison.inequality_cases (each c inside counted _ left) (each c inside counted _ right)).1
      · exact .inr ((plain.chunks c inside).readChunk_refused counted)
    · simp only [IsCounted, not_forall] at uncounted
      obtain ⟨c, inside, count⟩ := uncounted
      obtain ⟨e, failed, _⟩ := (plain.chunks c inside).readChunk_refused count
      exact ⟨c, inside, e, failed⟩
  obtain ⟨e, failed, kind⟩ := parts
  exact ⟨e, by rw [plain.read_text, failed]; rfl, kind⟩

end Conjunction

/-! ## Bounds on both sides -/

def Conjunction.between (a e b : List Char) : Conjunction := ⟨⟨a, [(.le, e), (.le, b)]⟩, []⟩

def Conjunction.bounds (word : String) (a e b : List Char) : Conjunction := ⟨⟨e, [(.ge, a)]⟩, [(word, ⟨e, [(.le, b)]⟩)]⟩

theorem Comparison.inequality_swap (a e : List Char) (i : Inequality) :
    Comparison.inequality ⟨a, .le, e⟩ = .ok i ↔ Comparison.inequality ⟨e, .ge, a⟩ = .ok i := by
  -- the sides are read in the other order, which only matters for the error if both are refused
  simp only [inequality, compareTexts, bind_eq_ok]
  constructor
  · rintro ⟨l, madel, r, mader, made⟩
    exact ⟨r, mader, l, madel, made⟩
  · rintro ⟨l, madel, r, mader, made⟩
    exact ⟨r, mader, l, madel, made⟩

theorem read_between_iff {a e b : List Char} (joins : word ∈ joiners)
    (chars : ∀ cs ∈ [a, e, b], ∀ d ∈ cs, d ∈ operandChars) (is : List Inequality) :
    read (Conjunction.between a e b).text = .ok is ↔ read (Conjunction.bounds word a e b).text = .ok is := by
  simp only [forall_mem_cons, not_mem_nil, false_imp_iff, implies_true, and_true] at chars
  obtain ⟨first, middle, last⟩ := chars
  have between : (Conjunction.between a e b).IsPlain := by
    have chunk : Chunk.IsPlain ⟨a, [(.le, e), (.le, b)]⟩ := ⟨first, by simpa [signs] using ⟨middle, last⟩⟩
    exact ⟨by simp [Conjunction.between], by simpa [Conjunction.between, Conjunction.chunks] using chunk⟩
  have bounds : (Conjunction.bounds word a e b).IsPlain := by
    have lower : Chunk.IsPlain ⟨e, [(.ge, a)]⟩ := ⟨middle, by simpa [signs] using first⟩
    have upper : Chunk.IsPlain ⟨e, [(.le, b)]⟩ := ⟨middle, by simpa [signs] using last⟩
    exact ⟨by simpa [Conjunction.bounds] using joins, by
      simpa [Conjunction.bounds, Conjunction.chunks] using ⟨lower, upper⟩⟩
  rw [between.read_eq (by simp [Conjunction.IsCounted, Conjunction.between, Conjunction.chunks, Chunk.IsCounted]),
    bounds.read_eq (by simp [Conjunction.IsCounted, Conjunction.bounds, Conjunction.chunks, Chunk.IsCounted]),
    mapM_eq_ok, mapM_eq_ok]
  simp only [Conjunction.comparisons, Conjunction.between, Conjunction.bounds, Conjunction.chunks, map_nil,
    map_cons, flatMap_cons, flatMap_nil, chain, append_nil, cons_append, nil_append,
    forall₂_cons_left_iff, Comparison.inequality_swap a e]

theorem read_refused (listed : word ∈ refused) (before after : String) :
    ∃ e, read (before ++ word ++ after) = .error e ∧ e.kind = .value := by
  have found : (refused.find? fun word' => Text.contains word' (before ++ word ++ after)).isSome := by
    refine List.find?_isSome.mpr ⟨word, listed, ?_⟩
    simpa [Text.contains] using Text.occursIn_append word.toList before.toList after.toList
  obtain ⟨word', first⟩ := Option.isSome_iff_exists.mp found
  exact ⟨_, by rw [read, first], rfl⟩

/-! ## The reading of a space -/

/-- What a space is read as. Its operands may have decimals, which count for the values that they are read as. -/
theorem reads_comparisons {s : Conjunction} (plain : s.IsPlain) :
    (s.IsCounted → (∀ cs ∈ s.operands, IsReadable cs) →
      ∃ is, read s.text = .ok is ∧ Forall₂ Comparison.IsReadAs s.comparisons is ∧
        ∀ ρ, (∀ i ∈ is, i.Holds ρ) ↔ ∀ k ∈ s.comparisons, k.RelaxedAt ρ) ∧
    (s.IsCounted → (∀ cs ∈ s.operands, ∃ tree, IsOperand cs tree) → (∃ cs ∈ s.operands, ¬ IsReadable cs) →
      read s.text = .error .numeralTooLong) ∧
    (¬ s.IsCounted →
      (∀ c ∈ s.chunks, c.IsCounted → ∀ cs ∈ c.operands, IsReadable cs ∨ ∃ tree, IsOperand cs tree) →
      ∃ e, read s.text = .error e ∧ e.kind = .value) ∧
    (∀ cs tree, IsOperand cs tree →
      (IsReadable cs ↔ IsShort (tree.eval X)) ∧ (IsReadable cs → ∀ ρ, readAt ρ cs = tree.eval ρ)) ∧
    (∀ word ∈ joiners, ∀ a e b : List Char, (∀ cs ∈ [a, e, b], ∀ d ∈ cs, d ∈ operandChars) → ∀ is,
      read (Conjunction.between a e b).text = .ok is ↔ read (Conjunction.bounds word a e b).text = .ok is) ∧
    ∀ word ∈ refused, ∀ before after, ∃ e, read (before ++ word ++ after) = .error e ∧ e.kind = .value := by
  have cases {cs : List Char} (operand : ∃ tree, IsOperand cs tree) :
      IsReadable cs ∨ IsRefused (· = .numeralTooLong) cs := by
    obtain ⟨tree, operand⟩ := operand
    exact operand.cases
  refine ⟨fun counted readable => ?_, fun counted operands unread => ?_, fun uncounted each => ?_, ?_,
    fun word joins a e b chars is => read_between_iff joins chars is, fun word listed => read_refused listed⟩
  · obtain ⟨is, made, related⟩ := plain.exists_read counted readable
    refine ⟨is, made, related, fun ρ => ⟨fun holds k member => ?_, fun relaxed i member => ?_⟩⟩
    · obtain ⟨i, inside, _, truth⟩ := exists_of_mem_left related member
      exact (truth ρ).mp (holds i inside)
    · obtain ⟨k, inside, _, truth⟩ := exists_of_mem_right related member
      exact (truth ρ).mpr (relaxed k inside)
  · obtain ⟨e, failed, rfl⟩ := plain.read_error counted (fun cs member => cases (operands cs member)) unread
    exact failed
  · refine plain.read_uncounted uncounted fun c inside counted cs member => ?_
    rcases each c inside counted cs member with readable | operand
    · exact .inl readable
    · exact (cases operand).imp_right fun ⟨e, failed, long⟩ => ⟨e, failed, long ▸ rfl⟩
  · exact fun cs tree operand => ⟨operand.isReadable_iff, fun readable =>
      (operand.readAt_of_isShort (operand.isReadable_iff.mp readable)).2⟩

def isReadable (names : List String) (cs : List Char) : Bool :=
  match ofText (ofList (unblanked cs)) with
  | .ok e => e.isOver names
  | .error _ => false

theorem isReadable_sound {names : List String} (checked : isReadable names cs) : IsReadable cs := by
  unfold isReadable at checked
  split at checked
  · exact ⟨_, ‹_›, isNumeric_of_isOver checked⟩
  · cases checked

/-- `S1 - A1 > 0.5 & -1 <= S1 * D1**2 < (S1 + 1)**2 and S1/3>=-2`. -/
def band : Conjunction where
  first := ⟨"S1 - A1 ".toList, [(.gt, " 0.5 ".toList)]⟩
  rest := [("&", ⟨" -1 ".toList, [(.le, " S1 * D1**2 ".toList), (.lt, " (S1 + 1)**2 ".toList)]⟩),
    ("and", ⟨" S1/3".toList, [(.ge, "-2".toList)]⟩)]

theorem reads_comparisons_band : band.IsPlain ∧ band.IsCounted ∧ (∀ cs ∈ band.operands, IsReadable cs) ∧
    ∃ is, read "S1 - A1 > 0.5 & -1 <= S1 * D1**2 < (S1 + 1)**2 and S1/3>=-2" = .ok is ∧
      Forall₂ Comparison.IsReadAs band.comparisons is := by
  have plain : band.IsPlain := by
    have chunks : ∀ c ∈ band.chunks, (∀ d ∈ c.first, d ∈ operandChars) ∧
        ∀ x ∈ c.rest, x.1 ∈ signs ∧ ∀ d ∈ x.2, d ∈ operandChars := by decide
    exact ⟨by decide, fun c member => ⟨(chunks c member).1, (chunks c member).2⟩⟩
  have counted : band.IsCounted := by unfold Conjunction.IsCounted Chunk.IsCounted; decide
  have readable : ∀ cs ∈ band.operands, IsReadable cs := by
    have checked : ∀ cs ∈ band.operands, isReadable ["S1", "A1", "D1"] cs := by decide +kernel
    exact fun cs member => isReadable_sound (checked cs member)
  obtain ⟨is, made, related, _⟩ := (reads_comparisons plain).1 counted readable
  have text : band.text = "S1 - A1 > 0.5 & -1 <= S1 * D1**2 < (S1 + 1)**2 and S1/3>=-2" := by decide +kernel
  exact ⟨plain, counted, readable, is, text ▸ made, related⟩

/-- The power `10**4300` has a digit more than numbers are written with. -/
theorem not_isShort_power : ¬ IsShort ((Expression.pow (.whole 10) (.whole digitLimit)).eval X) := by
  intro short
  -- the digits of the bound are never looked at
  obtain ⟨bound, eq⟩ : ∃ bound : ℕ, 10 ^ digitLimit = bound := ⟨_, rfl⟩
  have positive : 0 < bound := eq ▸ Nat.pow_pos (by norm_num)
  have value : (Expression.pow (.whole 10) (.whole digitLimit)).eval X = MvPolynomial.C (σ := String) (bound : ℚ) := by
    rw [← eq, Nat.cast_pow, MvPolynomial.C_pow]
    rfl
  have nonzero : 0 ∈ (MvPolynomial.C (σ := String) (bound : ℚ)).support := by
    rw [MvPolynomial.mem_support_iff, MvPolynomial.coeff_zero_C, Nat.cast_ne_zero]
    omega
  rw [value] at short
  have fits := (short 0 nonzero).2.1
  rw [MvPolynomial.coeff_zero_C, Rat.num_natCast, Int.natAbs_natCast, isWritable_iff, eq] at fits
  exact lt_irrefl _ fits

def longBound : Conjunction := ⟨⟨"S1 ".toList, [(.ge, " 10**4300".toList)]⟩, []⟩

/-- A bound of more digits than numbers are written with is refused, though it takes a few characters to
write. -/
theorem read_long_bound :
    IsOperand "S1 ".toList (.name "S1") ∧ IsOperand " 10**4300".toList (.pow (.whole 10) (.whole digitLimit)) ∧
      read "S1 >= 10**4300" = .error .numeralTooLong := by
  have name : IsOperand "S1 ".toList (.name "S1") :=
    ⟨by decide, by decide +kernel, by decide +kernel, by decide +kernel, rfl⟩
  have power : IsOperand " 10**4300".toList (.pow (.whole 10) (.whole digitLimit)) :=
    ⟨by decide, by decide +kernel, by decide +kernel, by decide +kernel, rfl⟩
  refine ⟨name, power, ?_⟩
  have plain : longBound.IsPlain := by
    have chunk : longBound.first.IsPlain := ⟨name.chars, by simpa [longBound, signs] using power.chars⟩
    exact ⟨by simp [longBound], by simpa [longBound, Conjunction.chunks] using chunk⟩
  have counted : longBound.IsCounted := by
    simp [longBound, Conjunction.IsCounted, Conjunction.chunks, Chunk.IsCounted]
  have sides : longBound.operands = ["S1 ".toList, " 10**4300".toList] := rfl
  have unread : ¬ IsReadable " 10**4300".toList := power.isReadable_iff.not.mpr not_isShort_power
  obtain ⟨e, failed, rfl⟩ := plain.read_error counted (P := (· = .numeralTooLong))
    (by simpa [sides] using ⟨name.cases, power.cases⟩) ⟨_, by simp [sides], unread⟩
  have text : longBound.text = "S1 >= 10**4300" := by decide +kernel
  exact text ▸ failed

end Space

end Supermartingale
