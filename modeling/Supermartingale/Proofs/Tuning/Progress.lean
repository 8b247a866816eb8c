import Mathlib.Algebra.Order.Floor.Ring
import Mathlib.Data.Nat.Prime.Basic
import Mathlib.Data.Rat.Floor
import Supermartingale.Proofs.Tuning.Search

/-!
# When a search makes progress

A search tests the value between two bounds, rounded to a place, and ends when the bounds are closer than a unit of
that place. Between two bounds one unit apart lies the even one of them. If the test sets the bound that it already
is, the next rounds are all the same, and in exact arithmetic this happens in every search.
-/

namespace Supermartingale

open Double

namespace Tuning

open SessionM (runIn runIn_bind_eq_ok)

/-! ## Rounds -/

/-- What a search computes with: the value between two others, and whether two values are close enough. -/
structure Arithmetic (α : Type) where
  middle : α → α → Except Error α
  isFine : α → α → Except Error Bool

structure Bounds (α : Type) where
  best : α
  upper : α

variable {α β : Type} {test : SessionM (Bool × Float)} {passes : Value → Bool} {s s' : Search} {j : Job}

def Bounds.move (passes : α → Bool) (b : Bounds α) (v : α) : Bounds α :=
  if passes v then { b with best := v } else { b with upper := v }

/-- The rounds of a search: the bounds before a test and the value that is tested. -/
def rounds (A : Arithmetic α) (passes : α → Bool) : ℕ → Bounds α → Except Error (List (Bounds α × α))
  | 0, _ => .ok []
  | n + 1, b => do
    let v ← A.middle b.best b.upper
    let next := b.move passes v
    if ← A.isFine next.best next.upper then return [(b, v)]
    return (b, v) :: (← rounds A passes n next)

def Job.arithmetic (j : Job) : Arithmetic Value where
  middle a b := do return .number (← Tuning.middle j.place a b)
  isFine a b := Tuning.isFine j { best := a, upper := b, input := .null }

/-- A test answers for the value of the parameter in the input that has been written. -/
def Answers (j : Job) (test : SessionM (Bool × Float)) (passes : Value → Bool) : Prop :=
  ∀ input v before after passed time runnable, j.parameter input = .ok v →
    before.files.entry? j.inputPath = some (.file (Json.writeBlock input) runnable) →
    runIn test before = (.ok (passed, time), after) → passed = passes v

theorem Answers.tries (answers : Answers j test passes) {t : Trial} (tries : Tries j test s t s') :
    t.passed = passes t.value ∧ Bounds.move passes ⟨s.best, s.upper⟩ t.value = ⟨s'.best, s'.upper⟩ := by
  obtain ⟨before, after, time, runnable, asked, written⟩ := tries.tested
  have passed := answers _ _ _ _ _ _ _ (parameter_setParameter j tries.input) written asked
  refine ⟨passed, ?_⟩
  rw [tries.best, tries.upper, Bounds.move, passed]
  split <;> rfl

theorem bisect_rounds (answers : Answers j test passes) {n : ℕ} {σ σ' : Session}
    (returned : runIn (bisect j test n s) σ = (.ok s', σ')) :
    ∃ rs, rounds j.arithmetic passes n ⟨s.best, s.upper⟩ = .ok rs ∧
      Searches j test s (rs.map fun r => ⟨r.2, passes r.2⟩) s' := by
  induction n generalizing s σ with
  | zero =>
    cases returned
    exact ⟨[], rfl, .nil _⟩
  | succ n ih =>
    obtain ⟨next, σ₁, tried, rest⟩ := runIn_bind_eq_ok.mp returned
    obtain ⟨⟨v, passed⟩, tries⟩ := attempt_tries tried
    obtain ⟨same, moved⟩ := answers.tries tries
    dsimp only at same moved
    subst same
    obtain ⟨fine, σ₂, decided, rest⟩ := runIn_bind_eq_ok.mp rest
    have decided : j.arithmetic.isFine next.best next.upper = .ok fine := (Prod.mk.inj decided).1
    obtain ⟨value, between, rfl⟩ := tries.middle
    have between : j.arithmetic.middle s.best s.upper = .ok (.number value) := bind_eq_ok.mpr ⟨_, between, rfl⟩
    simp only [rounds, between, moved, bind, Except.bind, decided]
    cases fine with
    | false =>
      obtain ⟨rs, made, searches⟩ := ih rest
      exact ⟨(_, .number value) :: rs, by rw [made]; rfl, .cons tries searches⟩
    | true =>
      obtain ⟨_, σ₃, _, rest⟩ := runIn_bind_eq_ok.mp rest
      cases rest
      exact ⟨[(_, .number value)], rfl, .cons tries (.nil _)⟩

/-! ## Exact decimals -/

/-- A number with so many places; a tie goes to the even neighbour. -/
def rounded (place : ℤ) (q : ℚ) : ℚ :=
  let magnitude := units place |q| * powTen (-place)
  if q < 0 then -magnitude else magnitude

/-- The arithmetic of a search without the errors of doubles. -/
def decimals (place : ℤ) : Arithmetic ℚ where
  middle a b := .ok (rounded place ((a + b) / 2))
  isFine a b := .ok (decide (b - a < powTen (-place)))

/-- The whole number between two others, the even one of two. -/
def evenMiddle (a b : ℤ) : ℤ := if (a + b) % 2 = 0 then (a + b) / 2 else (a + b) / 2 + (a + b) / 2 % 2

theorem evenMiddle_spec (a b : ℤ) : 2 * evenMiddle a b = a + b ∨
    evenMiddle a b % 2 = 0 ∧ (2 * evenMiddle a b = a + b + 1 ∨ 2 * evenMiddle a b = a + b - 1) := by
  unfold evenMiddle
  split <;> omega

theorem powTen_eq_zpow (k : ℤ) : powTen k = 10 ^ k := by
  cases k with
  | ofNat k => simp [powTen]
  | negSucc k => simp [powTen, zpow_negSucc]

theorem powTen_pos (k : ℤ) : 0 < powTen k := by
  rw [powTen_eq_zpow]
  exact zpow_pos (by norm_num) k

theorem powTen_mul_neg (k : ℤ) : powTen (-k) * powTen k = 1 := by
  rw [powTen_eq_zpow, powTen_eq_zpow, ← zpow_add₀ (by norm_num), neg_add_cancel, zpow_zero]

theorem roundDiv_half (n : ℕ) :
    (roundDiv .toEven ((n : ℚ) / 2).num.natAbs ((n : ℚ) / 2).den : ℤ) = evenMiddle n 0 := by
  rcases Nat.even_or_odd' n with ⟨k, rfl | rfl⟩
  · have half : ((2 * k : ℕ) : ℚ) / 2 = k := by
      push_cast
      ring
    rw [half, Rat.num_natCast, Rat.den_natCast]
    simp [roundDiv, evenMiddle, Nat.mod_one]
  · have coprime : Nat.Coprime (2 * k + 1 : ℤ).natAbs (2 : ℤ).natAbs := by
      have odd : (2 * k + 1 : ℤ).natAbs = 2 * k + 1 := by omega
      rw [odd]
      exact Nat.coprime_two_right.mpr ⟨k, rfl⟩
    have num : (((2 * k + 1 : ℤ) : ℚ) / (2 : ℤ)).num = 2 * k + 1 := Rat.num_div_eq_of_coprime (by norm_num) coprime
    have den : ((((2 * k + 1 : ℤ) : ℚ) / (2 : ℤ)).den : ℤ) = 2 := Rat.den_div_eq_of_coprime (by norm_num) coprime
    have below : (2 * k + 1) / 2 = k := by omega
    have rest : (2 * k + 1) % 2 = 1 := by omega
    have rounded : roundDiv .toEven (2 * k + 1) 2 = k + k % 2 := by simp [roundDiv, below, rest]
    have value : evenMiddle (2 * k + 1 : ℕ) 0 = k + k % 2 := by
      unfold evenMiddle
      split <;> omega
    push_cast at num den value ⊢
    rw [num, show ((2 * (k : ℚ) + 1) / 2).den = 2 by exact_mod_cast den,
      show (2 * k + 1 : ℤ).natAbs = 2 * k + 1 by omega, rounded, value]
    push_cast
    rfl

theorem rounded_middle (place a b : ℤ) :
    rounded place ((a * powTen (-place) + b * powTen (-place)) / 2) =
      evenMiddle a b * powTen (-place) := by
  have pos := powTen_pos (-place)
  have sum : (a * powTen (-place) + b * powTen (-place)) / 2 =
      ((a + b : ℤ) : ℚ) / 2 * powTen (-place) := by
    push_cast
    ring
  have scaled : |((a + b : ℤ) : ℚ) / 2 * powTen (-place)| * powTen place =
      ((a + b).natAbs : ℚ) / 2 := by
    rw [abs_mul, abs_of_pos pos, mul_assoc, powTen_mul_neg, mul_one, abs_div, Nat.cast_natAbs]
    simp
  have units : (units place |((a + b : ℤ) : ℚ) / 2 * powTen (-place)| : ℤ) =
      evenMiddle (a + b).natAbs 0 := by
    rw [units, scaled, roundDiv_half]
  have negative : ((a + b : ℤ) : ℚ) / 2 * powTen (-place) < 0 ↔ a + b < 0 := by
    rw [← not_le, ← not_le, mul_nonneg_iff_of_pos_right pos, le_div_iff₀ two_pos, zero_mul]
    exact_mod_cast Iff.rfl
  have value : evenMiddle a b = if a + b < 0 then -evenMiddle (a + b).natAbs 0 else evenMiddle (a + b).natAbs 0 := by
    unfold evenMiddle
    split <;> split <;> split <;> omega
  rw [rounded, sum]
  simp only [negative, value, ← units]
  split <;> simp

/-! ## Bounds that are counted in units -/

/-- The rounds of a search between multiples of a unit, counted in units. -/
def countedRounds (passes : ℤ → Bool) : ℕ → Bounds ℤ → List (Bounds ℤ × ℤ)
  | 0, _ => []
  | n + 1, b =>
    let v := evenMiddle b.best b.upper
    let next := b.move passes v
    (b, v) :: if next.upper ≤ next.best then [] else countedRounds passes n next

/-- A round leaves the bounds closer together than it finds them. -/
def Shrinks [Sub α] [LT α] (passes : α → Bool) (r : Bounds α × α) : Prop :=
  (r.1.move passes r.2).upper - (r.1.move passes r.2).best < r.1.upper - r.1.best

def inUnits (place : ℤ) (n : ℤ) : ℚ := n * powTen (-place)

def Bounds.inUnits (place : ℤ) (b : Bounds ℤ) : Bounds ℚ := ⟨Tuning.inUnits place b.best, Tuning.inUnits place b.upper⟩

theorem Bounds.move_inUnits (place : ℤ) (passes : ℚ → Bool) (b : Bounds ℤ) (v : ℤ) :
    (b.inUnits place).move passes (Tuning.inUnits place v) =
      (b.move (passes ∘ Tuning.inUnits place) v).inUnits place := by
  unfold move inUnits
  cases passed : passes (Tuning.inUnits place v) with
  | false => simp [passed]
  | true => simp [passed]

theorem inUnits_sub_lt (place a b c d : ℤ) :
    inUnits place b - inUnits place a < inUnits place d - inUnits place c ↔ b - a < d - c := by
  unfold inUnits
  rw [← sub_mul, ← sub_mul, mul_lt_mul_iff_left₀ (powTen_pos _)]
  exact_mod_cast Iff.rfl

theorem inUnits_le {place a b : ℤ} : inUnits place a ≤ inUnits place b ↔ a ≤ b := by
  unfold inUnits
  rw [mul_le_mul_iff_left₀ (powTen_pos _), Int.cast_le]

theorem shrinks_inUnits {place : ℤ} {passes : ℚ → Bool} {b : Bounds ℤ} {v : ℤ} :
    Shrinks passes (b.inUnits place, inUnits place v) ↔ Shrinks (passes ∘ inUnits place) (b, v) := by
  simp only [Shrinks, Bounds.move_inUnits]
  exact inUnits_sub_lt ..

theorem rounds_decimals (place : ℤ) (passes : ℚ → Bool) (n : ℕ) (b : Bounds ℤ) :
    rounds (decimals place) passes n (b.inUnits place) =
      .ok ((countedRounds (passes ∘ inUnits place) n b).map fun r => (r.1.inUnits place, inUnits place r.2)) := by
  induction n generalizing b with
  | zero => rfl
  | succ n ih =>
    have middle : (decimals place).middle (b.inUnits place).best (b.inUnits place).upper =
        .ok (inUnits place (evenMiddle b.best b.upper)) := congrArg _ (rounded_middle place b.best b.upper)
    have isFine (c : Bounds ℤ) : (decimals place).isFine (c.inUnits place).best (c.inUnits place).upper =
        .ok (decide (c.upper ≤ c.best)) := by
      have unit : powTen (-place) = inUnits place 1 - inUnits place 0 := by simp [inUnits]
      simp only [decimals, Bounds.inUnits, unit, inUnits_sub_lt]
      congr 2
      exact propext (by omega)
    simp only [rounds, middle, Bounds.move_inUnits, isFine, ih, countedRounds, bind, Except.bind, decide_eq_true_eq]
    split
    · rfl
    · rfl

/-! ## Progress -/

section

variable {passes : ℤ → Bool} {n : ℕ} {b : Bounds ℤ}

/-- A search settles on one of the bounds that it starts with, since all values pass or none does, and this
bound is the even one when there is nothing else between the bounds. -/
def Settles (passes : ℤ → Bool) (b : Bounds ℤ) : Prop :=
  passes b.best = false ∧ Even b.best ∨ passes b.upper = true ∧ Even b.upper

theorem move_of_passed {v : ℤ} (passed : passes v) : b.move passes v = ⟨v, b.upper⟩ := by simp [Bounds.move, passed]

theorem move_of_failed {v : ℤ} (failed : passes v = false) : b.move passes v = ⟨b.best, v⟩ := by
  simp [Bounds.move, failed]

theorem shrinks_iff {v : ℤ} :
    Shrinks passes (b, v) ↔ (passes v → b.best < v) ∧ (passes v = false → v < b.upper) := by
  cases passed : passes v with
  | false => simp [Shrinks, move_of_failed passed]
  | true => simp [Shrinks, move_of_passed passed]

theorem forall_mem_countedRounds_succ {P : Bounds ℤ × ℤ → Prop} :
    (∀ r ∈ countedRounds passes (n + 1) b, P r) ↔ P (b, evenMiddle b.best b.upper) ∧
      ((b.move passes (evenMiddle b.best b.upper)).best < (b.move passes (evenMiddle b.best b.upper)).upper →
        ∀ r ∈ countedRounds passes n (b.move passes (evenMiddle b.best b.upper)), P r) := by
  rw [countedRounds, List.forall_mem_cons]
  split
  · simp_all
  · simp_all

theorem shrinks_of_settles (falls : ∀ v w, v ≤ w → passes w → passes v) (order : b.best < b.upper)
    (settles : Settles passes b) : ∀ r ∈ countedRounds passes n b, Shrinks passes r := by
  induction n generalizing b with
  | zero => exact List.forall_mem_nil _
  | succ n ih =>
    have between := evenMiddle_spec b.best b.upper
    rw [forall_mem_countedRounds_succ, shrinks_iff]
    rcases settles with ⟨failed, even⟩ | ⟨passed, even⟩
    · have above : b.best ≤ evenMiddle b.best b.upper := by omega
      have later : passes (evenMiddle b.best b.upper) = false := by
        rw [← Bool.not_eq_true] at failed ⊢
        exact fun passed => failed (falls _ _ above passed)
      rw [move_of_failed later]
      refine ⟨⟨by simp [later], fun _ => ?_⟩, fun order => ih order (.inl ⟨failed, even⟩)⟩
      rw [Int.even_iff] at even
      omega
    · have sooner : passes (evenMiddle b.best b.upper) := falls _ _ (by omega) passed
      rw [move_of_passed sooner]
      refine ⟨⟨fun _ => ?_, by simp [sooner]⟩, fun order => ih order (.inr ⟨passed, even⟩)⟩
      rw [Int.even_iff] at even
      omega

/-- While the bounds come closer, a value that is tested later differs from the bound that it replaces now. -/
theorem between_of_shrinks (all : ∀ r ∈ countedRounds passes n b, Shrinks passes r) :
    ∀ r ∈ countedRounds passes n b, (passes r.2 → b.best < r.2) ∧ (passes r.2 = false → r.2 < b.upper) := by
  induction n generalizing b with
  | zero => exact List.forall_mem_nil _
  | succ n ih =>
    rw [forall_mem_countedRounds_succ, shrinks_iff] at all
    rw [forall_mem_countedRounds_succ]
    refine ⟨all.1, fun order r mem => ?_⟩
    have inside := ih (all.2 order) r mem
    cases passed : passes (evenMiddle b.best b.upper) with
    | false =>
      rw [move_of_failed passed] at inside
      exact ⟨inside.1, fun failed => (inside.2 failed).trans (all.1.2 passed)⟩
    | true =>
      rw [move_of_passed passed] at inside
      exact ⟨fun passes => (all.1.1 passed).trans (inside.1 passes), inside.2⟩

theorem nodup_of_shrinks (all : ∀ r ∈ countedRounds passes n b, Shrinks passes r) :
    ((countedRounds passes n b).map (·.2)).Nodup := by
  induction n generalizing b with
  | zero => exact List.nodup_nil
  | succ n ih =>
    rw [forall_mem_countedRounds_succ] at all
    rw [countedRounds, List.map_cons, List.nodup_cons]
    split
    · simp
    · rename_i open'
      have all := all.2 (Int.not_le.mp open')
      refine ⟨fun again => ?_, ih all⟩
      obtain ⟨r, mem, same⟩ := List.mem_map.mp again
      have inside := between_of_shrinks all r mem
      rw [same] at inside
      cases passed : passes (evenMiddle b.best b.upper) with
      | false => simp [move_of_failed passed, passed] at inside
      | true => simp [move_of_passed passed, passed] at inside

/-- Between two bounds that are one unit apart, a search that does not settle stands still. -/
theorem move_eq_of_not_settles (unsettled : ¬ Settles passes b) (near : b.upper = b.best + 1) :
    b.move passes (evenMiddle b.best b.upper) = b := by
  have between := evenMiddle_spec b.best b.upper
  unfold Settles at unsettled
  simp only [Int.even_iff] at unsettled
  cases passed : passes (evenMiddle b.best b.upper) with
  | false =>
    have other : evenMiddle b.best b.upper ≠ b.best := fun same => unsettled (.inl (same ▸ ⟨passed, by omega⟩))
    rw [move_of_failed passed, show evenMiddle b.best b.upper = b.upper by omega]
  | true =>
    have other : evenMiddle b.best b.upper ≠ b.upper := fun same => unsettled (.inr (same ▸ ⟨passed, by omega⟩))
    rw [move_of_passed passed, show evenMiddle b.best b.upper = b.best by omega]

theorem not_settles_move (unsettled : ¬ Settles passes b) (v : ℤ) : ¬ Settles passes (b.move passes v) := by
  cases passed : passes v with
  | false =>
    rw [move_of_failed passed]
    rintro (settles | ⟨again, _⟩)
    · exact unsettled (.inl settles)
    · simp [passed] at again
  | true =>
    rw [move_of_passed passed]
    rintro (⟨again, _⟩ | settles)
    · simp [passed] at again
    · exact unsettled (.inr settles)

theorem not_nodup_of_not_settles (order : b.best < b.upper) (unsettled : ¬ Settles passes b)
    (near : b.upper - b.best ≤ 2 ^ n) : ¬ ((countedRounds passes (n + 2) b).map (·.2)).Nodup := by
  -- The distance of the bounds is halved until it is one; from then on the same value is tested.
  induction n generalizing b with
  | zero =>
    have still := move_eq_of_not_settles unsettled (by omega)
    simp [countedRounds, still, order]
  | succ n ih =>
    by_cases adjacent : b.upper = b.best + 1
    · have still := move_eq_of_not_settles unsettled adjacent
      simp [countedRounds, still, order]
    · have between := evenMiddle_spec b.best b.upper
      have half : (b.move passes (evenMiddle b.best b.upper)).best <
            (b.move passes (evenMiddle b.best b.upper)).upper ∧
          (b.move passes (evenMiddle b.best b.upper)).upper -
            (b.move passes (evenMiddle b.best b.upper)).best ≤ 2 ^ n := by
        rw [pow_succ] at near
        cases passed : passes (evenMiddle b.best b.upper) with
        | false => rw [move_of_failed passed]; constructor <;> dsimp only <;> omega
        | true => rw [move_of_passed passed]; constructor <;> dsimp only <;> omega
      rw [countedRounds, if_neg (Int.not_le.mpr half.1), List.map_cons, List.nodup_cons]
      exact fun nodup => ih half.1 (not_settles_move unsettled _) half.2 nodup.2

end

/-- The values that a search tests are those of its rounds. With exact decimals in place of doubles, a search that
may take enough rounds brings its bounds closer in each of them, and never tests a value twice, exactly if no value
between them passes and the lower one is an even number of units, or all of them pass and the upper one is. -/
theorem progresses_iff_settles (j : Job) {n : ℕ} {a b : ℤ} (order : a < b) (near : b - a ≤ 2 ^ n) :
    (∀ {test : SessionM (Bool × Float)} {passes : Value → Bool} {s s' : Search} {σ σ' : Session},
      Answers j test passes → runIn (bisect j test (n + 2) s) σ = (.ok s', σ') →
      ∃ rs, rounds j.arithmetic passes (n + 2) ⟨s.best, s.upper⟩ = .ok rs ∧
        Searches j test s (rs.map fun r => ⟨r.2, passes r.2⟩) s') ∧
    ∀ passes : ℚ → Bool, (∀ v w, v ≤ w → passes w → passes v) →
      ∃ rs, rounds (decimals j.place) passes (n + 2) (Bounds.inUnits j.place ⟨a, b⟩) = .ok rs ∧
        ((∀ r ∈ rs, Shrinks passes r) ↔ Settles (passes ∘ inUnits j.place) ⟨a, b⟩) ∧
        ((rs.map (·.2)).Nodup ↔ Settles (passes ∘ inUnits j.place) ⟨a, b⟩) := by
  refine ⟨fun answers returned => bisect_rounds answers returned, fun passes falls => ?_⟩
  have shrinks : Settles (passes ∘ inUnits j.place) ⟨a, b⟩ →
      ∀ r ∈ countedRounds (passes ∘ inUnits j.place) (n + 2) ⟨a, b⟩, Shrinks (passes ∘ inUnits j.place) r :=
    shrinks_of_settles (fun v w le => falls _ _ (inUnits_le.mpr le)) order
  have settles (nodup : ((countedRounds (passes ∘ inUnits j.place) (n + 2) ⟨a, b⟩).map (·.2)).Nodup) :
      Settles (passes ∘ inUnits j.place) ⟨a, b⟩ := by
    by_contra unsettled
    exact not_nodup_of_not_settles order unsettled near nodup
  have injective : Function.Injective (inUnits j.place) := fun v w same =>
    Int.le_antisymm (inUnits_le.mp same.le) (inUnits_le.mp same.ge)
  refine ⟨_, rounds_decimals j.place passes (n + 2) ⟨a, b⟩, ?_, ?_⟩
  · simp only [List.forall_mem_map, shrinks_inUnits]
    exact ⟨fun all => settles (nodup_of_shrinks all), shrinks⟩
  · have values (rs : List (Bounds ℤ × ℤ)) :
        (rs.map fun r => (r.1.inUnits j.place, inUnits j.place r.2)).map (·.2) =
          (rs.map (·.2)).map (inUnits j.place) := by simp
    rw [values, List.nodup_map_iff injective]
    exact ⟨settles, fun settled => nodup_of_shrinks (shrinks settled)⟩

theorem forty_progresses_iff : let input : Value := .object [(.text "g", .object [(.text "p", .number (.int 40))])]
    let start : Search := { best := .int 40, upper := .int 60, input }
    (∃ s σ rs, runIn (bisect (tens 4) (pure (true, 0)) 4 start) fifty = (.ok s, σ) ∧
      rounds (tens 4).arithmetic (fun _ => true) 4 ⟨.int 40, .int 60⟩ = .ok rs) ∧
    ∃ rs, rounds (decimals (-1)) (fun v => decide (v ≤ 45)) 4 (Bounds.inUnits (-1) ⟨4, 6⟩) = .ok rs ∧
      ¬ (∀ r ∈ rs, Shrinks (fun v => decide (v ≤ 45)) r) ∧ ¬ (rs.map (·.2)).Nodup := by
  intro input start
  have given := progresses_iff_settles (tens 4) (by decide : (4 : ℤ) < 6) (by decide : (6 - 4 : ℤ) ≤ 2 ^ 2)
  have answers : Answers (tens 4) (pure (true, 0)) fun _ => true := by
    rintro _ _ _ _ _ _ _ _ _ ⟨⟩
    rfl
  have unsettled : ¬ Settles ((fun v : ℚ => decide (v ≤ 45)) ∘ inUnits (-1)) ⟨4, 6⟩ := by
    norm_num [Settles, inUnits, powTen]
  refine ⟨?_, ?_⟩
  · obtain ⟨s, returned⟩ : ∃ s, (runIn (bisect (tens 4) (pure (true, 0)) 4 start) fifty).1 = .ok s :=
      exists_of_isOk (by decide +kernel)
    obtain ⟨rs, made, _⟩ := given.1 answers (Prod.ext returned rfl)
    exact ⟨s, _, rs, Prod.ext returned rfl, made⟩
  · obtain ⟨rs, made, shrinks, nodup⟩ := given.2 (fun v => decide (v ≤ 45))
      fun v w le passed => by simpa using le.trans (by simpa using passed)
    exact ⟨rs, made, shrinks.not.mpr unsettled, nodup.not.mpr unsettled⟩

theorem tests_forty_thrice : ((rounds (tens 3).arithmetic (fun _ => true) 3 ⟨.int 40, .int 50⟩).toOption.map
    fun rs => rs.map (·.2.toText)) = some ["40.0", "40.0", "40.0"] := by
  decide +kernel

end Tuning

end Supermartingale
