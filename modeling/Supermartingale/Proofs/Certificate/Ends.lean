import Supermartingale.Proofs.Certificate.Meaning

/-!
# Bounds at the ends of the disturbance

The ends of the disturbance are put in as texts: the sign of a negative end stays in front of all of its powers. So
the bounds speak of two next states that need not be the ones at the ends, and of no others.
-/

namespace Supermartingale

open List Function Set

variable {text stem : String} {e : Equation}

/-! ## Next states -/

theorem Feedback.table_eq_nil (u : Feedback 0) : u.table = [] := by
  rw [table, eq_nil_of_length_eq_zero u.length]
  rfl

namespace Transform

noncomputable def next (f : Transform 0 1) (x w : ℝ) : ℝ := f.equation.eval fun s => if s = "D1" then w else x

/-- The next state when a number is put in for the disturbance, with its sign in front of all powers. -/
noncomputable def nextAtEnd (f : Transform 0 1) (x : ℝ) (q : ℚ) : ℝ :=
  f.equation.evalPowers fun s n => if s = "D1" then (signedPower q n : ℝ) else x ^ n

/-- The disturbance has no empty power. -/
def HasPowers (f : Transform 0 1) : Prop := ∀ m ∈ f.equation.monomials, ∀ v ∈ m.powers, v.1 = "D1" → v.2.exponent ≠ 0

theorem moved_weighted (f : Transform 0 1) (u : Feedback 0) (q : ℚ) (ρ : String → ℝ) :
    f.moved u (weighted "D1" (signedPower q) ρ) = f.nextAtEnd (ρ "S1") q := by
  refine f.written.evalPowers_congr fun s mem => ?_
  funext n
  rw [Feedback.acting, u.table_eq_nil]
  rcases f.names s mem with rfl | ⟨i, impossible, _⟩ | ⟨i, bound, rfl⟩
  · simp [weighted]
  · cases impossible
  · cases Nat.lt_one_iff.mp bound
    simp [weighted, show variableOf 'D' (0 + 1) = "D1" by decide]

end Transform

theorem Spells.filling_signed {q : ℚ} (spells : Spells text q) :
    Filling "D1" ([("D1", text)].map fun (k, v) => (k.toList, v.toList)) (signedPower q)
      (fun ds => digitsValue ds ≠ 0) := by
  obtain ⟨n, chars, rfl⟩ := spells
  have table := filling_single n
  rw [chars] at table
  refine table.congr (n.power_eq one_ne_zero) fun ds positive => ⟨trivial, n.power_eq positive⟩

/-- The texts that come from a text when the ends of the disturbance are put in are read exactly. -/
def Noise.EndsReadExactly (noise : Noise) (s : String) : Prop :=
  ∀ bounds filled, noise.bounds = .ok bounds →
    Text.replaceFirst (bounds.map fun (d, a, _) => (d, a)) s = .ok filled ∨
      Text.replaceFirst (bounds.map fun (d, _, b) => (d, b)) s = .ok filled →
    Supermartingale.ReadsExactly filled

theorem Transform.HasPowers.read_end {f : Transform 0 1} (regular : f.HasPowers) (u : Feedback 0)
    {q : ℚ} (spells : Spells text q) (inState : e.OverState)
    {condition : List Inequality} {filled : String} {read : Equation}
    (replaced : Text.replaceFirst [("D1", text)] (e.after ((f.piece condition).nextUnder u.table)) = .ok filled)
    (exactly : ReadsExactly filled) (made : Equation.ofText filled = .ok read) :
    read.Stands fun ρ => e.eval (update ρ "S1" (f.nextAtEnd (ρ "S1") q)) := by
  have inside : f.equation.AllPowers fun s ds => s = "D1" → digitsValue ds ≠ 0 := by
    intro m mem v power _ disturbance
    rw [digitsValue_toDigits]
    exact regular m mem v power disturbance
  obtain ⟨numeric, values⟩ := f.read_filled u spells.filling_signed (cons_ne_nil _ _) (by decide) inState
    inside replaced exactly made
  refine ⟨numeric, fun ρ => ?_⟩
  simp only [values, f.moved_weighted]

/-! ## General polynomials -/

def quadratic (c₀ c₁ c₂ : ℝ) : ℕ → ℝ
  | 0 => c₀
  | 1 => c₁
  | 2 => c₂
  | _ => 0

theorem sum_quadratic {d : ℕ} (c₀ c₁ c₂ : ℝ) (many : 2 ≤ d) (z : ℝ) :
    ∑ k ∈ Finset.range (d + 1), z ^ k * quadratic c₀ c₁ c₂ k = c₀ + c₁ * z + c₂ * z ^ 2 := by
  induction d, many using Nat.le_induction with
  | base =>
    simp only [Finset.sum_range_succ, Finset.range_zero, Finset.sum_empty, quadratic]
    ring
  | succ d many ih =>
    have beyond : quadratic c₀ c₁ c₂ (d + 1) = 0 := by
      obtain ⟨n, rfl⟩ := Nat.exists_eq_add_of_le many
      rw [add_comm 2 n]
      rfl
    rw [Finset.sum_range_succ, ih, beyond, mul_zero, add_zero]

/-- What bounds the fall from a level to the value of a general polynomial. -/
def FallsWithin (d : ℕ) (bound : ℝ) (coefficient : ℕ → ℝ) (level z : ℝ) : Prop :=
  0 ≤ level - ∑ k ∈ Finset.range (d + 1), z ^ k * coefficient k ∧
    level - ∑ k ∈ Finset.range (d + 1), z ^ k * coefficient k ≤ bound

section

variable {d : ℕ} {bound a b y : ℝ}

theorem fallsWithin_line (coefficient : ℕ → ℝ) (level z : ℝ) : FallsWithin 1 bound coefficient level z ↔
    0 ≤ level - (coefficient 0 + coefficient 1 * z) ∧ level - (coefficient 0 + coefficient 1 * z) ≤ bound := by
  rw [FallsWithin, Finset.sum_range_succ, Finset.sum_range_one, pow_zero, one_mul, pow_one, mul_comm z]

theorem mem_uIcc_of_fallsWithin (wide : 0 < bound) (within : ∀ (coefficient : ℕ → ℝ) (level : ℝ),
    FallsWithin 1 bound coefficient level a → FallsWithin 1 bound coefficient level b →
    FallsWithin 1 bound coefficient level y) : y ∈ uIcc a b := by
  simp only [fallsWithin_line] at within
  have line (slope : ℝ) := within (quadratic 0 slope 0) (slope * a)
  simp only [quadratic, zero_add, ← mul_sub] at line
  by_cases same : a = b
  · -- the line that rises towards the third place
    subst same
    have rise := (line (y - a) (by simp [wide.le]) (by simp [wide.le])).1
    have none : y - a = 0 := by nlinarith [sq_nonneg (y - a)]
    rw [uIcc_self, mem_singleton_iff]
    exact sub_eq_zero.mp none
  · -- the line that falls by the bound
    have distance : b - a ≠ 0 := sub_ne_zero.mpr (Ne.symm same)
    have reach : -bound / (b - a) * (a - b) = bound := by
      field_simp
      ring
    have fall := line (-bound / (b - a)) (by simp [wide.le]) (by rw [reach]; exact ⟨wide.le, le_rfl⟩)
    obtain ⟨t, place⟩ : ∃ t, y = a + t * (b - a) := ⟨(y - a) / (b - a), by field_simp; ring⟩
    have part : -bound / (b - a) * (a - y) = bound * t := by
      rw [place]
      field_simp
      ring
    rw [part] at fall
    have above : 0 ≤ t := nonneg_of_mul_nonneg_right fall.1 wide
    have below : t ≤ 1 := (mul_le_iff_le_one_right wide).mp fall.2
    rw [mem_uIcc, place]
    rcases le_total a b with order | order
    · exact .inl ⟨by nlinarith, by nlinarith⟩
    · exact .inr ⟨by nlinarith, by nlinarith⟩

theorem fallsWithin_iff (positive : 1 ≤ d) (wide : 0 < bound) :
    (∀ (coefficient : ℕ → ℝ) (level : ℝ), FallsWithin d bound coefficient level a →
      FallsWithin d bound coefficient level b → FallsWithin d bound coefficient level y) ↔
      (d = 1 ∧ y ∈ uIcc a b) ∨ y = a ∨ y = b := by
  constructor
  · intro within
    rcases positive.eq_or_lt with rfl | many
    · exact .inl ⟨rfl, mem_uIcc_of_fallsWithin wide within⟩
    · -- a multiple of the polynomial that is zero at both places
      let s := (y - a) * (y - b)
      have value (z : ℝ) : ∑ k ∈ Finset.range (d + 1), z ^ k * quadratic (s * (a * b)) (-s * (a + b)) s k =
          s * ((z - a) * (z - b)) := by
        rw [sum_quadratic _ _ _ many]
        ring
      have vanishes {z : ℝ} (root : (z - a) * (z - b) = 0) :
          FallsWithin d bound (quadratic (s * (a * b)) (-s * (a + b)) s) 0 z := by
        rw [FallsWithin, value, root]
        simp [wide.le]
      have rise := (within _ 0 (vanishes (by simp)) (vanishes (by simp))).1
      rw [value] at rise
      have none : s = 0 := by nlinarith [sq_nonneg s]
      exact .inr ((mul_eq_zero.mp none).imp sub_eq_zero.mp sub_eq_zero.mp)
  · rintro (⟨rfl, between⟩ | rfl | rfl) coefficient level first second
    · have affine (z : ℝ) : level - (coefficient 0 + coefficient 1 * z) =
          (level - coefficient 0) + -coefficient 1 * z := by ring
      rw [fallsWithin_line] at first second ⊢
      rcases le_total a b with order | order
      · rw [uIcc_of_le order] at between
        exact (line_between_iff affine order 0 bound).mpr ⟨⟨first.1, second.1⟩, first.2, second.2⟩ y
          between.1 between.2
      · rw [uIcc_of_ge order] at between
        exact (line_between_iff affine order 0 bound).mpr ⟨⟨second.1, first.1⟩, second.2, first.2⟩ y
          between.1 between.2
    · exact first
    · exact second

end

/-! ## Certificates -/

theorem Family.Templates.exists_value {family : Family} {d : ℕ}
    (templates : family.Templates stem d) (isStem : IsStem stem) {state : ℤ}
    (got : family.get (toString state) = .ok e) : ∃ i : ℕ, ∀ (ρ : String → ℝ) (x : ℝ),
      family.value state ρ x =
        ∑ k ∈ Finset.range (d + 1), x ^ k * ρ (powerConstant (stem ++ "_" ++ toString i) k) := by
  obtain ⟨i, made⟩ := templates _ e got
  refine ⟨i, fun ρ x => ?_⟩
  rw [Family.value_eq got, Powers.eval_template (isStem.indexed i) made]

/-- The constants of a template and the level of another one can have any values. -/
theorem exists_valuation (isStem : IsStem stem) (parameter : ∀ n k : ℕ,
      powerConstant (stem ++ "_" ++ toString n) k ≠ "Beta_safe") (d i j : ℕ) (x level : ℝ)
    (coefficient : ℕ → ℝ) : ∃ ρ : String → ℝ, ρ "S1" = x ∧
      (∀ k, ρ (powerConstant (stem ++ "_" ++ toString j) k) = coefficient k) ∧
      ∑ k ∈ Finset.range (d + 1), x ^ k * ρ (powerConstant (stem ++ "_" ++ toString i) k) - ρ "Beta_safe" =
        level := by
  have state (n k : ℕ) : powerConstant (stem ++ "_" ++ toString n) k ≠ "S1" :=
    (isStem.indexed n).powerConstant_ne k (by decide : 'S' ∈ letters) (by decide)
  let ρ₀ : String → ℝ := update
    (extend (powerConstant (stem ++ "_" ++ toString j)) coefficient 0) "S1" x
  let top := ∑ k ∈ Finset.range (d + 1), x ^ k * ρ₀ (powerConstant (stem ++ "_" ++ toString i) k)
  refine ⟨update ρ₀ "Beta_safe" (top - level), ?_, fun k => ?_, ?_⟩
  · simp [ρ₀]
  · rw [update_of_ne (parameter j k)]
    simp only [ρ₀]
    rw [update_of_ne (state j k), (powerConstant_injective _).extend_apply]
  · have same (k : ℕ) : update ρ₀ "Beta_safe" (top - level)
        (powerConstant (stem ++ "_" ++ toString i) k) = ρ₀ (powerConstant (stem ++ "_" ++ toString i) k) :=
      update_of_ne (parameter i k) ..
    simp only [same, update_self]
    exact sub_sub_cancel top level

namespace Certificate

/-- Templates of some degree, no actions, a transform over the state and the disturbance, which is between two
numbers, and exact arithmetic. -/
structure Disturbed (c : Certificate) (m : Model) (p : DecomposedPolicy) (piece : Piece) (f : Transform 0 1)
    (d : ℕ) (bound lower upper : ℚ) : Prop where
  sought : c.Sought d bound
  degree : 1 ≤ d
  wide : 0 < bound
  policy : p.Synthesised 0
  transform : piece = f.piece piece.condition
  powers : f.HasPowers
  noise : ∃ a b, m.noise.bounds = .ok [("D1", a, b)] ∧ Spells a lower ∧ Spells b upper
  exactly : ∀ state e, c.safe.family.get state = .ok e → m.noise.EndsReadExactly (e.after (piece.nextUnder []))

/-- The four bounds on a transition bound the fall of the safety template from a state for all disturbances, whatever
the constants are, exactly if the next states are between the two that the bounds speak of and the degree is one,
or they are those two. -/
def BoundsCoverIff (c : Certificate) (f : Transform 0 1) (d : ℕ) (bound lower upper : ℚ) (s : State) (t : Transition)
    (formula : Formula) : Prop :=
  ∃ expected four,
    formula = .joined expected (.ofInequalities four) (.known .conjunction) ∧ four.length = 4 ∧
    ∀ x : ℝ, (∀ ρ : String → ℝ, ρ "S1" = x → (∀ k ∈ four, k.Holds ρ) → ∀ w : ℝ, lower ≤ w → w ≤ upper →
        0 ≤ c.safe.family.value s.id ρ x - ρ "Beta_safe" - c.safe.family.value t.destination ρ (f.next x w) ∧
        c.safe.family.value s.id ρ x - ρ "Beta_safe" - c.safe.family.value t.destination ρ (f.next x w) ≤ bound) ↔
      ∀ w : ℝ, lower ≤ w → w ≤ upper →
        (d = 1 ∧ f.next x w ∈ uIcc (f.nextAtEnd x lower) (f.nextAtEnd x upper)) ∨
        f.next x w = f.nextAtEnd x lower ∨ f.next x w = f.nextAtEnd x upper

variable {c : Certificate} {m : Model} {p : DecomposedPolicy} {piece : Piece} {f : Transform 0 1} {d : ℕ}
  {bound lower upper : ℚ} {s : State} {t : Transition} {formula : Formula} {e : Equation} {state : String}

theorem Sought.overState (sought : c.Sought d bound) (got : c.safe.family.get state = .ok e) : e.OverState := by
  obtain ⟨writable, templates, _, _⟩ := sought.spec
  exact templates.overState isStem_certificate.1 (by rwa [Int.toNat_natCast]) got

section

variable (disturbed : c.Disturbed m p piece f d bound lower upper)
include disturbed

/-- What is read for a template at the next state with the ends of the disturbance put in. -/
theorem Disturbed.read_spec {target : Equation}
    (got : c.safe.family.get state = .ok target) (read : Equation) :
    (m.noise.atLower (target.after (piece.nextUnder [])) = .ok read →
      read.Stands fun ρ => target.eval (update ρ "S1" (f.nextAtEnd (ρ "S1") lower))) ∧
    (m.noise.atUpper (target.after (piece.nextUnder [])) = .ok read →
      read.Stands fun ρ => target.eval (update ρ "S1" (f.nextAtEnd (ρ "S1") upper))) := by
  obtain ⟨a, b, known, lowest, highest⟩ := disturbed.noise
  have inState := disturbed.sought.overState got
  have exactly := disturbed.exactly state target got
  rw [disturbed.transform, ← idle.table_eq_nil] at exactly ⊢
  constructor
  all_goals
    intro made
    obtain ⟨bounds, known', rest⟩ := bind_eq_ok.mp made
    obtain ⟨filled, replaced, parsed⟩ := bind_eq_ok.mp rest
    cases known.symm.trans known'
  · exact disturbed.powers.read_end idle lowest inState replaced (exactly _ _ known (.inl replaced)) parsed
  · exact disturbed.powers.read_end idle highest inState replaced (exactly _ _ known (.inr replaced)) parsed

/-- What the bounds on a transition say: the fall is bounded at two next states. -/
theorem Disturbed.exists_bounds
    (step : SafeStep c m p piece s t formula) : ∃ expected four,
      formula = .joined expected (.ofInequalities four) (.known .conjunction) ∧ four.length = 4 ∧
      ∃ i j : ℕ, (∀ (ρ : String → ℝ) (x : ℝ), c.safe.family.value s.id ρ x =
          ∑ k ∈ Finset.range (d + 1), x ^ k * ρ (powerConstant ("V_safe" ++ "_" ++ toString i) k)) ∧
        (∀ (ρ : String → ℝ) (x : ℝ), c.safe.family.value t.destination ρ x =
          ∑ k ∈ Finset.range (d + 1), x ^ k * ρ (powerConstant ("V_safe" ++ "_" ++ toString j) k)) ∧
        ∀ ρ : String → ℝ, (∀ k ∈ four, k.Holds ρ) ↔ ∀ q ∈ [lower, upper], FallsWithin d bound
          (fun k => ρ (powerConstant ("V_safe" ++ "_" ++ toString j) k))
          (c.safe.family.value s.id ρ (ρ "S1") - ρ "Beta_safe") (f.nextAtEnd (ρ "S1") q) := by
  obtain ⟨acts, source, destination, mean, least, greatest⟩ := step
  obtain ⟨u, feedback⟩ := disturbed.policy.exists_feedback s.isAccepting
  cases feedback.symm.trans acts
  rw [u.table_eq_nil] at least greatest
  obtain ⟨-, templates, -, parameters⟩ := disturbed.sought.spec
  have low := (disturbed.read_spec destination _).1 least
  have high := (disturbed.read_spec destination _).2 greatest
  have current := (disturbed.sought.overState source).written.isNumeric
  obtain ⟨i, before⟩ := templates.exists_value isStem_certificate.1 source
  obtain ⟨j, after⟩ := templates.exists_value isStem_certificate.1 destination
  refine ⟨_, _, rfl, rfl, i, j, before, after, fun ρ => ?_⟩
  rw [parameters.hold_fallBounds_iff current low.1 high.1, low.2, high.2, ← Family.value_self source]
  dsimp only
  rw [← Family.value_eq destination, ← Family.value_eq destination, after, after]
  simp only [forall_mem_cons, not_mem_nil, IsEmpty.forall_iff, implies_true, and_true, FallsWithin]
  exact and_and_and_comm

theorem Disturbed.bounded_iff (step : SafeStep c m p piece s t formula) :
    c.BoundsCoverIff f d bound lower upper s t formula := by
  obtain ⟨expected, four, same, length, i, j, before, after, bounds⟩ := disturbed.exists_bounds step
  have wide : (0 : ℝ) < bound := by exact_mod_cast disturbed.wide
  refine ⟨expected, four, same, length, fun x => ⟨fun bounded w above below => ?_, ?_⟩⟩
  · refine (fallsWithin_iff disturbed.degree wide).mp fun coefficient level first second => ?_
    -- the fall has this level and these coefficients for some values of the constants
    have parameter (n k : ℕ) : powerConstant ("V_safe" ++ "_" ++ toString n) k ≠ "Beta_safe" := by
      intro equal
      have heads := congrArg (fun s : String => s.toList.head?) equal
      simp [powerConstant] at heads
    obtain ⟨ρ, state, constants, start⟩ := exists_valuation isStem_certificate.1 parameter d i j x level coefficient
    rw [← before] at start
    have holds : ∀ k ∈ four, k.Holds ρ := by
      rw [bounds, state, start]
      simp only [constants, forall_mem_cons, not_mem_nil, IsEmpty.forall_iff, implies_true, and_true]
      exact ⟨first, second⟩
    have fall := bounded ρ state holds w above below
    simp only [start, after, constants] at fall
    exact fall
  · rintro conditions ρ rfl holds w above below
    have ends := (bounds ρ).mp holds
    rw [after]
    exact (fallsWithin_iff disturbed.degree wide).mpr (conditions w above below) _ _ (ends lower (by simp))
      (ends upper (by simp))

end

/-! ## A squared disturbance -/

/-- The state moves by the square of the disturbance. -/
def squaring : Transform 0 1 where
  equation := ⟨[⟨.exact 1, [("D1", .int 2)]⟩, ⟨.exact 1, [("S1", .int 1)]⟩]⟩
  written := isWritten_disturbed (by decide +kernel)
  names := by
    intro s mem
    rcases mem_pair.mp (show s ∈ ["D1", "S1"] from mem) with rfl | rfl
    · exact .inr (.inr ⟨0, one_pos, by decide⟩)
    · exact .inl rfl

theorem next_squaring (x w : ℝ) : squaring.next x w = w ^ 2 + x := by
  simp [Transform.next, squaring, Equation.eval, Monomial.eval, Monomial.powersValue, Scalar.written, Number.exponent]

theorem nextAtEnd_squaring (x : ℝ) (q : ℚ) : squaring.nextAtEnd x q = signedPower q 2 + x := by
  simp [Transform.nextAtEnd, squaring, Equation.evalPowers, Monomial.evalPowers, Scalar.written, Number.exponent]

def squared : Model :=
  { wandering with
    dynamics := ⟨.number (.int 1), [squaring.piece []]⟩
    noise := ⟨.number (.int 1), .uniform (.list [.number (.int (-2))]) (.list [.number (.int (-1))])⟩ }

def soleState : State := .make 0 [] [.make 0 [] ""] none none

def squareText : String := "(V_safe_0_1)+(((D1**2)+(S1))*V_safe_0_2)"

theorem square_texts : wander.toOption.any fun c => c.safe.family.equations.map (fun v =>
    (v.1, v.2.after ((squaring.piece []).nextUnder []))) = [("0", squareText)] := by
  decide +kernel

theorem exists_square : ∃ (c : Certificate) (e : Equation), wander = .ok c ∧
    c.safe.family.equations = [("0", e)] ∧ e.after ((squaring.piece []).nextUnder []) = squareText := by
  obtain ⟨c, made, texts⟩ := exists_of_any square_texts
  obtain ⟨⟨key, e⟩, alone, same⟩ := map_eq_singleton_iff.mp (of_decide_eq_true texts)
  obtain ⟨rfl, text⟩ := Prod.mk.inj same
  exact ⟨c, e, made, alone, text⟩

theorem spells_negative {ds : List Char} (h : SpellsWhole ds) :
    Spells (String.ofList ('-' :: ds)) (-(digitsValue ds : ℚ)) :=
  ⟨⟨true, .whole ds h, rfl, Nat.cast_nonneg _⟩, String.toList_ofList.symm, rfl⟩

theorem bounds_squared : squared.noise.bounds = .ok [("D1", "-2", "-1")] := by decide +kernel

theorem endsReadExactly_square : squared.noise.EndsReadExactly squareText := by
  intro bounds filled known replaced
  cases bounds_squared.symm.trans known
  have least : Text.replaceFirst [("D1", "-2")] squareText =
      .ok "(V_safe_0_1)+(((-2**2)+(S1))*V_safe_0_2)" := by decide +kernel
  have greatest : Text.replaceFirst [("D1", "-1")] squareText =
      .ok "(V_safe_0_1)+(((-1**2)+(S1))*V_safe_0_2)" := by decide +kernel
  rcases replaced with low | high
  · cases least.symm.trans low
    exact Supermartingale.readsExactly_sound (by decide +kernel)
  · cases greatest.symm.trans high
    exact Supermartingale.readsExactly_sound (by decide +kernel)

theorem disturbed_square {c : Certificate} (made : wander = .ok c) (alone : c.safe.family.equations = [("0", e)])
    (text : e.after ((squaring.piece []).nextUnder []) = squareText) :
    c.Disturbed squared unguided (squaring.piece []) squaring 1 1 (-2) (-1) := by
  exact {
    sought := wander_sought made
    degree := le_rfl
    wide := one_pos
    policy := synthesised_unguided
    transform := rfl
    powers := by
      intro m mem v power disturbance
      rcases mem_pair.mp mem with rfl | rfl
      · cases mem_singleton.mp power
        decide
      · cases mem_singleton.mp power
        decide
    noise := ⟨"-2", "-1", bounds_squared, spells_negative (spellsWhole_digit (by decide)),
      spells_negative (spellsWhole_digit (by decide))⟩
    exactly := by
      intro state e' got
      obtain ⟨key, mem⟩ := Family.exists_of_get got
      rw [alone] at mem
      cases mem_singleton.mp mem
      rw [text]
      exact endsReadExactly_square }

theorem exists_safeStep {c : Certificate} (alone : c.safe.family.equations = [("0", e)])
    (text : e.after ((squaring.piece []).nextUnder []) = squareText) :
    ∃ formula, SafeStep c squared unguided (squaring.piece []) soleState (.make 0 [] "") formula := by
  have got : c.safe.family.get "0" = .ok e := by
    simp [Family.get, alone]
  obtain ⟨expected, mean⟩ : ∃ expected, squared.noise.expect squareText = .ok expected :=
    exists_of_isOk (by decide +kernel)
  obtain ⟨low, least⟩ : ∃ low, squared.noise.atLower squareText = .ok low := exists_of_isOk (by decide +kernel)
  obtain ⟨high, greatest⟩ : ∃ high, squared.noise.atUpper squareText = .ok high := exists_of_isOk (by decide +kernel)
  rw [← text] at mean least greatest
  exact ⟨_, .intro rfl got got mean least greatest⟩

/-- All conditions on the transitions of a state have bounds that cover the disturbances exactly if the next states are
covered. -/
theorem Disturbed.bounds_cover_iff (disturbed : c.Disturbed m p piece f d bound lower upper)
    {formulas : List Formula} (made : c.safeSteps m p piece s = .ok formulas) :
    Forall₂ (c.BoundsCoverIff f d bound lower upper s) s.transitions formulas :=
  (safeSteps_spec made).imp fun _ _ step => disturbed.bounded_iff step

theorem squared_bounds_cover_iff : ∃ (c : Certificate) (formulas : List Formula),
    c.Disturbed squared unguided (squaring.piece []) squaring 1 1 (-2) (-1) ∧
    c.safeSteps squared unguided (squaring.piece []) soleState = .ok formulas ∧
    Forall₂ (c.BoundsCoverIff squaring 1 1 (-2) (-1) soleState) soleState.transitions formulas := by
  obtain ⟨c, e, made, alone, text⟩ := exists_square
  have disturbed := disturbed_square made alone text
  obtain ⟨formula, step⟩ := exists_safeStep alone text
  exact ⟨c, [formula], disturbed, step.safeSteps, disturbed.bounds_cover_iff step.safeSteps⟩

/-- The square of minus two is taken for minus four, so the fall is not bounded where the state moves up. -/
theorem not_bounded_squared : ∃ (c : Certificate) (expected : Operand) (four : List Inequality) (ρ : String → ℝ)
    (w : ℝ), c.Sought 1 1 ∧ c.safeSteps squared unguided (squaring.piece []) soleState =
      .ok [.joined expected (.ofInequalities four) (.known .conjunction)] ∧ four.length = 4 ∧
    (∀ k ∈ four, k.Holds ρ) ∧ -2 ≤ w ∧ w ≤ -1 ∧
    ¬ (0 ≤ c.safe.family.value 0 ρ (ρ "S1") - ρ "Beta_safe" - c.safe.family.value 0 ρ (squaring.next (ρ "S1") w) ∧
      c.safe.family.value 0 ρ (ρ "S1") - ρ "Beta_safe" -
        c.safe.family.value 0 ρ (squaring.next (ρ "S1") w) ≤ 1) := by
  obtain ⟨c, e, made, alone, text⟩ := exists_square
  have disturbed := disturbed_square made alone text
  obtain ⟨formula, step⟩ := exists_safeStep alone text
  obtain ⟨expected, four, rfl, length, bounded⟩ := disturbed.bounded_iff step
  -- from zero the state moves to four, but the bounds speak of minus four and minus one
  have outside : ¬ ∀ w : ℝ, ((-2 : ℚ) : ℝ) ≤ w → w ≤ ((-1 : ℚ) : ℝ) →
      (1 = 1 ∧ squaring.next 0 w ∈ uIcc (squaring.nextAtEnd 0 (-2)) (squaring.nextAtEnd 0 (-1))) ∨
      squaring.next 0 w = squaring.nextAtEnd 0 (-2) ∨ squaring.next 0 w = squaring.nextAtEnd 0 (-1) := by
    intro covered
    have place := covered (-2) (by norm_num) (by norm_num)
    simp only [next_squaring, nextAtEnd_squaring, signedPower, mem_uIcc] at place
    norm_num at place
  rw [← bounded 0] at outside
  simp only [not_forall] at outside
  obtain ⟨ρ, state, holds, w, above, below, fall⟩ := outside
  refine ⟨c, expected, four, ρ, w, disturbed.sought, step.safeSteps, length, holds, by simpa using above,
    by simpa using below, ?_⟩
  rw [state]
  simpa [soleState, State.make, Transition.make] using fall

end Certificate

end Supermartingale
