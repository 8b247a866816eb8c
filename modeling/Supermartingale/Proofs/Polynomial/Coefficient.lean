import Mathlib.Tactic.FieldSimp
import Supermartingale.Proofs.Polynomial.Reading

/-!
# Coefficients are written as numerals

An integer is written with its digits, a rational as a quotient, an approximation as a decimal. Each text is a phrase
without names that spells the number which is written for the coefficient.
-/

namespace Supermartingale

open String Expression Phrase

/-! ## Whole numbers -/

theorem isWritable_iff {n : ℕ} : isWritable n ↔ n < 10 ^ digitLimit := by
  simp only [isWritable, decide_eq_true_eq, Nat.pow_eq]

theorem digitsValue_toDigits (n : ℕ) : digitsValue (Nat.toDigits 10 n) = n := Nat.ofDigitChars_ten_toDigits

theorem isDigit_toDigits (n : ℕ) : ∀ c ∈ Nat.toDigits 10 n, c.isDigit :=
  fun _ mem => Nat.isDigit_of_mem_toDigits (by decide) (by decide) mem

theorem head_toDigits (n : ℕ) (rest : List Char) (h : Nat.toDigits 10 n = '0' :: rest) : n = 0 := by
  induction n using Nat.strongRecOn generalizing rest with
  | ind n ih =>
    by_cases small : n < 10
    · rw [Nat.toDigits_of_lt_base small] at h
      simpa using (List.cons.inj h).1
    · rw [Nat.toDigits_of_base_le (by decide) (by omega)] at h
      obtain ⟨d, ds, first⟩ := List.exists_cons_of_ne_nil (Nat.toDigits_ne_nil (n := n / 10) (b := 10))
      rw [first, List.cons_append] at h
      have zero := ih (n / 10) (by omega) ds (by rw [first, (List.cons.inj h).1])
      omega

theorem spellsWhole_toDigits {n : ℕ} (writable : isWritable n) : SpellsWhole (Nat.toDigits 10 n) where
  nonempty := Nat.toDigits_ne_nil
  digits := isDigit_toDigits n
  plain := by
    unfold Token.spellsWhole
    split
    · rename_i rest zero
      have := head_toDigits n rest zero
      subst this
      cases zero
      rfl
    · rfl
  short := by
    rw [Nat.length_toDigits_le_iff (by decide) (by decide), ← isWritable_iff]
    exact writable

namespace Phrase

def ofNat (n : ℕ) (writable : isWritable n) : Phrase .factor :=
  unsigned (lone (whole (Nat.toDigits 10 n) (spellsWhole_toDigits writable)))

def ofInt (n : ℤ) (writable : isWritable n.natAbs) : Phrase .factor :=
  if n < 0 then neg (ofNat n.natAbs writable) else ofNat n.natAbs writable

section

variable (n : ℤ) (writable : isWritable n.natAbs)
include n writable

theorem chars_ofInt : (ofInt n writable).chars = (toString n).toList := by
  rw [ofInt, Int.toString_eq_repr, Int.repr_eq_if]
  by_cases negative : n < 0
  · rw [if_pos negative, if_neg (by omega), toList_append, Nat.toList_repr,
      show (-n).toNat = n.natAbs by omega]
    rfl
  · rw [if_neg negative, if_pos (by omega), Nat.toList_repr, show n.toNat = n.natAbs by omega]
    rfl

theorem number_ofInt : (ofInt n writable).tree.number = n := by
  rw [ofInt]
  split
  · rename_i negative
    simp only [tree, ofNat, number, digitsValue_toDigits]
    rw [← Int.cast_natCast, Int.ofNat_natAbs_of_nonpos (le_of_lt negative), Int.cast_neg, neg_neg]
  · rename_i nonnegative
    simp only [tree, ofNat, number, digitsValue_toDigits]
    rw [← Int.cast_natCast, Int.natAbs_of_nonneg (not_lt.mp nonnegative)]

theorem closed_ofInt : (ofInt n writable).names = [] := by
  unfold ofInt
  split <;> rfl

theorem isExact_ofInt : (ofInt n writable).isExact := by
  unfold ofInt
  split <;> rfl

end

end Phrase

/-! ## Approximations -/

theorem exponentText_negative {n : ℤ} (negative : n < 0) : ExponentText ('e' :: (toString n).toList) := by
  rw [Int.toString_eq_repr, Int.repr_eq_if, if_neg (by omega), toList_append, Nat.toList_repr]
  exact .signed (by decide) Nat.toDigits_ne_nil (isDigit_toDigits _)

theorem exponentText_positive {n : ℤ} (positive : ¬ n < 0) : ExponentText ('e' :: '+' :: (toString n).toList) := by
  rw [Int.toString_eq_repr, Int.repr_eq_if, if_pos (by omega), Nat.toList_repr]
  exact .signed (by decide) Nat.toDigits_ne_nil (isDigit_toDigits _)

theorem exists_body (ds : List Char) (digits : ∀ c ∈ ds, c.isDigit) (nonempty : ds ≠ []) (fixed : Bool) (exponent : ℤ) :
    ∃ w f, (if fixed && exponent < 0 then
        '0' :: '.' :: (List.replicate ((-exponent).toNat - 1) '0' ++ ds)
      else
        let split := if fixed then exponent.toNat + 1 else 1
        ds.take split ++ '.' :: ds.drop split) = w ++ '.' :: f ∧
      (∀ c ∈ w, c.isDigit) ∧ w ≠ [] ∧ ∀ c ∈ f, c.isDigit := by
  split
  · refine ⟨['0'], List.replicate ((-exponent).toNat - 1) '0' ++ ds, rfl, by decide, by simp, ?_⟩
    intro c mem
    rcases List.mem_append.mp mem with zero | digit
    · rw [List.eq_of_mem_replicate zero]
      rfl
    · exact digits c digit
  · refine ⟨_, _, rfl, fun c mem => digits c (List.mem_of_mem_take mem), ?_,
      fun c mem => digits c (List.mem_of_mem_drop mem)⟩
    rw [Ne, List.take_eq_nil_iff, not_or]
    exact ⟨by split <;> simp, nonempty⟩

theorem spellsDecimal_layout (count : ℕ) (d : Digits) :
    ∃ x, SpellsDecimal (Approx.layout false count d).toList x := by
  unfold Approx.layout
  extract_lets ds least fixed split body text
  obtain ⟨w, f, parts, integral, nonempty, fraction⟩ :=
    exists_body ds (isDigit_toDigits d.digits) Nat.toDigits_ne_nil fixed d.exponent
  have written : text.toList = w ++ '.' :: f := by
    rw [← parts]
    exact toList_ofList
  split
  · rw [written, ← List.append_nil f]
    exact ⟨_, spellsDecimal integral nonempty fraction .absent⟩
  · split
    · rename_i negative
      have same : (text ++ "e" ++ toString d.exponent).toList =
          w ++ '.' :: (f ++ 'e' :: (toString d.exponent).toList) := by
        rw [toList_append, toList_append, written]
        simp
      rw [same]
      exact ⟨_, spellsDecimal integral nonempty fraction (exponentText_negative negative)⟩
    · rename_i positive
      have same : (text ++ "e+" ++ toString d.exponent).toList =
          w ++ '.' :: (f ++ 'e' :: '+' :: (toString d.exponent).toList) := by
        rw [toList_append, toList_append, written]
        simp
      rw [same]
      exact ⟨_, spellsDecimal integral nonempty fraction (exponentText_positive positive)⟩

namespace Phrase

variable {cs : List Char} {x : Numeral}

def ofDecimal (negative : Bool) {cs : List Char} {x : Numeral} (h : SpellsDecimal cs x) : Phrase .factor :=
  if negative then neg (unsigned (lone (decimal cs x h))) else unsigned (lone (decimal cs x h))

theorem chars_ofDecimal (negative : Bool) (h : SpellsDecimal cs x) :
    (ofDecimal negative h).chars = (if negative then "-" else "").toList ++ cs := by
  cases negative <;> rfl

theorem number_ofDecimal (negative : Bool) (h : SpellsDecimal cs x) :
    (ofDecimal negative h).tree.number = if negative then -x.value else x.value := by
  cases negative <;> rfl

theorem closed_ofDecimal (negative : Bool) (h : SpellsDecimal cs x) : (ofDecimal negative h).names = [] := by
  cases negative <;> rfl

theorem spelled_factor {s : String} (f : Phrase .factor) (chars : f.chars = s.toList) :
    spelled s = f.tree.number := by
  have read := (plain (single f)).read_text
  rw [text, show (plain (single f)).chars = s.toList from chars, ofList_toList] at read
  rw [spelled, read]
  rfl

end Phrase

namespace Approx

variable {a : Approx}

theorem spellsDecimal_zero : SpellsDecimal ['0', '.', '0'] (.make ['0'] ['0'] (exponentOf []) true) :=
  spellsDecimal (w := ['0']) (f := ['0']) (by decide) (by simp) (by decide) .absent

theorem toList_text_of_zero (zero : a.value.num = 0) :
    a.text.toList = (if decide (a.value.num < 0) then "-" else "").toList ++ ['0', '.', '0'] := by
  rw [text, render, if_pos zero, zero]
  rfl

theorem toList_text_of_nonzero (nonzero : a.value.num ≠ 0) :
    a.text.toList = (if decide (a.value.num < 0) then "-" else "").toList ++
      (layout false (digitsOfBits a.precision) a.digits).toList := by
  rw [text, render, if_neg nonzero, toList_append]
  simp

theorem exists_decimal (a : Approx) :
    ∃ cs x, SpellsDecimal cs x ∧
      a.text.toList = (if decide (a.value.num < 0) then "-" else "").toList ++ cs := by
  by_cases zero : a.value.num = 0
  · exact ⟨_, _, spellsDecimal_zero, toList_text_of_zero zero⟩
  · obtain ⟨x, spelled⟩ := spellsDecimal_layout (digitsOfBits a.precision) a.digits
    exact ⟨_, x, spelled, toList_text_of_nonzero zero⟩

theorem spelled_text {cs : List Char} {x : Numeral} (h : SpellsDecimal cs x)
    (chars : a.text.toList = (if decide (a.value.num < 0) then "-" else "").toList ++ cs) :
    spelled a.text = if a.value.num < 0 then -x.value else x.value := by
  rw [spelled_factor (ofDecimal _ h) ((chars_ofDecimal _ h).trans chars.symm),
    number_ofDecimal]
  simp

theorem spelled_zero (zero : a.value.num = 0) : spelled a.text = 0 := by
  rw [spelled_text spellsDecimal_zero (toList_text_of_zero zero), zero]
  decide +kernel

theorem spelled_neg (a : Approx) : spelled a.neg.text = -spelled a.text := by
  by_cases zero : a.value.num = 0
  · rw [spelled_zero zero, spelled_zero (a := a.neg) (by simp [neg, zero]), neg_zero]
  · have same : a.neg.digits = a.digits := by simp [digits, neg]
    obtain ⟨x, h⟩ := spellsDecimal_layout (digitsOfBits a.precision) a.digits
    have flipped : a.neg.value.num = -a.value.num := by simp [neg]
    have chars := toList_text_of_nonzero (a := a.neg) (by omega)
    rw [same] at chars
    rw [spelled_text h (toList_text_of_nonzero zero), spelled_text h chars, flipped]
    rcases lt_or_gt_of_ne zero with negative | positive
    · rw [if_neg (by omega), if_pos negative, neg_neg]
    · rw [if_pos (by omega), if_neg (by omega)]

theorem toDigits_ten_pow (k : ℕ) : Nat.toDigits 10 (10 ^ k) = '1' :: List.replicate k '0' := by
  induction k with
  | zero => rfl
  | succ k ih =>
    have large : 10 ≤ 10 ^ (k + 1) := by
      rw [pow_succ]
      have := Nat.one_le_pow k 10 (by decide)
      omega
    rw [Nat.toDigits_of_base_le (by decide) large, pow_succ, Nat.mul_div_cancel _ (by decide), ih,
      Nat.mul_mod_left, List.cons_append, show Nat.digitChar 0 = '0' from rfl, List.replicate_succ']

theorem digitsOfBits_pos (bits : ℕ) : 1 ≤ digitsOfBits bits := by
  unfold digitsOfBits
  exact Nat.le_max_left _ _

theorem ofQuotient_one (k : ℕ) : Digits.ofQuotient .awayFromZero (k + 1) 1 1 = ⟨10 ^ k, 0⟩ := by
  have leading : leadingExponent 1 1 = 0 := by decide
  have scale : ((k + 1 : ℕ) : ℤ) - 1 - 0 = Int.ofNat k := by simp
  have different : (10 : ℕ) ^ k ≠ 10 ^ (k + 1) := by
    rw [pow_succ]
    have := Nat.one_le_pow k 10 (by decide)
    omega
  unfold Digits.ofQuotient
  simp only [leading, scale, scaleTen, one_mul]
  have rounded : roundDiv .awayFromZero (10 ^ k) 1 = 10 ^ k := by simp [roundDiv, Nat.mod_one]
  simp only [Nat.pow_eq, rounded, if_neg different]

theorem layout_one (k : ℕ) : (layout false (k + 1) ⟨10 ^ k, 0⟩).toList = '1' :: '.' :: List.replicate k '0' := by
  unfold layout
  simp [toDigits_ten_pow]

theorem value_one (k : ℕ) : (Numeral.make ['1'] (List.replicate k '0') (exponentOf []) true).value = 1 := by
  have digits : digitsValue (['1'] ++ List.replicate k '0') = 10 ^ k := by
    rw [← digitsValue_toDigits (10 ^ k), toDigits_ten_pow]
    rfl
  unfold Numeral.make Numeral.value
  simp only [digits, List.length_replicate, exponentOf]
  cases k with
  | zero => simp
  | succ k =>
    rw [show (0 : ℤ) - (k + 1 : ℕ) = Int.negSucc k by omega]
    simp

theorem spelled_one (one : a.value = 1) : spelled a.text = 1 := by
  obtain ⟨k, count⟩ : ∃ k, digitsOfBits a.precision = k + 1 := ⟨_, (Nat.sub_add_cancel (digitsOfBits_pos _)).symm⟩
  have digits : a.digits = ⟨10 ^ k, 0⟩ := by
    unfold Approx.digits
    rw [one, count]
    exact ofQuotient_one k
  have chars : a.text.toList = ['1'] ++ '.' :: (List.replicate k '0' ++ []) := by
    unfold text render
    rw [one, count, digits]
    simpa using layout_one k
  have zeros : ∀ c ∈ List.replicate k '0', c.isDigit := by
    intro c mem
    rw [List.eq_of_mem_replicate mem]
    rfl
  have spelled := spelled_text (a := a) (spellsDecimal (w := ['1']) (by decide) (by simp) zeros .absent)
    (by rw [chars, one]; rfl)
  rw [spelled, one, value_one]
  rfl

end Approx

/-! ## Coefficients -/

namespace Scalar

variable {c : Scalar}

/-- Whether a coefficient is a rational number with few enough digits to be written. -/
def isRational : Scalar → Bool
  | .given (.int n) => isWritable n.natAbs
  | .exact q => isWritable q.num.natAbs && isWritable q.den
  | _ => false

/-- Whether a coefficient is a rational number or an approximation of one. -/
def isNumeral : Scalar → Bool
  | .approx _ => true
  | c => c.isRational

theorem exists_phrase (numeral : c.isNumeral) :
    ∃ p : Phrase .term, p.chars = c.text.toList ∧ p.names = [] ∧ p.tree.number = c.written ∧
      (c.isRational → p.isExact) := by
  cases c with
  | given x =>
    cases x with
    | double x => cases numeral
    | int n =>
      exact ⟨.single (.ofInt n numeral), chars_ofInt n numeral, closed_ofInt n numeral,
        number_ofInt n numeral, fun _ => isExact_ofInt n numeral⟩
  | exact q =>
    obtain ⟨top, bottom⟩ : isWritable q.num.natAbs ∧ isWritable q.den := by
      simpa [isNumeral, isRational] using numeral
    by_cases whole : q.den = 1
    · refine ⟨.single (.ofInt q.num top), ?_, closed_ofInt _ top, ?_,
        fun _ => isExact_ofInt _ top⟩
      · rw [text, if_pos whole]
        exact chars_ofInt _ top
      · rw [written, show (single (ofInt q.num top)).tree.number = q.num from
          number_ofInt _ top]
        exact Rat.coe_int_num_of_den_eq_one whole
    · have nonzero : digitsValue (Nat.toDigits 10 q.den) ≠ 0 := by
        rw [digitsValue_toDigits]
        exact q.den_nz
      refine ⟨.div (.single (.ofInt q.num top)) _ (spellsWhole_toDigits bottom) nonzero, ?_,
        closed_ofInt _ top, ?_, fun _ => isExact_ofInt _ top⟩
      · rw [text, if_neg whole, toList_append, toList_append, ← chars_ofInt _ top,
          show (toString q.den).toList = Nat.toDigits 10 q.den from Nat.toList_repr]
        exact (List.append_assoc _ ['/'] _).symm
      · simp only [written, tree, number, number_ofInt, digitsValue_toDigits]
        rw [mul_comm, ← div_eq_mul_inv, Rat.num_div_den]
  | approx a =>
    obtain ⟨cs, x, spells, chars⟩ := a.exists_decimal
    have phrase := (chars_ofDecimal (decide (a.value.num < 0)) spells).trans chars.symm
    exact ⟨.single (.ofDecimal (decide (a.value.num < 0)) spells), phrase,
      closed_ofDecimal _ spells, (spelled_factor _ phrase).symm,
      fun rational => by cases rational⟩
  | symbolic x => cases numeral

theorem written_of_isZero (numeral : c.isNumeral) (zero : c.isZero) : c.written = 0 := by
  cases c with
  | given x =>
    cases x with
    | double x => cases numeral
    | int n => simpa [isZero, value?, Number.value?, written] using zero
  | exact q => simpa [isZero, value?, written] using zero
  | approx a =>
    have zero : a.value = 0 := by simpa [isZero, value?] using zero
    exact Approx.spelled_zero (by rw [zero]; rfl)
  | symbolic x => cases numeral

theorem written_of_isOne (numeral : c.isNumeral) (one : c.isOne) : c.written = 1 := by
  cases c with
  | given x =>
    cases x with
    | double x => cases numeral
    | int n => simpa [isOne, value?, Number.value?, written] using one
  | exact q => simpa [isOne, value?, written] using one
  | approx a =>
    have one : a.value = 1 := by simpa [isOne, value?] using one
    exact Approx.spelled_one one
  | symbolic x => cases numeral

theorem isNumeral_neg (numeral : c.isNumeral) : c.neg.isNumeral := by
  cases c with
  | given x =>
    cases x with
    | double x => cases numeral
    | int n => simpa [neg, Number.neg, isNumeral, isRational] using numeral
  | exact q => simpa [neg, isNumeral, isRational] using numeral
  | approx a => rfl
  | symbolic x => cases numeral

theorem written_neg (numeral : c.isNumeral) : c.neg.written = -c.written := by
  cases c with
  | given x =>
    cases x with
    | double x => cases numeral
    | int n => simp [neg, Number.neg, written]
  | exact q => rfl
  | approx a => exact Approx.spelled_neg a
  | symbolic x => cases numeral

end Scalar

theorem toList_toString_nat (n : ℕ) : (toString n).toList = Nat.toDigits 10 n := String.toList_ofList

theorem append_toString_injective (head : String) : Function.Injective fun n : ℕ => head ++ toString n := by
  intro i j same
  have chars := congrArg String.toList same
  simp only [String.toList_append, toList_toString_nat] at chars
  have values := congrArg digitsValue (List.append_cancel_left chars)
  rwa [digitsValue_toDigits, digitsValue_toDigits] at values

end Supermartingale
