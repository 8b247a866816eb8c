import Supermartingale.Proofs.Polynomial.Coefficient
import Supermartingale.Query

/-!
# Numbers in names

The number at the end of a constant's name is read back from the name, and the name under which a
coefficient is reported tells both its state and its number.
-/

namespace Supermartingale

open String

variable {ds : List Char} {i j n k : ℤ}

/-! ## Numbers at the end of names -/

theorem Text.splitFrom_of_not_mem {c : Char} {cs : List Char} (absent : c ∉ cs) (piece : List Char) :
    splitFrom [c] 0 piece cs = [piece.reverse ++ cs] := by
  induction cs generalizing piece with
  | nil => simp [splitFrom]
  | cons d cs ih =>
    rw [List.mem_cons, not_or] at absent
    have differs : dropLeading? [c] (d :: cs) = none := by simp [dropLeading?, absent.1]
    rw [splitFrom, differs]
    dsimp only
    rw [ih absent.2]
    simp

theorem Text.getLast?_splitFrom {c : Char} (absent : c ∉ ds) (cs piece : List Char) :
    (splitFrom [c] 0 piece (cs ++ c :: ds)).getLast? = some ds := by
  induction cs generalizing piece with
  | nil =>
    have found : dropLeading? [c] (c :: ds) = some ds := by simp [dropLeading?]
    rw [List.nil_append, splitFrom, found]
    simp [splitFrom_of_not_mem absent]
  | cons d cs ih =>
    rw [List.cons_append, splitFrom]
    by_cases same : c = d
    · have found : dropLeading? [c] (d :: (cs ++ c :: ds)) = some (cs ++ c :: ds) := by
        simp [dropLeading?, same]
      have later := ih []
      rw [found]
      dsimp only
      rw [List.getLast?_cons, show [c].length - 1 = 0 from rfl, later]
      rfl
    · have differs : dropLeading? [c] (d :: (cs ++ c :: ds)) = none := by simp [dropLeading?, same]
      rw [differs]
      exact ih (d :: piece)

theorem Number.dropUnderscores?_digits (digits : ∀ c ∈ ds, c.isDigit)
    (before : Option Char) : dropUnderscores? before ds = some ds := by
  induction ds generalizing before with
  | nil => simp [dropUnderscores?]
  | cons d ds ih =>
    rw [List.forall_mem_cons] at digits
    have plain : d ≠ '_' := by
      rintro rfl
      exact absurd digits.1 (by decide)
    unfold dropUnderscores?
    split
    · contradiction
    · rename_i same
      exact absurd (List.cons.inj same).1 plain
    · rename_i c rest _ same
      cases same
      rw [ih digits.2]
      rfl

theorem Number.whole?_toString {n : ℕ} (writable : Supermartingale.isWritable n) :
    Number.whole? (toString n) = some (n : ℤ) := by
  have spells := spellsWhole_toDigits writable
  have plain : (Nat.toDigits 10 n).map Text.plainDigit = Nat.toDigits 10 n := by
    conv_rhs => rw [← List.map_id (Nat.toDigits 10 n)]
    refine List.map_congr_left fun c mem => ?_
    have digit := spells.digits c mem
    simp only [Char.isDigit, Bool.and_eq_true, decide_eq_true_eq, ge_iff_le, UInt32.le_iff_toNat_le] at digit
    have high : c.toNat ≤ 57 := digit.2
    simp only [Text.plainDigit, id, ite_eq_left_iff]
    omega
  have spelling : plainSpelling? (toString n) = some (Nat.toDigits 10 n) := by
    rw [plainSpelling?, Text.strip_digits (toList_toString_nat n ▸ spells.digits), toList_toString_nat,
      plain, dropUnderscores?_digits spells.digits]
  obtain ⟨d, ds, first⟩ := List.exists_cons_of_ne_nil spells.nonempty
  have digit : d.isDigit := spells.digits d (by simp [first])
  have minus : d ≠ '-' := by rintro rfl; exact absurd digit (by decide)
  have plus : d ≠ '+' := by rintro rfl; exact absurd digit (by decide)
  have others : ∀ c ∈ ds, c.isDigit := fun c mem => spells.digits c (by simp [first, mem])
  have short : ds.length + 1 ≤ digitLimit := by simpa [first] using spells.short
  have value : digitsValue (d :: ds) = n := first ▸ digitsValue_toDigits n
  rw [whole?, spelling, first]
  simp only [Option.bind_eq_bind, Option.bind_some]
  split
  · rename_i rest same
    exact absurd (List.cons.inj same).1 minus
  · rename_i rest same
    exact absurd (List.cons.inj same).1 plus
  · rw [if_neg (by simpa using ⟨⟨digit, others⟩, short⟩), value]
    rfl

theorem Answer.lastNumber_append (head : String) {n : ℕ} (writable : isWritable n) :
    Answer.lastNumber (head ++ "_" ++ toString n) = .ok (n : ℤ) := by
  have digits : '_' ∉ (toString n).toList := by
    rw [toList_toString_nat]
    intro mem
    exact absurd (isDigit_toDigits n _ mem) (by decide)
  have last : (Text.splitOn "_" (head ++ "_" ++ toString n)).getLast? = some (toString n) := by
    have split := Text.getLast?_splitFrom digits head.toList []
    rw [Text.splitOn, List.getLast?_map]
    have chars : (head ++ "_" ++ toString n).toList = head.toList ++ '_' :: (toString n).toList := by
      simp
    rw [chars, show "_".toList = ['_'] from rfl, split]
    simp only [Option.map_some, ofList_toList]
  have whole := Number.whole?_toString writable
  unfold lastNumber
  simp only [last, Option.getD_some, whole]

/-! ## Names of coefficients by states -/

theorem toList_toString_int (i : ℤ) :
    (toString i).toList = (if i < 0 then ['-'] else []) ++ Nat.toDigits 10 i.natAbs := by
  cases i with
  | ofNat n => exact toList_toString_nat n
  | negSucc n =>
    have negative : Int.negSucc n < 0 := Int.negSucc_lt_zero n
    rw [if_pos negative]
    exact (toList_append (s := "-") (t := toString (n + 1))).trans
      (congrArg (['-'] ++ ·) (toList_toString_nat (n + 1)))

theorem underscore_not_mem_int (i : ℤ) : '_' ∉ (toString i).toList := by
  rw [toList_toString_int, List.mem_append, not_or]
  constructor
  · split
    · decide
    · exact List.not_mem_nil
  · intro mem
    exact absurd (isDigit_toDigits _ _ mem) (by decide)

theorem toString_int_injective {i j : ℤ} (same : toString i = toString j) : i = j := by
  have chars := congrArg toList same
  rw [toList_toString_int, toList_toString_int] at chars
  have noSign (n : ℕ) (rest : List Char) : Nat.toDigits 10 n ≠ '-' :: rest := by
    intro signed
    have digit := isDigit_toDigits n '-' (by simp [signed])
    exact absurd digit (by decide)
  have absolute (digits : Nat.toDigits 10 i.natAbs = Nat.toDigits 10 j.natAbs) :
      i.natAbs = j.natAbs := by
    rw [← digitsValue_toDigits i.natAbs, digits, digitsValue_toDigits]
  by_cases first : i < 0
  · by_cases second : j < 0
    · rw [if_pos first, if_pos second] at chars
      have := absolute (List.append_cancel_left chars)
      omega
    · rw [if_pos first, if_neg second] at chars
      exact absurd chars.symm (noSign _ _)
  · by_cases second : j < 0
    · rw [if_neg first, if_pos second] at chars
      exact absurd chars (noSign _ _)
    · rw [if_neg first, if_neg second] at chars
      have := absolute chars
      omega

def Answer.reportName (state index : ℤ) : String := "P_" ++ toString state ++ "_" ++ toString index

/-- Two numbers with an underscore between them can be told from a name that ends in them. -/
theorem joined_injective (head : String)
    (same : head ++ toString i ++ "_" ++ toString n = head ++ toString j ++ "_" ++ toString k) : i = j ∧ n = k := by
  have chars := congrArg toList same
  have spelled (i n : ℤ) : (head ++ toString i ++ "_" ++ toString n).toList =
      head.toList ++ ((toString i).toList ++ '_' :: (toString n).toList) := by
    simp
  rw [spelled, spelled] at chars
  have rest := List.append_cancel_left chars
  -- the first underscore stands behind the first number
  have cut (cs ds : List Char) (absent : '_' ∉ cs) :
      (cs ++ '_' :: ds).takeWhile (· != '_') = cs ∧ (cs ++ '_' :: ds).dropWhile (· != '_') = '_' :: ds := by
    have all : ∀ c ∈ cs, (c != '_') = true := fun c mem => by
      simpa using fun equal : c = '_' => absent (equal ▸ mem)
    rw [List.takeWhile_append_of_pos all, List.dropWhile_append_of_pos all]
    simp
  have front := cut (toString i).toList (toString n).toList (underscore_not_mem_int i)
  have front' := cut (toString j).toList (toString k).toList (underscore_not_mem_int j)
  rw [rest] at front
  have states : (toString i).toList = (toString j).toList := front.1.symm.trans front'.1
  have numbers := (List.cons.inj (front.2.symm.trans front'.2)).2
  exact ⟨toString_int_injective (toList_injective states),
    toString_int_injective (toList_injective numbers)⟩

theorem Answer.reportName_injective (same : reportName i n = reportName j k) : i = j ∧ n = k :=
  joined_injective "P_" same

end Supermartingale
