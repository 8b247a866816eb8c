import Supermartingale.Certificate
import Supermartingale.Proofs.Polynomial.Coefficient
import Supermartingale.Proofs.Polynomial.Substitution

/-!
# Names of variables and constants

A variable is a letter with a number behind it, a constant is a stem with an underscore and a number behind it.
Variables with one digit are apart from each other; of ten, the first one is part of the tenth.
-/

namespace Supermartingale

open List

variable {letter : Char} {s : String} {n : ℕ} {cs : List Char}

def meaningfulNames : List String :=
  Token.reserved ++ Token.literals ++ Symbolic.namedConstants.map (·.1) ++
    Symbolic.expressionKinds.flatMap (·.2) ++ Symbolic.otherNames.flatMap (·.2)

theorem Symbolic.NameTable.mem_of_has {table : NameTable} (has : table.has s) : s ∈ table.flatMap (·.2) := by
  unfold NameTable.has at has
  split at has
  · cases has
  · obtain ⟨entry, mem, found⟩ := any_eq_true.mp has
    obtain ⟨_, inside⟩ := Bool.and_eq_true_iff.mp found
    exact mem_flatMap.mpr ⟨entry, mem, by simpa using inside⟩

theorem isUnknown_of_not_mem {c : Char} (chars : s.toList = c :: cs)
    (starts : Token.startsName c) (continues : ∀ d ∈ cs, Token.continuesName d)
    (other : s ∉ meaningfulNames) : IsUnknown s := by
  simp only [meaningfulNames, mem_append, not_or] at other
  obtain ⟨⟨⟨⟨free, nonliteral⟩, constant⟩, kind⟩, rest⟩ := other
  refine ⟨⟨c, cs, chars, starts⟩, ?_, free, nonliteral, ?_⟩
  · rw [chars]
    exact forall_mem_cons.mpr ⟨continuesName_of_startsName starts, continues⟩
  · have none : Symbolic.namedConstants.find? (·.1 == s) = none := by
      rw [List.find?_eq_none]
      intro pair mem same
      exact constant (mem_map.mpr ⟨pair, mem, eq_of_beq same⟩)
    have noKind := Bool.eq_false_iff.mpr fun has => kind (Symbolic.NameTable.mem_of_has has)
    have noOther := Bool.eq_false_iff.mpr fun has => rest (Symbolic.NameTable.mem_of_has has)
    rw [Symbolic.meaningOf, none]
    simp [noKind, noOther]

/-! ## Names by their bytes -/

/-- The bytes of a text. Unlike its characters, they are computed from a literal without decoding. -/
def bytes (s : String) : List UInt8 := s.toByteArray.data.toList

theorem bytes_eq (s : String) : bytes s = s.toList.flatMap String.utf8EncodeChar := by
  rw [bytes, ← String.utf8Encode_toList]
  simp [List.utf8Encode]

def letters : List Char := ['S', 'A', 'D']

def isDigitByte (b : UInt8) : Bool := 48 ≤ b && b ≤ 57

theorem utf8EncodeChar_digit {d : Char} (digit : d.isDigit) :
    ∃ b, String.utf8EncodeChar d = [b] ∧ isDigitByte b := by
  have all : ∀ d ∈ digits, (String.utf8EncodeChar d).length = 1 ∧ (String.utf8EncodeChar d).all isDigitByte := by decide
  obtain ⟨single, digitByte⟩ := all d (mem_digits digit)
  obtain ⟨b, same⟩ := length_eq_one_iff.mp single
  exact ⟨b, same, by simpa [same] using digitByte⟩

def isIndexed : List UInt8 → Bool
  | b :: d :: bs => (b == 95 && isDigitByte d) || isIndexed (d :: bs)
  | _ => false

theorem isIndexed_append {d : UInt8} (digit : isDigitByte d) (before after : List UInt8) :
    isIndexed (before ++ 95 :: d :: after) := by
  induction before with
  | nil => simp [isIndexed, digit]
  | cons b before ih =>
    cases before with
    | nil => simp [isIndexed, digit]
    | cons c before =>
      rw [cons_append, cons_append, isIndexed, Bool.or_eq_true]
      exact .inr ih

def startsVariable : List UInt8 → Bool
  | b :: d :: _ => letters.any (fun c => c.val.toUInt8 == b) && isDigitByte d
  | _ => false

theorem meaningfulNames_other :
    meaningfulNames.all (fun s => !(isIndexed (bytes s) || startsVariable (bytes s))) := by
  decide +kernel

theorem not_mem_meaningfulNames (own : isIndexed (bytes s) ∨ startsVariable (bytes s)) : s ∉ meaningfulNames := by
  intro mem
  have other := all_eq_true.mp meaningfulNames_other s mem
  rcases own with indexed | variable'
  · simp [indexed] at other
  · simp [variable'] at other

theorem isUnknown_constant {stem : String} {c : Char} (chars : stem.toList = c :: cs)
    (starts : Token.startsName c) (continues : ∀ d ∈ cs, Token.continuesName d) (n : ℕ) :
    IsUnknown (stem ++ "_" ++ toString n) := by
  have whole : (stem ++ "_" ++ toString n).toList = c :: (cs ++ '_' :: Nat.toDigits 10 n) := by
    rw [String.toList_append, String.toList_append, chars,
      show (toString n).toList = Nat.toDigits 10 n from Nat.toList_repr]
    simp
  refine isUnknown_of_not_mem whole starts ?_ (not_mem_meaningfulNames (.inl ?_))
  · intro d mem
    rcases mem_append.mp mem with inside | number
    · exact continues d inside
    · rcases mem_cons.mp number with rfl | digit
      · decide
      · exact continuesName_of_isDigit (isDigit_toDigits n d digit)
  · obtain ⟨d, ds, first⟩ := exists_cons_of_ne_nil (Nat.toDigits_ne_nil (n := n) (b := 10))
    obtain ⟨b, single, digit⟩ := utf8EncodeChar_digit
      (isDigit_toDigits n d (by rw [first]; exact mem_cons_self))
    have underscore : String.utf8EncodeChar '_' = [95] := by decide
    rw [bytes_eq, whole, first, ← cons_append, flatMap_append, flatMap_cons,
      flatMap_cons, flatMap_cons, single, underscore]
    exact isIndexed_append digit _ _

/-! ## Variables -/

def variableOf (letter : Char) (n : ℕ) : String := String.ofList (letter :: Nat.toDigits 10 n)

theorem variableOf_eq (letter : Char) (n : ℕ) : variableOf letter n = String.ofList [letter] ++ toString n := by
  rw [← String.toList_inj, variableOf, String.toList_append, String.toList_ofList,
    String.toList_ofList, show (toString n).toList = Nat.toDigits 10 n from Nat.toList_repr]
  rfl

theorem toList_variableOf (letter : Char) (n : ℕ) :
    (variableOf letter n).toList = letter :: Nat.toDigits 10 n := String.toList_ofList

theorem isUnknown_variableOf (h : letter ∈ letters) (n : ℕ) : IsUnknown (variableOf letter n) := by
  refine isUnknown_of_not_mem (toList_variableOf letter n)
    ((by decide : ∀ c ∈ letters, Token.startsName c) letter h)
    (fun d mem => continuesName_of_isDigit (isDigit_toDigits n d mem))
    (not_mem_meaningfulNames (.inr ?_))
  obtain ⟨d, ds, first⟩ := exists_cons_of_ne_nil (Nat.toDigits_ne_nil (n := n) (b := 10))
  obtain ⟨b, single, digit⟩ := utf8EncodeChar_digit
    (isDigit_toDigits n d (by rw [first]; exact mem_cons_self))
  have encoded : String.utf8EncodeChar letter = [letter.val.toUInt8] :=
    (by decide : ∀ c ∈ letters, String.utf8EncodeChar c = [c.val.toUInt8]) letter h
  rw [bytes_eq, toList_variableOf, first, flatMap_cons, flatMap_cons, encoded, single]
  simp only [cons_append, nil_append, startsVariable, Bool.and_eq_true, any_eq_true]
  exact ⟨⟨letter, h, by simp⟩, digit⟩

theorem isKey_variableOf (h : letter ∈ letters) (n : ℕ) : IsKey (variableOf letter n) := by
  refine ⟨⟨letter, _, toList_variableOf letter n, ?_⟩, (isUnknown_variableOf h n).continues⟩
  exact (by decide : ∀ c ∈ letters, c ∉ '.' :: 'e' :: '+' :: '-' :: digits) letter h

theorem toDigits_of_ten_le (long : 10 ≤ n) :
    ∃ m d ds, 1 ≤ m ∧ m < 10 ∧ d.isDigit ∧ Nat.toDigits 10 n = Nat.toDigits 10 m ++ d :: ds := by
  induction n using Nat.strongRecOn with
  | ind n ih =>
    have last := Nat.toDigits_of_base_le (by omega : 1 < 10) long
    have digit : (Nat.digitChar (n % 10)).isDigit := by
      refine isDigit_toDigits n _ ?_
      rw [last]
      simp
    by_cases short : n / 10 < 10
    · exact ⟨n / 10, _, [], by omega, short, digit, last⟩
    · obtain ⟨m, d, ds, positive, small, first, split⟩ := ih (n / 10) (by omega) (by omega)
      refine ⟨m, d, ds ++ [Nat.digitChar (n % 10)], positive, small, first, ?_⟩
      rw [last, split, append_assoc, cons_append]

/-- A variable with several digits contains one with a single digit, and a digit follows. -/
theorem toList_variableOf_long (letter : Char) (long : 10 ≤ n) :
    ∃ m d ds, 1 ≤ m ∧ m < 10 ∧ d.isDigit ∧
      (variableOf letter n).toList = (variableOf letter m).toList ++ d :: ds := by
  obtain ⟨m, d, ds, positive, small, digit, split⟩ := toDigits_of_ten_le long
  refine ⟨m, d, ds, positive, small, digit, ?_⟩
  rw [toList_variableOf, toList_variableOf, split, cons_append]

theorem toList_variableOf_short (letter : Char) (short : n < 10) :
    (variableOf letter n).toList = [letter, Nat.digitChar n] := by
  rw [toList_variableOf, Nat.toDigits_of_lt_base short]

theorem apart_variableOf (letter : Char) (m : ℕ) (short : n < 10) :
    Apart (variableOf letter m) (variableOf letter n) := by
  by_cases inside : (variableOf letter m).toList <:+: (variableOf letter n).toList
  · have bound := inside.length_le
    rw [toList_variableOf_short letter short] at bound
    have single : m < 10 := by
      by_contra long
      obtain ⟨k, d, ds, _, small, _, split⟩ := toList_variableOf_long letter (by omega : 10 ≤ m)
      rw [split, toList_variableOf_short letter small] at bound
      simp at bound
    have same := inside.eq_of_length (by
      rw [toList_variableOf_short letter single, toList_variableOf_short letter short]
      rfl)
    exact .inl (String.toList_inj.mp same.symm)
  · exact .inr inside

theorem variableOf_injective {m n : ℕ} (same : variableOf letter m = variableOf letter n) : m = n := by
  have digits := congrArg String.toList same
  rw [toList_variableOf, toList_variableOf] at digits
  rw [← digitsValue_toDigits m, (List.cons.inj digits).2, digitsValue_toDigits]

theorem isUnknown_parameter (h : s ∈ CertificateVariables.constants) : IsUnknown s := by
  have chars : ∀ s ∈ CertificateVariables.constants, s.toList.head?.any Token.startsName ∧
      s.toList.all Token.continuesName ∧ s ∉ Token.reserved ∧ s ∉ Token.literals ∧
      Symbolic.meaningOf s = .unknown := by
    decide +kernel
  obtain ⟨starts, continues, free, nonliteral, unknown⟩ := chars s h
  obtain ⟨c, first, starts⟩ := (Option.any_eq_true _ _).mp starts
  obtain ⟨cs, split⟩ := List.head?_eq_some_iff.mp first
  exact ⟨⟨c, cs, split, starts⟩, fun d inside => List.all_eq_true.mp continues d inside, free, nonliteral, unknown⟩

end Supermartingale
