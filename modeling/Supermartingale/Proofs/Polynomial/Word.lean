import Mathlib.Tactic.IntervalCases
import Supermartingale.Polynomial.Expression
import Supermartingale.Proofs.Text.Replace
import Supermartingale.Symbolic.Names

/-!
# Words of a polynomial text

Scanning cuts a text into the longest words. A name or a number is cut out whole wherever an operator, a blank, a
closing parenthesis or the end of the text follows it.
-/

namespace Supermartingale

open List

def enders : List Char := [' ', '+', '-', '*', '/', ')']

def Ends (rest : List Char) : Prop := ∀ c ∈ rest.head?, c ∈ enders

theorem ends_nil : Ends [] := by
  intro c found
  cases found

theorem ends_cons (h : c ∈ enders) (rest : List Char) : Ends (c :: rest) := by
  intro d found
  cases found
  exact h

theorem span_append {inside : Char → Bool} (rest : List Char) (all : ∀ c ∈ word, inside c)
    (stop : ∀ c ∈ rest.head?, inside c = false) :
    (word ++ rest).takeWhile inside = word ∧ (word ++ rest).dropWhile inside = rest := by
  have stopped : rest.takeWhile inside = [] ∧ rest.dropWhile inside = rest := by
    cases rest with
    | nil => exact ⟨rfl, rfl⟩
    | cons c rest => simp [stop c rfl]
  rw [takeWhile_append_of_pos all, dropWhile_append_of_pos all, stopped.1, stopped.2]
  exact ⟨append_nil word, rfl⟩

variable {rest w f e word ds : List Char} {c : Char}

theorem Ends.span (ends : Ends rest) (inside : Char → Bool)
    (outside : ∀ c ∈ enders, inside c = false) (all : ∀ c ∈ word, inside c) :
    (word ++ rest).takeWhile inside = word ∧ (word ++ rest).dropWhile inside = rest :=
  span_append rest all fun c found => outside c (ends c found)

/-! ## Characters -/

def digits : List Char := ['0', '1', '2', '3', '4', '5', '6', '7', '8', '9']

theorem mem_digits (digit : c.isDigit) : c ∈ digits := by
  obtain ⟨lower, upper⟩ : 48 ≤ c.toNat ∧ c.toNat ≤ 57 := Char.isDigit_iff_toNat.mp digit
  rw [← Char.ofNat_toNat c]
  interval_cases c.toNat <;> decide

theorem continuesName_of_isDigit (digit : c.isDigit) : Token.continuesName c :=
  (by decide : ∀ d ∈ digits, Token.continuesName d) c (mem_digits digit)

theorem continuesName_of_startsName (starts : Token.startsName c) : Token.continuesName c := by
  simp only [Token.startsName, Token.continuesName, Text.isAlphanumeric, Bool.or_eq_true] at starts ⊢
  rcases starts with letter | underscore
  · exact .inl (.inl letter)
  · exact .inr underscore

theorem not_isDigit_of_startsName (starts : Token.startsName c) : c.isDigit = false := by
  cases digit : c.isDigit with
  | false => rfl
  | true =>
    have := (by decide : ∀ d ∈ digits, Token.startsName d = false) c (mem_digits digit)
    rw [starts] at this
    cases this

theorem ne_of_startsName {c d : Char} (starts : Token.startsName c) (other : Token.startsName d = false) : c ≠ d := by
  rintro rfl
  rw [starts] at other
  cases other

/-- A name that stands for an unknown. -/
structure IsUnknown (s : String) : Prop where
  starts : ∃ c cs, s.toList = c :: cs ∧ Token.startsName c
  continues : ∀ c ∈ s.toList, Token.continuesName c
  free : s ∉ Token.reserved
  nonliteral : s ∉ Token.literals
  unknown : Symbolic.meaningOf s = .unknown

theorem next_name {s : String} (h : IsUnknown s) (ends : Ends rest) :
    Token.next "**" (s.toList ++ rest) = some (.name s, rest) := by
  obtain ⟨c, cs, chars, starts⟩ := h.starts
  obtain ⟨word, after⟩ := ends.span Token.continuesName (by decide) h.continues
  rw [chars] at word after ⊢
  have noDigit := not_isDigit_of_startsName starts
  have noPoint : (c == '.') = false := beq_false_of_ne (ne_of_startsName starts (by decide))
  rw [cons_append, Token.next]
  rw [cons_append] at word after
  simp only [noDigit, noPoint, Bool.false_and, Bool.or_self, Bool.false_eq_true, if_false, starts, if_true, word, after]
  rw [← chars, String.ofList_toList, if_neg]
  simpa using h.free

/-! ## Numerals -/

/-- A word without underscores whose last character is no exponent mark is kept as it is. -/
theorem ungroup_append {word rest : List Char} (ends : Ends rest) (before : Option Char) (plain : '_' ∉ word)
    (last : ∀ c ∈ (before.toList ++ word).getLast?, c ≠ 'e' ∧ c ≠ 'E') :
    Token.ungroup before (word ++ rest) = word ++ rest := by
  induction word generalizing before with
  | nil =>
    cases rest with
    | nil => rfl
    | cons c rest =>
      have stops := (by decide : ∀ c ∈ enders,
        ((c == '_') || c.isDigit || c == '.' || c == 'e' || c == 'E') = false) c (ends c rfl)
      simp only [Bool.or_eq_false_iff] at stops
      have unmarked : before.any (fun b => b == 'e' || b == 'E') = false := by
        cases before with
        | none => rfl
        | some b => simpa using last b (by simp)
      simp [Token.ungroup, stops, unmarked]
  | cons d word ih =>
    simp only [mem_cons, not_or] at plain
    have same : Token.ungroup (some d) (word ++ rest) = word ++ rest := by
      refine ih (some d) plain.2 fun c found => last c ?_
      simpa [List.getLast?_append] using found
    have first : (d == '_') = false := beq_false_of_ne fun h => plain.1 h.symm
    simp [Token.ungroup, first, same]

theorem basedWhole?_eq_none {cs : List Char}
    (second : ∀ c ∈ cs.tail.head?, c ∈ '.' :: digits ++ enders) : Token.basedWhole? cs = none := by
  unfold Token.basedWhole?
  split
  · rename_i letter rest
    have none := (by decide : ∀ c ∈ '.' :: digits ++ enders, Token.base? c = none) letter (second letter rfl)
    rw [none, Option.bind_none]
  · rfl

theorem readExponent_of_ends (ends : Ends rest) : readExponent rest = none := by
  cases rest with
  | nil => rfl
  | cons c rest =>
    have plain := (by decide : ∀ c ∈ enders, (c == 'e' || c == 'E') = false) c (ends c rfl)
    simp [readExponent, plain]

theorem afterNumeral_of_ends (ends : Ends rest) : Token.afterNumeral rest = rest := by
  cases rest with
  | nil => rfl
  | cons c rest =>
    have plain := (by decide : ∀ c ∈ enders, (c == 'j' || c == 'J') = false) c (ends c rfl)
    simp [Token.afterNumeral, plain]

/-- Digits that are read as a whole number. -/
structure SpellsWhole (ds : List Char) : Prop where
  nonempty : ds ≠ []
  digits : ∀ c ∈ ds, c.isDigit
  plain : Token.spellsWhole ds
  short : ds.length ≤ digitLimit

theorem readNumeral_whole (h : SpellsWhole ds) (ends : Ends rest) :
    readNumeral (ds ++ rest) = some (Numeral.make ds [] 0 false, false, rest) := by
  obtain ⟨word, after⟩ := ends.span Char.isDigit (by decide) h.digits
  have noPoint : ∀ r, rest = '.' :: r → False := by
    rintro r rfl
    exact absurd (ends '.' rfl) (by decide)
  have nonempty : ds.isEmpty = false := isEmpty_eq_false_iff.mpr h.nonempty
  unfold readNumeral
  simp only [word, after, nonempty, Bool.false_and, Bool.false_eq_true, if_false, readExponent_of_ends ends]

theorem next_whole (h : SpellsWhole ds) (ends : Ends rest) :
    Token.next "**" (ds ++ rest) = some (.whole (digitsValue ds), rest) := by
  obtain ⟨c, tail, rfl⟩ := exists_cons_of_ne_nil h.nonempty
  have plain : '_' ∉ c :: tail := fun mem => absurd (h.digits '_' mem) (by decide)
  have last : ∀ d ∈ ((none : Option Char).toList ++ (c :: tail)).getLast?, d ≠ 'e' ∧ d ≠ 'E' := by
    intro d found
    have digit := h.digits d (mem_of_getLast? (by simpa using found))
    exact (by decide : ∀ d ∈ digits, d ≠ 'e' ∧ d ≠ 'E') d (mem_digits digit)
  have based : Token.basedWhole? (c :: tail ++ rest) = none := by
    refine basedWhole?_eq_none fun d found => ?_
    cases tail with
    | nil => exact mem_append_right _ (ends d (by simpa using found))
    | cons e tail =>
      cases found
      exact mem_append_left _ (.tail _ (mem_digits (h.digits d (by simp))))
  have word := (ends.span Char.isDigit (by decide) h.digits).1
  have numeral := readNumeral_whole h ends
  have group := ungroup_append ends none plain last
  have digit := h.digits c (by simp)
  rw [cons_append] at based numeral group word ⊢
  rw [Token.next, if_pos (by simp [digit])]
  simp only [group, based, numeral, word, h.plain, decide_eq_true h.short, Bool.and_self, if_true,
    afterNumeral_of_ends ends, Numeral.make, append_nil, Bool.or_self, Bool.false_eq_true,
    if_false]

/-! ## Decimals -/

/-- A text that is read as a decimal. -/
structure SpellsDecimal (cs : List Char) (x : Numeral) : Prop where
  starts : ∃ c tail, cs = c :: tail ∧ c.isDigit
  chars : ∀ c ∈ cs, c ∈ '.' :: 'e' :: '+' :: '-' :: digits
  next : ∀ rest, Ends rest → Token.next "**" (cs ++ rest) = some (.decimal x, rest)

/-- The text of an exponent: absent, or a mark, a sign and digits. -/
inductive ExponentText : List Char → Prop where
  | absent : ExponentText []
  | signed {sign : Char} {ds : List Char} (plusOrMinus : sign ∈ ['+', '-']) (nonempty : ds ≠ [])
      (all : ∀ c ∈ ds, c.isDigit) : ExponentText ('e' :: sign :: ds)

def exponentOf : List Char → Int
  | 'e' :: '-' :: ds => -digitsValue ds
  | 'e' :: _ :: ds => digitsValue ds
  | _ => 0

theorem readExponent_append {e : List Char} (h : ExponentText e) :
    ∃ scaled : Bool, ∀ (w f : List Char) (pointed : Bool) (rest : List Char),
      Ends rest → (match readExponent (e ++ rest) with
        | some (power, rest) => some (Numeral.make w f power pointed, true, rest)
        | none => some (Numeral.make w f 0 pointed, false, e ++ rest)) =
          some (Numeral.make w f (exponentOf e) pointed, scaled, rest) := by
  cases h with
  | absent => exact ⟨false, fun w f pointed rest ends => by simp [readExponent_of_ends ends, exponentOf]⟩
  | @signed sign ds plusOrMinus nonempty all =>
    have filled : ds.isEmpty = false := isEmpty_eq_false_iff.mpr nonempty
    refine ⟨true, fun w f pointed rest ends => ?_⟩
    obtain ⟨word, after⟩ := ends.span Char.isDigit (by decide) all
    simp only [mem_cons, not_mem_nil, or_false] at plusOrMinus
    rcases plusOrMinus with rfl | rfl
    · simp [readExponent, word, after, filled, exponentOf]
    · simp [readExponent, word, after, filled, exponentOf]

theorem exponentText_head {e : List Char} (h : ExponentText e)
    (ends : Ends rest) : ∀ c ∈ (e ++ rest).head?, c.isDigit = false := by
  cases h with
  | absent => exact fun c found => (by decide : ∀ c ∈ enders, c.isDigit = false) c (ends c found)
  | signed =>
    intro c found
    cases found
    rfl

theorem exponentText_chars {e : List Char} (h : ExponentText e) :
    ∀ c ∈ e, c ∈ '.' :: 'e' :: '+' :: '-' :: digits := by
  cases h with
  | absent => exact forall_mem_nil _
  | signed plusOrMinus nonempty all =>
    simp only [forall_mem_cons]
    refine ⟨by decide, (by decide : ∀ c ∈ ['+', '-'], _) _ plusOrMinus, fun c mem => ?_⟩
    simp [mem_digits (all c mem)]

theorem mem_of_getLast?_append {xs ys : List Char} (nonempty : ys ≠ []) (found : c ∈ (xs ++ ys).getLast?) : c ∈ ys := by
  rw [List.getLast?_append, List.getLast?_eq_some_getLast nonempty, Option.some_or] at found
  cases found
  exact getLast_mem nonempty

theorem getLast?_decimal (fraction : ∀ c ∈ f, c.isDigit) (h : ExponentText e) :
    ∀ c ∈ (w ++ '.' :: (f ++ e)).getLast?, c ≠ 'e' ∧ c ≠ 'E' := by
  have digitFits : ∀ c : Char, c.isDigit → c ≠ 'e' ∧ c ≠ 'E' := fun c digit =>
    (by decide : ∀ d ∈ digits, d ≠ 'e' ∧ d ≠ 'E') c (mem_digits digit)
  intro c found
  cases h with
  | absent =>
    rw [append_nil] at found
    rcases mem_cons.mp (mem_of_getLast?_append (by simp) found) with rfl | mem
    · decide
    · exact digitFits c (fraction c mem)
  | @signed sign ds plusOrMinus nonempty all =>
    have split : w ++ '.' :: (f ++ 'e' :: sign :: ds) = (w ++ '.' :: (f ++ ['e', sign])) ++ ds := by
      simp
    rw [split] at found
    exact digitFits c (all c (mem_of_getLast?_append nonempty found))

theorem readNumeral_decimal (integral : ∀ c ∈ w, c.isDigit) (nonempty : w ≠ [])
    (fraction : ∀ c ∈ f, c.isDigit) (h : ExponentText e) :
    ∃ scaled, ∀ rest, Ends rest →
      readNumeral (w ++ '.' :: (f ++ (e ++ rest))) =
        some (Numeral.make w f (exponentOf e) true, scaled, rest) := by
  obtain ⟨scaled, exponent⟩ := readExponent_append h
  refine ⟨scaled, fun rest ends => ?_⟩
  obtain ⟨word, point⟩ := span_append ('.' :: (f ++ (e ++ rest))) integral
    (by simp [show Char.isDigit '.' = false from rfl])
  obtain ⟨digits, after⟩ := span_append (e ++ rest) fraction (exponentText_head h ends)
  have filled : w.isEmpty = false := isEmpty_eq_false_iff.mpr nonempty
  unfold readNumeral
  simp only [word, point, digits, after, filled, Bool.false_and, Bool.false_eq_true, if_false]
  exact exponent w f true rest ends

theorem spellsDecimal (integral : ∀ c ∈ w, c.isDigit) (nonempty : w ≠ [])
    (fraction : ∀ c ∈ f, c.isDigit) (h : ExponentText e) :
    SpellsDecimal (w ++ '.' :: (f ++ e)) (Numeral.make w f (exponentOf e) true) := by
  obtain ⟨scaled, numeral⟩ := readNumeral_decimal integral nonempty fraction h
  have chars : ∀ c ∈ w ++ '.' :: (f ++ e), c ∈ '.' :: 'e' :: '+' :: '-' :: digits := by
    intro c mem
    simp only [mem_append, mem_cons] at mem
    rcases mem with digit | rfl | digit | marked
    · simp [mem_digits (integral c digit)]
    · simp
    · simp [mem_digits (fraction c digit)]
    · exact exponentText_chars h c marked
  have plain : '_' ∉ w ++ '.' :: (f ++ e) := fun mem => absurd (chars '_' mem) (by decide)
  obtain ⟨c, tail, rfl⟩ := exists_cons_of_ne_nil nonempty
  have digit := integral c (by simp)
  refine ⟨⟨c, _, rfl, digit⟩, chars, fun rest ends => ?_⟩
  have group := ungroup_append ends none plain (getLast?_decimal fraction h)
  have based : Token.basedWhole? (c :: tail ++ '.' :: (f ++ e) ++ rest) = none := by
    refine basedWhole?_eq_none fun d found => mem_append_left _ ?_
    cases tail with
    | nil =>
      cases found
      simp
    | cons d tail =>
      cases found
      exact .tail _ (mem_digits (integral d (by simp)))
  have read := numeral rest ends
  simp only [cons_append, append_assoc] at group based read ⊢
  rw [Token.next, if_pos (by simp [digit])]
  simp only [group, based, read, Numeral.make, Bool.true_or, if_true, afterNumeral_of_ends ends]

end Supermartingale
