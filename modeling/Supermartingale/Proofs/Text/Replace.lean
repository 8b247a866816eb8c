import Mathlib.Data.List.Infix
import Supermartingale.Text.Class
import Supermartingale.Text.Replace

/-!
# Replacing a pattern part by part

A text in which some character does not occur in the pattern is replaced on either side of that character separately.
A part without the pattern stays as it is, and a part that is the pattern becomes the value.
-/

namespace Supermartingale.Text

open List

instance decidableForallMem {P : Char → Prop} [DecidablePred P] (cs : List Char) : Decidable (∀ c ∈ cs, P c) :=
  List.decidableBAll P cs

theorem dropLeading?_eq_some {pattern cs rest : List Char} :
    dropLeading? pattern cs = some rest ↔ cs = pattern ++ rest := by
  induction pattern generalizing cs with
  | nil => simp [dropLeading?]
  | cons p ps ih =>
    cases cs with
    | nil => simp [dropLeading?]
    | cons c cs =>
      simp only [dropLeading?, cons_append, List.cons.injEq]
      split
      · rename_i same
        rw [ih]
        simp [same]
      · rename_i different
        simp [Ne.symm different]

theorem dropLeading?_isSome {pattern cs : List Char} : (dropLeading? pattern cs).isSome ↔ pattern <+: cs := by
  rw [Option.isSome_iff_exists]
  simp only [dropLeading?_eq_some]
  exact ⟨fun ⟨rest, h⟩ => ⟨rest, h.symm⟩, fun ⟨rest, h⟩ => ⟨rest, h.symm⟩⟩

theorem replaceFrom_skip (pattern value : List Char) (skip : Nat) (cs : List Char) :
    replaceFrom pattern value skip cs = replaceFrom pattern value 0 (cs.drop skip) := by
  induction skip generalizing cs with
  | zero => rfl
  | succ skip ih =>
    cases cs with
    | nil => simp [replaceFrom]
    | cons c cs => simp only [replaceFrom, ih, drop_succ_cons]

theorem replaceAll_of_nonempty {k : String} (nonempty : k.toList ≠ []) (v s : String) :
    replaceAll k v s = String.ofList (replaceFrom k.toList v.toList 0 s.toList) := by
  rw [replaceAll, replaceChars, if_neg (by simpa using nonempty)]

variable {pattern cs : List Char} (value : List Char) {c d : Char} {s : String}

@[simp] theorem replaceFrom_nil : replaceFrom pattern value 0 [] = [] := rfl

/-- At an occurrence the value is written, and the text behind the occurrence is next. -/
theorem replaceFrom_append (nonempty : pattern ≠ []) (rest : List Char) :
    replaceFrom pattern value 0 (pattern ++ rest) = value ++ replaceFrom pattern value 0 rest := by
  obtain ⟨p, ps, rfl⟩ := exists_cons_of_ne_nil nonempty
  have found : dropLeading? (p :: ps) (p :: (ps ++ rest)) = some rest := dropLeading?_eq_some.mpr rfl
  rw [cons_append, replaceFrom, found]
  simp [replaceFrom_skip _ _ ps.length]

theorem replaceFrom_cons (absent : ¬ pattern <+: c :: cs) :
    replaceFrom pattern value 0 (c :: cs) = c :: replaceFrom pattern value 0 cs := by
  rw [← dropLeading?_isSome, Bool.not_eq_true, Option.isSome_eq_false_iff, Option.isNone_iff_eq_none]
    at absent
  simp only [replaceFrom, absent]

theorem replaceFrom_self (nonempty : pattern ≠ []) : replaceFrom pattern value 0 pattern = value := by
  have whole := replaceFrom_append value nonempty []
  simpa using whole

theorem replaceFrom_of_not_infix (absent : ¬ pattern <:+: cs) : replaceFrom pattern value 0 cs = cs := by
  induction cs with
  | nil => rfl
  | cons c cs ih =>
    rw [replaceFrom_cons value fun start => absent start.isInfix,
      ih fun inner => absent (inner.trans (suffix_cons c cs).isInfix)]

theorem prefix_of_prefix_split (outside : d ∉ pattern) {before after : List Char}
    (start : pattern <+: before ++ d :: after) : pattern <+: before := by
  rcases prefix_or_prefix_of_prefix start (prefix_append before (d :: after)) with
    inside | ⟨rest, rfl⟩
  · exact inside
  · have across := (prefix_append_right_inj before).mp start
    cases rest with
    | nil => simp
    | cons x rest =>
      obtain ⟨rfl, _⟩ := cons_prefix_cons.mp across
      simp at outside

/-- Texts are gone through as patterns are searched in them: from occurrence to occurrence, else by one character. -/
theorem induction_on_occurrences (nonempty : pattern ≠ []) {motive : List Char → Prop} (nil : motive [])
    (found : ∀ rest, motive rest → motive (pattern ++ rest))
    (cons : ∀ c cs, ¬ pattern <+: c :: cs → motive cs → motive (c :: cs)) (cs : List Char) : motive cs := by
  by_cases start : pattern <+: cs
  · obtain ⟨rest, rfl⟩ := start
    have shorter : rest.length < (pattern ++ rest).length := by
      have := length_pos_iff.mpr nonempty
      rw [length_append]
      omega
    exact found rest (induction_on_occurrences nonempty nil found cons rest)
  · match cs with
    | [] => exact nil
    | c :: cs => exact cons c cs start (induction_on_occurrences nonempty nil found cons cs)
termination_by cs.length

theorem replaceFrom_split (outside : d ∉ pattern) (nonempty : pattern ≠ []) (before after : List Char) :
    replaceFrom pattern value 0 (before ++ d :: after) =
      replaceFrom pattern value 0 before ++ d :: replaceFrom pattern value 0 after := by
  induction before using induction_on_occurrences nonempty with
  | nil =>
    refine replaceFrom_cons value fun start => nonempty ?_
    exact prefix_nil.mp (@prefix_of_prefix_split _ d outside [] after start)
  | found rest ih =>
    rw [append_assoc, replaceFrom_append value nonempty, replaceFrom_append value nonempty, ih, append_assoc]
  | cons c before absent ih =>
    have absent' : ¬ pattern <+: c :: (before ++ d :: after) := fun start =>
      absent (@prefix_of_prefix_split _ d outside (c :: before) after start)
    rw [cons_append, replaceFrom_cons value absent', replaceFrom_cons value absent, ih, cons_append]

/-- A pattern that has its first character only once is searched for separately from that character
on. -/
theorem replaceFrom_head {tail : List Char} (once : c ∉ tail) (before after : List Char) :
    replaceFrom (c :: tail) value 0 (before ++ c :: after) =
      replaceFrom (c :: tail) value 0 before ++ replaceFrom (c :: tail) value 0 (c :: after) := by
  induction before using induction_on_occurrences (cons_ne_nil c tail) with
  | nil => rfl
  | found rest ih =>
    rw [append_assoc, replaceFrom_append value (cons_ne_nil c tail), replaceFrom_append value (cons_ne_nil c tail), ih,
      append_assoc]
  | cons b before absent ih =>
    have absent' : ¬ c :: tail <+: b :: (before ++ c :: after) := fun start => by
      obtain ⟨rfl, inside⟩ := cons_prefix_cons.mp start
      exact absent (cons_prefix_cons.mpr ⟨rfl, prefix_of_prefix_split once inside⟩)
    rw [cons_append, replaceFrom_cons value absent', replaceFrom_cons value absent, ih, cons_append]

theorem replaceFrom_separator {separator : List Char} (outside : ∀ d ∈ separator, d ∉ pattern)
    (nonempty : pattern ≠ []) (separates : separator ≠ []) (before after : List Char) :
    replaceFrom pattern value 0 (before ++ separator ++ after) =
      replaceFrom pattern value 0 before ++ separator ++ replaceFrom pattern value 0 after := by
  induction separator generalizing before with
  | nil => exact absurd rfl separates
  | cons d separator ih =>
    obtain ⟨first, others⟩ := forall_mem_cons.mp outside
    rw [append_assoc, cons_append, replaceFrom_split value first nonempty]
    cases separator with
    | nil => simp
    | cons e separator =>
      have rest := ih others (cons_ne_nil e separator) []
      rw [nil_append] at rest
      rw [rest]
      simp

theorem mem_replaceFrom {skip : ℕ} (mem : c ∈ replaceFrom pattern value skip cs) : c ∈ value ∨ c ∈ cs := by
  induction cs generalizing skip with
  | nil => simp [replaceFrom] at mem
  | cons d cs ih =>
    cases skip with
    | succ skip => exact (ih mem).imp_right (mem_cons_of_mem d)
    | zero =>
      rw [replaceFrom] at mem
      split at mem
      · rcases mem_append.mp mem with new | later
        · exact .inl new
        · exact (ih later).imp_right (mem_cons_of_mem d)
      · rcases mem_cons.mp mem with rfl | later
        · exact .inr mem_cons_self
        · exact (ih later).imp_right (mem_cons_of_mem d)

theorem replaceFrom_blank (cs : List Char) : replaceFrom [' '] [] 0 cs = cs.filter (· != ' ') := by
  induction cs with
  | nil => rfl
  | cons c cs ih =>
    by_cases blank : c = ' '
    · subst blank
      rw [show ' ' :: cs = [' '] ++ cs from rfl, replaceFrom_append [] (by simp), ih]
      simp
    · rw [replaceFrom_cons [] (by simp [Ne.symm blank]), ih]
      simp [blank]

/-! ## Stripping -/

theorem isBlank_of_isDigit (digit : c.isDigit) : isBlank c = false := by
  simp only [Char.isDigit, Bool.and_eq_true, decide_eq_true_eq, ge_iff_le, UInt32.le_iff_toNat_le] at digit
  have low : 48 ≤ c.toNat := digit.1
  have high : c.toNat ≤ 57 := digit.2
  simp only [isBlank, Bool.or_eq_false_iff, Bool.and_eq_false_iff, decide_eq_false_iff_not, beq_eq_false_iff_ne]
  omega

theorem dropWhile_eq_self {p : Char → Bool} (first : ∀ c ∈ cs.head?, p c = false) : cs.dropWhile p = cs := by
  cases cs with
  | nil => rfl
  | cons c cs => exact dropWhile_cons_of_neg (by simp [first c rfl])

theorem strip_eq_self (first : ∀ c ∈ s.toList.head?, isBlank c = false)
    (last : ∀ c ∈ s.toList.getLast?, isBlank c = false) : strip s = s := by
  rw [strip, dropWhile_eq_self first, dropWhile_eq_self (by rwa [List.head?_reverse]), reverse_reverse,
    String.ofList_toList]

theorem stripChars_eq_self {ds : List Char} (absent : ∀ c ∈ s.toList, c ∉ ds) : stripChars ds s = s := by
  have free : ∀ c ∈ s.toList, ds.contains c = false := fun c mem => by simpa using absent c mem
  rw [stripChars, dropWhile_eq_self fun c first => free c (mem_of_mem_head? first),
    dropWhile_eq_self fun c first => free c (mem_reverse.mp (mem_of_mem_head? first)), reverse_reverse,
    String.ofList_toList]

theorem strip_digits (digits : ∀ c ∈ s.toList, c.isDigit) : strip s = s :=
  strip_eq_self (fun c first => isBlank_of_isDigit (digits c (mem_of_mem_head? first)))
    fun c last => isBlank_of_isDigit (digits c (mem_of_mem_getLast? last))

end Supermartingale.Text
