import Supermartingale.Proofs.Polynomial.Substitution
import Supermartingale.Text.Substitution

/-!
# Putting numbers in for the powers of a variable

A table gives numbers for a variable and for some of its powers. Replacing its keys in the text of a phrase
puts a number in for every power of the variable, and the result is a phrase again.
-/

namespace Supermartingale.Text

open List

/-! ## Passes -/

variable {table : List (List Char × List Char)}

/-- The table has keys, and all of them start with some characters. -/
structure StartWith (table : List (List Char × List Char)) (start : List Char) : Prop where
  nonempty : start ≠ []
  keys : ∀ entry ∈ table, start <+: entry.1

theorem replaceFirstFrom_skip (table : List (List Char × List Char)) (skip : ℕ) (cs : List Char) :
    replaceFirstFrom table skip cs = replaceFirstFrom table 0 (cs.drop skip) := by
  induction skip generalizing cs with
  | zero => rfl
  | succ skip ih =>
    cases cs with
    | nil => simp [replaceFirstFrom]
    | cons c cs => simp only [replaceFirstFrom, ih, drop_succ_cons]

variable {start : List Char} (h : StartWith table start)
include h

theorem StartWith.firstKey?_eq_none {cs : List Char} (absent : ¬ start <+: cs) :
    firstKey? table false cs = none := by
  rw [firstKey?, List.find?_eq_none]
  intro entry mem found
  simp only [Bool.false_and, Bool.not_false, Bool.and_true, dropLeading?_isSome] at found
  exact absent ((h.keys entry mem).trans found)

theorem replaceFirstFrom_nil : replaceFirstFrom table 0 [] = [] := by
  rw [replaceFirstFrom, h.firstKey?_eq_none (by simpa using h.nonempty)]
  rfl

theorem replaceFirstFrom_cons {c : Char} {cs : List Char} (absent : ¬ start <+: c :: cs) :
    replaceFirstFrom table 0 (c :: cs) = c :: replaceFirstFrom table 0 cs := by
  rw [replaceFirstFrom, h.firstKey?_eq_none absent]

theorem replaceFirstFrom_key (key value rest : List Char)
    (found : firstKey? table false (key ++ rest) = some (key, value)) :
    replaceFirstFrom table 0 (key ++ rest) = value ++ replaceFirstFrom table 0 rest := by
  have start := h.keys _ (mem_of_find?_eq_some found)
  cases key with
  | nil => exact absurd (prefix_nil.mp start) h.nonempty
  | cons k key =>
    rw [cons_append] at found ⊢
    rw [replaceFirstFrom, found]
    simp [replaceFirstFrom_skip table key.length]

theorem replaceFirstFrom_part {part rest : List Char}
    (absent : ∀ later, later <:+ part → later ≠ [] → ¬ start <+: later ++ rest) :
    replaceFirstFrom table 0 (part ++ rest) = part ++ replaceFirstFrom table 0 rest := by
  induction part with
  | nil => rfl
  | cons c part ih =>
    have here : ¬ start <+: c :: (part ++ rest) := absent (c :: part) (suffix_refl _) (cons_ne_nil c part)
    rw [cons_append, replaceFirstFrom_cons h here,
      ih fun later inside => absent later (inside.trans (suffix_cons c part)), cons_append]

end Supermartingale.Text

/-! ## Filled texts -/

namespace Supermartingale

open List

/-- The values of powers where those of one variable are numbers of their own. -/
def weighted (v : String) (weight : ℕ → ℚ) (ρ : String → ℝ) (s : String) (n : ℕ) : ℝ :=
  if s = v then weight n else ρ s ^ n

/-- A table all of whose keys start with a variable. -/
structure Searched (v : String) (table : List (List Char × List Char)) : Prop where
  key : IsKey v
  starts : Text.StartWith table v.toList

namespace Searched

variable {v : String} {table : List (List Char × List Char)} (searched : Searched v table)
include searched

theorem kept (part : List Char)
    (other : ∀ c ∈ part, Token.continuesName c = false ∨ c ∈ '.' :: 'e' :: '+' :: '-' :: digits)
    (rest : List Char) : Text.replaceFirstFrom table 0 (part ++ rest) =
      part ++ Text.replaceFirstFrom table 0 rest := by
  obtain ⟨c, cs, chars, outside⟩ := searched.key.starts
  refine Text.replaceFirstFrom_part searched.starts fun later inside nonempty start => ?_
  obtain ⟨d, ds, rfl⟩ := exists_cons_of_ne_nil nonempty
  rw [chars, cons_append, cons_prefix_cons] at start
  obtain ⟨rfl, _⟩ := start
  rcases other c (inside.subset mem_cons_self) with sign | numeral
  · have continues := searched.key.continues c (by rw [chars]; exact mem_cons_self)
    rw [sign] at continues
    cases continues
  · exact outside numeral

theorem kept_exponent {ds : List Char} (h : SpellsWhole ds) (rest : List Char) :
    Text.replaceFirstFrom table 0 ('*' :: '*' :: (ds ++ rest)) =
      '*' :: '*' :: (ds ++ Text.replaceFirstFrom table 0 rest) := by
  refine searched.kept ('*' :: '*' :: ds) ?_ rest
  simp only [forall_mem_cons]
  exact ⟨.inl (by decide), .inl (by decide), fun c mem => .inr (by simp [mem_digits (h.digits c mem)])⟩

theorem kept_name {s : String} (absent : ¬ v.toList <:+: s.toList) {rest : List Char}
    (ends : Ends rest) : Text.replaceFirstFrom table 0 (s.toList ++ rest) =
      s.toList ++ Text.replaceFirstFrom table 0 rest := by
  refine Text.replaceFirstFrom_part searched.starts fun later inside _ start => ?_
  have within : v.toList <+: later := by
    cases rest with
    | nil => simpa using start
    | cons d rest =>
      refine Text.prefix_of_prefix_split (searched.key.not_mem ?_) start
      exact (by decide : ∀ c ∈ enders, Token.continuesName c = false) d (ends d rfl)
  exact absent (within.isInfix.trans inside.isInfix)

end Searched

/-- What a table does to a variable and its powers: a number is put in for each of them. Only powers
with some digits are looked at. -/
structure Filling (v : String) (table : List (List Char × List Char)) (weight : ℕ → ℚ)
    (looked : List Char → Prop) : Prop extends Searched v table where
  first : ∃ q : Phrase .factor, q.names = [] ∧ q.tree.number = weight 1 ∧
    ∀ rest, Ends rest → ¬ ['*', '*'] <+: rest →
      Text.replaceFirstFrom table 0 (v.toList ++ rest) = q.chars ++ Text.replaceFirstFrom table 0 rest
  power : ∀ ds, SpellsWhole ds → looked ds →
    ∃ q : Phrase .factor, q.names = [] ∧ q.tree.number = weight (digitsValue ds) ∧
      ∀ rest, Ends rest → Text.replaceFirstFrom table 0 (v.toList ++ '*' :: '*' :: (ds ++ rest)) =
        q.chars ++ Text.replaceFirstFrom table 0 rest

namespace Filling

variable {v : String} {table : List (List Char × List Char)} {weight : ℕ → ℚ} {looked : List Char → Prop}
  (filling : Filling v table weight looked) {ds : List Char} {a : Phrase .atom} {sign : Char} {r : Rank}

theorem congr (filling : Filling v table weight looked) {weight' : ℕ → ℚ} {looked' : List Char → Prop}
    (one : weight 1 = weight' 1)
    (powers : ∀ ds, looked' ds → looked ds ∧ weight (digitsValue ds) = weight' (digitsValue ds)) :
    Filling v table weight' looked' where
  toSearched := filling.toSearched
  first := one ▸ filling.first
  power := by
    intro ds h inside
    obtain ⟨before, same⟩ := powers ds inside
    exact same ▸ filling.power ds h before

/-- A phrase is filled by another one: this is what becomes of its text in front of some texts, and the
values agree. -/
def Fills (v : String) (table : List (List Char × List Char)) (weight : ℕ → ℚ)
    (stop : List Char → Prop) {r r' : Rank} (p : Phrase r) (q : Phrase r') : Prop :=
  (∀ rest, stop rest → Text.replaceFirstFrom table 0 (p.chars ++ rest) =
    q.chars ++ Text.replaceFirstFrom table 0 rest) ∧
  ∀ ρ : String → ℝ, q.tree.eval ρ = p.evalPowers (weighted v weight ρ)

def Stop (rest : List Char) : Prop := Ends rest ∧ ¬ ['*', '*'] <+: rest

/-- What becomes of a phrase. An atom other than the variable stays an atom, since an exponent may
follow it; what is put in for a power can have a sign. -/
def Fillable (v : String) (table : List (List Char × List Char)) (weight : ℕ → ℚ) :
    {r : Rank} → Phrase r → Prop
  | .atom, a => (∃ h, a = .name v h) ∨ ∃ q : Phrase .atom, Fills v table weight Ends a q
  | .power, p => ∃ q : Phrase .factor, Fills v table weight Stop p q
  | .factor, p => ∃ q : Phrase .factor, Fills v table weight Stop p q
  | .term, p => ∃ q : Phrase .term, Fills v table weight Stop p q
  | .sum, p => ∃ q : Phrase .sum, Fills v table weight Stop p q

theorem stop_joint (gap : ℕ) (operator : sign ∈ ['+', '-', '*'])
    (p : Phrase r) (rest : List Char) : Stop (Phrase.joint gap sign ++ (p.chars ++ rest)) := by
  refine ⟨Phrase.ends_joint gap ((by decide : ∀ c ∈ ['+', '-', '*'], c ∈ enders) sign operator) _, fun exponent => ?_⟩
  cases gap with
  | zero =>
    obtain ⟨c, cs, chars, _⟩ := p.head_chars
    have other := p.head?_chars rest
    simp only [Phrase.joint, replicate_zero, nil_append, cons_append, chars] at exponent other
    obtain ⟨_, behind⟩ := cons_prefix_cons.mp exponent
    exact (other c rfl).1 (cons_prefix_cons.mp behind).1.symm
  | succ gap =>
    rw [Phrase.joint, replicate_succ, cons_append, cons_append, cons_prefix_cons] at exponent
    exact absurd exponent.1 (by decide)

include filling

theorem fillable_name {s : String} (h : IsUnknown s) (apart : Apart v s) :
    Fillable v table weight (.name s h) := by
  rcases apart with rfl | absent
  · exact .inl ⟨h, rfl⟩
  · have different : s ≠ v := by
      rintro rfl
      exact absent (infix_refl _)
    refine .inr ⟨.name s h, fun rest ends => filling.kept_name absent ends, fun ρ => ?_⟩
    simp [Phrase.tree, Expression.eval, Phrase.evalPowers, weighted, different]

theorem fillable_whole (h : SpellsWhole ds) : Fillable v table weight (.whole ds h) := by
  refine .inr ⟨.whole ds h, fun rest _ => filling.kept _ (fun c mem => ?_) rest, fun _ => rfl⟩
  exact .inr (by simp [mem_digits (h.digits c mem)])

theorem fillable_decimal {cs : List Char} {x : Numeral} (h : SpellsDecimal cs x) :
    Fillable v table weight (.decimal cs x h) :=
  .inr ⟨.decimal cs x h, fun rest _ => filling.kept _ (fun c mem => .inr (h.chars c mem)) rest, fun _ => rfl⟩

theorem fillable_group {e : Phrase .sum} (h : Fillable v table weight e) : Fillable v table weight (.group e) := by
  obtain ⟨q, text, value⟩ := h
  refine .inr ⟨.group q, fun rest _ => ?_, value⟩
  have opening := filling.kept ['('] (by decide) (e.chars ++ ')' :: rest)
  have closing := filling.kept [')'] (by decide) rest
  have inner := text (')' :: rest) ⟨ends_cons (by decide) rest, by simp⟩
  simp only [cons_append, nil_append] at opening closing
  simp only [Phrase.chars, cons_append, append_assoc, nil_append]
  rw [opening, inner, closing]

theorem fillable_lone (h : Fillable v table weight a) : Fillable v table weight (.lone a) := by
  rcases h with ⟨unknown, rfl⟩ | ⟨q, text, value⟩
  · obtain ⟨q, closed, number, text⟩ := filling.first
    refine ⟨q, fun rest stop => text rest stop.1 stop.2, fun ρ => ?_⟩
    rw [q.eval_of_closed closed, number]
    simp [Phrase.evalPowers, weighted]
  · exact ⟨.unsigned (.lone q), fun rest stop => text rest stop.1, value⟩

theorem fillable_pow (h : SpellsWhole ds) (apart : ∀ s ∈ a.names, Apart v s)
    (powers : (Phrase.pow a ds h).AllPowers fun s ds => s = v → looked ds)
    (ih : Fillable v table weight a) : Fillable v table weight (.pow a ds h) := by
  -- behind an atom that is not a name an exponent stays an exponent
  have other (q : Phrase .atom) (fills : Fills v table weight Ends a q)
      (power : ∀ ρ : String → ℝ, (Phrase.pow a ds h).evalPowers (weighted v weight ρ) =
        a.evalPowers (weighted v weight ρ) ^ digitsValue ds) :
      Fillable v table weight (.pow a ds h) := by
    refine ⟨.unsigned (.pow q ds h), fun rest _ => ?_, fun ρ => ?_⟩
    · have atom := fills.1 ('*' :: '*' :: (ds ++ rest)) (ends_cons (by decide) _)
      simp only [Phrase.chars, append_assoc, cons_append]
      rw [atom, filling.kept_exponent h]
    · rw [power, ← fills.2]
      simp [Phrase.tree, Expression.eval, Expression.number]
  cases a with
  | name s unknown =>
    rcases apart s (mem_singleton_self s) with rfl | absent
    · obtain ⟨q, closed, number, text⟩ := filling.power ds h (powers rfl)
      refine ⟨q, fun rest stop => ?_, fun ρ => ?_⟩
      · simp only [Phrase.chars, append_assoc, cons_append]
        exact text rest stop.1
      · rw [q.eval_of_closed closed, number]
        simp [Phrase.evalPowers, weighted]
    · have different : s ≠ v := by
        rintro rfl
        exact absent (infix_refl _)
      refine other (.name s unknown) ⟨fun rest ends => filling.kept_name absent ends, fun ρ => ?_⟩
        fun ρ => ?_
      · simp [Phrase.tree, Expression.eval, Phrase.evalPowers, weighted, different]
      · simp [Phrase.evalPowers, weighted, different]
  | whole | decimal | group =>
    rcases ih with ⟨_, impossible⟩ | ⟨q, fills⟩
    · cases impossible
    · exact other q fills fun ρ => rfl

theorem fillable_neg {f : Phrase .factor} (h : Fillable v table weight f) : Fillable v table weight (.neg f) := by
  obtain ⟨q, text, value⟩ := h
  refine ⟨.neg q, fun rest stop => ?_, fun ρ => ?_⟩
  · have sign := filling.kept ['-'] (by decide) (f.chars ++ rest)
    simp only [cons_append, nil_append] at sign
    simp only [Phrase.chars, cons_append]
    rw [sign, text rest stop]
  · rw [Phrase.tree, Expression.eval, value, Phrase.evalPowers]

theorem fills_joint {l r' : Rank} {p q : Phrase l} {p' q' : Phrase r'} (gap : ℕ)
    (operator : sign ∈ ['+', '-', '*']) (left : Fills v table weight Stop p q)
    (right : Fills v table weight Stop p' q') (rest : List Char) (stop : Stop rest) :
    Text.replaceFirstFrom table 0 (p.chars ++ Phrase.joint gap sign ++ p'.chars ++ rest) =
      q.chars ++ Phrase.joint gap sign ++ q'.chars ++ Text.replaceFirstFrom table 0 rest := by
  have outside : ∀ c ∈ Phrase.joint gap sign,
      Token.continuesName c = false ∨ c ∈ '.' :: 'e' :: '+' :: '-' :: digits :=
    fun c mem => .inl (Phrase.continuesName_joint gap
      ((by decide : ∀ c ∈ ['+', '-', '*'], Token.continuesName c = false) sign operator) c mem)
  rw [append_assoc, append_assoc, left.1 _ (stop_joint gap operator p' rest), filling.kept _ outside, right.1 rest stop]
  simp only [append_assoc]

theorem fillable_div {t : Phrase .term} (h : SpellsWhole ds)
    (nonzero : digitsValue ds ≠ 0) (left : Fillable v table weight t) :
    Fillable v table weight (.div t ds h nonzero) := by
  obtain ⟨q, text, value⟩ := left
  refine ⟨.div q ds h nonzero, fun rest _ => ?_, fun ρ => ?_⟩
  · have quotient := filling.kept ('/' :: ds) (forall_mem_cons.mpr ⟨.inl (by decide),
      fun c mem => .inr (by simp [mem_digits (h.digits c mem)])⟩) rest
    have numerator := text ('/' :: (ds ++ rest)) ⟨ends_cons (by decide) _, by simp⟩
    simp only [cons_append] at quotient
    simp only [Phrase.chars, append_assoc, cons_append]
    rw [numerator, quotient]
  · rw [Phrase.tree, Expression.eval, value, Phrase.evalPowers, Expression.number]

/-- Every phrase whose names are apart from the variable and whose powers of it are looked at can be
filled. -/
theorem fillable (p : Phrase r) (apart : ∀ s ∈ p.names, Apart v s)
    (powers : p.AllPowers fun s ds => s = v → looked ds) : Fillable v table weight p := by
  induction p with
  | name s h => exact filling.fillable_name h (apart s (mem_singleton_self s))
  | whole ds h => exact filling.fillable_whole h
  | decimal cs x h => exact filling.fillable_decimal h
  | group e ih => exact filling.fillable_group (ih apart powers)
  | lone a ih => exact filling.fillable_lone (ih apart powers)
  | pow a ds h ih =>
    refine filling.fillable_pow h apart powers (ih apart ?_)
    cases a with
    | name | whole | decimal => trivial
    | group e => exact powers
  | unsigned p ih => exact ih apart powers
  | neg f ih => exact filling.fillable_neg (ih apart powers)
  | single f ih =>
    obtain ⟨q, fills⟩ := ih apart powers
    exact ⟨.single q, fills⟩
  | plain t ih =>
    obtain ⟨q, fills⟩ := ih apart powers
    exact ⟨.plain q, fills⟩
  | div t ds h nonzero ih => exact filling.fillable_div h nonzero (ih apart powers)
  | mul gap l r ihl ihr | add gap l r ihl ihr | sub gap l r ihl ihr =>
    simp only [Phrase.names, forall_mem_append] at apart
    obtain ⟨q, left⟩ := ihl apart.1 powers.1
    obtain ⟨q', right⟩ := ihr apart.2 powers.2
    have joined := fun {sign} (operator : sign ∈ ['+', '-', '*']) => filling.fills_joint gap operator left right
    first
      | refine ⟨.mul gap q q', joined (by decide), fun ρ => ?_⟩
      | refine ⟨.add gap q q', joined (by decide), fun ρ => ?_⟩
      | refine ⟨.sub gap q q', joined (by decide), fun ρ => ?_⟩
    rw [Phrase.tree, Expression.eval, left.2, right.2, Phrase.evalPowers]

/-- Replacing the keys of the table in the text of a sum gives the text of a sum, whose value is that of
the first one with the numbers of the table for the powers of the variable. -/
theorem exists_filled (p : Phrase .sum) (apart : ∀ s ∈ p.names, Apart v s)
    (powers : p.AllPowers fun s ds => s = v → looked ds) :
    ∃ q : Phrase .sum, q.chars = Text.replaceFirstFrom table 0 p.chars ∧
      ∀ ρ : String → ℝ, q.tree.eval ρ = p.evalPowers (weighted v weight ρ) := by
  obtain ⟨q, text, value⟩ := filling.fillable p apart powers
  have whole := text [] ⟨ends_nil, by simp⟩
  rw [append_nil, Text.replaceFirstFrom_nil filling.starts, append_nil] at whole
  exact ⟨q, whole.symm, value⟩

omit filling in
theorem exists_replaced {entries : Text.Table}
    (filling : Filling v (entries.map fun (k, v) => (k.toList, v.toList)) weight looked)
    (nonempty : entries ≠ []) (p : Phrase .sum) (apart : ∀ s ∈ p.names, Apart v s)
    (powers : p.AllPowers fun s ds => s = v → looked ds) :
    ∃ q : Phrase .sum, Text.replaceFirst entries p.text = .ok q.text ∧
      ∀ ρ : String → ℝ, q.tree.eval ρ = p.evalPowers (weighted v weight ρ) := by
  obtain ⟨q, chars, value⟩ := filling.exists_filled p apart powers
  refine ⟨q, ?_, value⟩
  rw [Text.replaceFirst, if_neg (by simpa using nonempty), Phrase.text, Phrase.text, chars]
  simp only [String.toList_ofList]

end Filling

end Supermartingale
