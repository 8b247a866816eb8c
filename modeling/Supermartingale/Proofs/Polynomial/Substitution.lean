import Supermartingale.Proofs.Polynomial.Phrase

/-!
# Writing a sum in place of a name

A phrase in which a name is replaced by a parenthesised sum is a phrase again, with the value that it has where the
name stands for the sum. Replacing the characters of the name does the same if no other name has them. Sums that are
put in for the first names are searched for the later ones, too.
-/

namespace Supermartingale

open List Text Function

/-- A name that texts are searched for. No numeral has its first character. -/
structure IsKey (k : String) : Prop where
  starts : ∃ c cs, k.toList = c :: cs ∧ c ∉ '.' :: 'e' :: '+' :: '-' :: digits
  continues : ∀ c ∈ k.toList, Token.continuesName c

/-- A name is the key or does not contain it. -/
def Apart (k s : String) : Prop := s = k ∨ ¬ k.toList <:+: s.toList

namespace IsKey

variable {k : String} (key : IsKey k)
include key

theorem nonempty : k.toList ≠ [] := by
  obtain ⟨c, cs, chars, _⟩ := key.starts
  rw [chars]
  exact cons_ne_nil c cs

theorem not_mem {c : Char} (sign : Token.continuesName c = false) : c ∉ k.toList := by
  intro mem
  rw [key.continues c mem] at sign
  cases sign

theorem not_infix_numeral {cs : List Char} (chars : ∀ c ∈ cs, c ∈ '.' :: 'e' :: '+' :: '-' :: digits) :
    ¬ k.toList <:+: cs := by
  obtain ⟨c, tail, first, outside⟩ := key.starts
  intro inside
  exact outside (chars c (inside.subset (by rw [first]; exact mem_cons_self)))

end IsKey

namespace Phrase

variable {r : Rank}

def subst : {r : Rank} → Phrase r → String → Phrase .sum → Phrase r
  | _, name s h, k, v => if s = k then group v else name s h
  | _, whole ds h, _, _ => whole ds h
  | _, decimal cs x h, _, _ => decimal cs x h
  | _, group e, k, v => group (e.subst k v)
  | _, lone a, k, v => lone (a.subst k v)
  | _, pow a ds h, k, v => pow (a.subst k v) ds h
  | _, unsigned p, k, v => unsigned (p.subst k v)
  | _, neg f, k, v => neg (f.subst k v)
  | _, single f, k, v => single (f.subst k v)
  | _, mul gap l r, k, v => mul gap (l.subst k v) (r.subst k v)
  | _, div l ds h nonzero, k, v => div (l.subst k v) ds h nonzero
  | _, plain t, k, v => plain (t.subst k v)
  | _, add gap l r, k, v => add gap (l.subst k v) (r.subst k v)
  | _, sub gap l r, k, v => sub gap (l.subst k v) (r.subst k v)

attribute [local simp] subst

section Values

variable {R : Type*} [CommRing R] [Algebra ℚ R]

/-- The value of a substituted phrase is the value where the powers of the name are the powers of the
sum. -/
theorem evalPowers_subst (k : String) (v : Phrase .sum) (values : String → ℕ → R) (p : Phrase r) :
    (p.subst k v).evalPowers values =
      p.evalPowers (update values k fun n => v.evalPowers values ^ n) := by
  induction p with
  | name s h =>
    rw [subst]
    split
    · rename_i same
      simp [evalPowers, same]
    · rename_i different
      simp [evalPowers, update_of_ne different]
  | whole ds h | decimal cs x h => rfl
  | group e ih | lone a ih | unsigned p ih | single f ih | plain t ih => exact ih
  | pow a ds h ih =>
    cases a with
    | name s unknown =>
      rw [subst, subst]
      split
      · rename_i same
        simp [evalPowers, same]
      · rename_i different
        simp [evalPowers, update_of_ne different]
    | whole | decimal | group => exact congrArg (· ^ digitsValue ds) ih
  | neg f ih | div l ds h nonzero ih => simp only [subst, evalPowers, ih]
  | mul gap l r ihl ihr | add gap l r ihl ihr | sub gap l r ihl ihr =>
    simp only [subst, evalPowers, ihl, ihr]

theorem eval_subst (k : String) (v : Phrase .sum) (ρ : String → R) (p : Phrase r) :
    (p.subst k v).tree.eval ρ = p.tree.eval (update ρ k (v.tree.eval ρ)) := by
  rw [← evalPowers_eq_eval, ← evalPowers_eq_eval, evalPowers_subst, evalPowers_eq_eval]
  refine p.evalPowers_congr fun s _ => ?_
  by_cases same : s = k
  · simp [same]
  · simp [update_of_ne same]

end Values

variable {k : String} {p : Phrase r} {entries : List (String × Phrase .sum)}

variable {v : Phrase .sum} {P : String → List Char → Prop}

theorem isExact_subst (value : v.isExact) (exact : p.isExact) : (p.subst k v).isExact := by
  induction p with
  | name s h =>
    rw [subst]
    split
    · exact value
    · rfl
  | whole ds h => rfl
  | decimal cs x h => cases exact
  | group e ih | lone a ih | unsigned p ih | single f ih | plain t ih | neg f ih | pow a ds h ih
  | div l ds h nonzero ih => exact ih exact
  | mul gap l r ihl ihr | add gap l r ihl ihr | sub gap l r ihl ihr =>
    rw [isExact, Bool.and_eq_true] at exact
    simp only [subst, isExact, ihl exact.1, ihr exact.2, Bool.and_self]

/-- The names of a substituted phrase are others than the key, or names of the sum. -/
theorem names_subst {s : String} (mem : s ∈ (p.subst k v).names) : (s ∈ p.names ∧ s ≠ k) ∨ s ∈ v.names := by
  induction p with
  | name t h =>
    rw [subst] at mem
    split at mem
    · exact .inr mem
    · rename_i different
      cases mem_singleton.mp mem
      exact .inl ⟨mem_singleton_self s, different⟩
  | whole ds h | decimal cs x h => cases mem
  | group e ih | lone a ih | unsigned p ih | single f ih | plain t ih | neg f ih | pow a ds h ih
  | div l ds h nonzero ih => exact ih mem
  | mul gap l r ihl ihr | add gap l r ihl ihr | sub gap l r ihl ihr =>
    simp only [subst, names, mem_append] at mem ⊢
    rcases mem with left | right
    · rcases ihl left with ⟨old, different⟩ | new
      · exact .inl ⟨.inl old, different⟩
      · exact .inr new
    · rcases ihr right with ⟨old, different⟩ | new
      · exact .inl ⟨.inr old, different⟩
      · exact .inr new

theorem forall_names_subst {known : String → Prop} (value : ∀ s ∈ v.names, known s) (names : ∀ s ∈ p.names, known s) :
    ∀ s ∈ (p.subst k v).names, known s := by
  intro s mem
  rcases names_subst mem with ⟨old, _⟩ | new
  · exact names s old
  · exact value s new

theorem allPowers_subst (value : v.AllPowers P) (h : p.AllPowers fun s ds => s ≠ k → P s ds) :
    (p.subst k v).AllPowers P := by
  induction p with
  | name s unknown =>
    rw [subst]
    split
    · exact value
    · trivial
  | whole | decimal => trivial
  | group e ih | lone a ih | unsigned p ih | neg f ih | single f ih | plain t ih | div l ds h nonzero ih =>
    exact ih h
  | pow a ds _ ih =>
    cases a with
    | name s unknown =>
      rw [subst, subst]
      split
      · exact value
      · rename_i different
        exact h different
    | whole | decimal => trivial
    | group e => exact ih h
  | mul gap l r ihl ihr | add gap l r ihl ihr | sub gap l r ihl ihr => exact ⟨ihl h.1, ihr h.2⟩

/-! ## Replacing the characters of a name -/

def enclosed (v : Phrase .sum) : List Char := '(' :: (v.chars ++ [')'])

theorem toList_enclosed (v : Phrase .sum) : ("(" ++ v.text ++ ")").toList = v.enclosed := by
  simp [enclosed, text]

theorem replaceFrom_signs (key : IsKey k) (value signs : List Char)
    (outside : ∀ c ∈ signs, Token.continuesName c = false) (nonempty : signs ≠ []) (before after : List Char) :
    replaceFrom k.toList value 0 (before ++ signs ++ after) =
      replaceFrom k.toList value 0 before ++ signs ++ replaceFrom k.toList value 0 after :=
  replaceFrom_separator value (fun c mem => key.not_mem (outside c mem)) key.nonempty
    nonempty before after

theorem continuesName_joint (gap : ℕ) {sign : Char} (h : Token.continuesName sign = false) :
    ∀ c ∈ joint gap sign, Token.continuesName c = false := by
  intro c mem
  simp only [joint, mem_append, mem_cons, mem_replicate] at mem
  rcases mem with ⟨_, rfl⟩ | rfl | ⟨_, rfl⟩
  · decide
  · exact h
  · decide

theorem joint_ne_nil (gap : ℕ) (sign : Char) : joint gap sign ≠ [] := by simp [joint]

theorem replaceFrom_whole (key : IsKey k) (value : List Char) {ds : List Char}
    (h : SpellsWhole ds) : replaceFrom k.toList value 0 ds = ds := by
  refine replaceFrom_of_not_infix _ (key.not_infix_numeral fun c mem => ?_)
  simp [mem_digits (h.digits c mem)]

/-- Replacing the characters of a key writes the sum in place of the name, if all other names of the
phrase are free of the key. -/
theorem chars_subst (key : IsKey k) (v : Phrase .sum) (p : Phrase r) (apart : ∀ s ∈ p.names, Apart k s) :
    (p.subst k v).chars = replaceFrom k.toList v.enclosed 0 p.chars := by
  induction p with
  | name s h =>
    rw [subst]
    rcases apart s (mem_singleton_self s) with rfl | absent
    · rw [if_pos rfl, chars, chars, replaceFrom_self _ key.nonempty, enclosed]
    · rw [if_neg, chars, replaceFrom_of_not_infix _ absent]
      rintro rfl
      exact absent (infix_refl _)
  | whole ds h => exact (replaceFrom_whole key _ h).symm
  | decimal cs x h => exact (Text.replaceFrom_of_not_infix _ (key.not_infix_numeral h.chars)).symm
  | group e ih =>
    have opening := replaceFrom_signs key v.enclosed ['('] (by decide) (by simp) []
      (e.chars ++ [')'])
    have closing := replaceFrom_signs key v.enclosed [')'] (by decide) (by simp) e.chars []
    simp only [nil_append, singleton_append, append_nil, replaceFrom_nil] at opening closing
    rw [subst, chars, chars, opening, closing, ih apart]
  | lone a ih | unsigned p ih | single f ih | plain t ih => exact ih apart
  | pow a ds h ih =>
    have power := replaceFrom_signs key v.enclosed ['*', '*'] (by decide) (by simp) a.chars ds
    simp only [append_assoc, cons_append, nil_append] at power
    rw [subst, chars, chars, power, replaceFrom_whole key _ h, ih apart]
  | neg f ih =>
    have sign := replaceFrom_signs key v.enclosed ['-'] (by decide) (by simp) [] f.chars
    simp only [nil_append, singleton_append, replaceFrom_nil] at sign
    rw [subst, chars, chars, sign, ih apart]
  | div l ds h nonzero ih =>
    have quotient := replaceFrom_signs key v.enclosed ['/'] (by decide) (by simp) l.chars ds
    simp only [append_assoc, singleton_append] at quotient
    rw [subst, chars, chars, quotient, replaceFrom_whole key _ h, ih apart]
  | mul gap l r ihl ihr | add gap l r ihl ihr | sub gap l r ihl ihr =>
    simp only [names, forall_mem_append] at apart
    rw [subst, chars, chars, replaceFrom_signs key _ _ (continuesName_joint gap (by decide))
      (joint_ne_nil gap _), ihl apart.1, ihr apart.2]

/-! ## Several names one after the other -/

theorem replaceAll_text (key : IsKey k) (v p : Phrase .sum) (apart : ∀ s ∈ p.names, Apart k s) :
    replaceAll k ("(" ++ v.text ++ ")") p.text = (p.subst k v).text := by
  rw [replaceAll_of_nonempty key.nonempty, toList_enclosed, text, text, String.toList_ofList,
    chars_subst key v p apart]

def substAll (entries : List (String × Phrase .sum)) (p : Phrase r) : Phrase r :=
  entries.foldl (fun p (k, v) => p.subst k v) p

/-- The values of names after sums have been written in place of some of them one after the other: a
sum takes the values that the later replacements leave. -/
def sequential {R : Type*} [CommRing R] [Algebra ℚ R] (ρ : String → R) :
    List (String × Phrase .sum) → String → R
  | [] => ρ
  | (k, v) :: rest => update (sequential ρ rest) k (v.tree.eval (sequential ρ rest))

theorem eval_substAll {R : Type*} [CommRing R] [Algebra ℚ R] (ρ : String → R)
    (entries : List (String × Phrase .sum)) (p : Phrase r) :
    (p.substAll entries).tree.eval ρ = p.tree.eval (sequential ρ entries) := by
  induction entries generalizing p with
  | nil => rfl
  | cons entry rest ih =>
    obtain ⟨k, v⟩ := entry
    rw [sequential, ← eval_subst]
    exact ih (p.subst k v)

theorem evalPowers_substAll {R : Type*} [CommRing R] [Algebra ℚ R] (values : String → ℕ → R)
    (free : ∀ v ∈ entries, ∀ w ∈ entries, w.1 ∉ v.2.names) (p : Phrase r) :
    (p.substAll entries).evalPowers values = p.evalPowers fun s =>
      match entries.lookup s with
      | some v => fun n => v.evalPowers values ^ n
      | none => values s := by
  induction entries generalizing p with
  | nil => rfl
  | cons entry rest ih =>
    obtain ⟨k, v⟩ := entry
    have later : ∀ v ∈ rest, ∀ w ∈ rest, w.1 ∉ v.2.names := fun v inside w other =>
      free v (mem_cons_of_mem _ inside) w (mem_cons_of_mem _ other)
    refine (ih later (p.subst k v)).trans ?_
    rw [evalPowers_subst]
    refine p.evalPowers_congr fun s _ => ?_
    -- no name of the sum is replaced later on
    have unchanged : (v.evalPowers fun s => match rest.lookup s with
        | some v => fun n => v.evalPowers values ^ n
        | none => values s) = v.evalPowers values := by
      refine v.evalPowers_congr fun t name => ?_
      have absent : rest.lookup t = none := by
        rw [lookup_eq_none_iff]
        rintro w other
        rw [bne_iff_ne]
        rintro rfl
        exact free _ mem_cons_self w (mem_cons_of_mem _ other) name
      rw [absent]
    by_cases same : s = k
    · subst same
      simp [unchanged]
    · simp [lookup_cons, update_of_ne same, beq_eq_false_iff_ne.mpr same]

theorem allPowers_substAll (values : ∀ v ∈ entries, v.2.AllPowers P) (h : p.AllPowers P) :
    (p.substAll entries).AllPowers P :=
  List.foldlRecOn entries _ h fun _ h v mem => allPowers_subst (values v mem) (h.imp fun _ _ holds _ => holds)

theorem isExact_substAll (values : ∀ v ∈ entries, v.2.isExact) (exact : p.isExact) : (p.substAll entries).isExact :=
  List.foldlRecOn (motive := fun q : Phrase r => q.isExact) entries _ exact
    fun _ exact v mem => isExact_subst (values v mem) exact

theorem names_substAll (known : String → Prop)
    (values : ∀ v ∈ entries, ∀ s ∈ v.2.names, known s) (names : ∀ s ∈ p.names, known s) :
    ∀ s ∈ (p.substAll entries).names, known s :=
  List.foldlRecOn (motive := fun q : Phrase r => ∀ s ∈ q.names, known s) entries _ names
    fun _ names v mem => forall_names_subst (values v mem) names

/-- Replacing the characters of keys one after the other writes sums in place of names, if all names
that come up are apart from all keys. -/
theorem substituteText_text (known : String → Prop) (keys : ∀ v ∈ entries, IsKey v.1 ∧ ∀ s, known s → Apart v.1 s)
    (values : ∀ v ∈ entries, ∀ s ∈ v.2.names, known s) {p : Phrase .sum} (names : ∀ s ∈ p.names, known s) :
    Equation.substituteText (entries.map fun v => (v.1, v.2.text)) p.text =
      (p.substAll entries).text := by
  induction entries generalizing p with
  | nil => rfl
  | cons entry rest ih =>
    obtain ⟨⟨key, apart⟩, otherKeys⟩ := forall_mem_cons.mp keys
    obtain ⟨value, otherValues⟩ := forall_mem_cons.mp values
    have first := replaceAll_text key entry.2 p fun s mem => apart s (names s mem)
    rw [Equation.substituteText, map_cons, foldl_cons]
    dsimp only
    rw [first]
    exact ih otherKeys otherValues (forall_names_subst value names)

/-! ## Taking out the blanks -/

def unblank : {r : Rank} → Phrase r → Phrase r
  | _, name s h => name s h
  | _, whole ds h => whole ds h
  | _, decimal cs x h => decimal cs x h
  | _, group e => group e.unblank
  | _, lone a => lone a.unblank
  | _, pow a ds h => pow a.unblank ds h
  | _, unsigned p => unsigned p.unblank
  | _, neg f => neg f.unblank
  | _, single f => single f.unblank
  | _, mul _ l r => mul 0 l.unblank r.unblank
  | _, div l ds h nonzero => div l.unblank ds h nonzero
  | _, plain t => plain t.unblank
  | _, add _ l r => add 0 l.unblank r.unblank
  | _, sub _ l r => sub 0 l.unblank r.unblank

attribute [local simp] unblank

/-- Blanks make no difference to the names of a phrase and their exponents. -/
theorem unblank_spec (p : Phrase r) :
    p.unblank.names = p.names ∧ p.unblank.isExact = p.isExact ∧ ∀ P, p.AllPowers P → p.unblank.AllPowers P := by
  induction p with
  | name | whole | decimal => exact ⟨rfl, rfl, fun _ => id⟩
  | group e ih | lone a ih | unsigned p ih | neg f ih | single f ih | plain t ih | div l ds h nonzero ih => exact ih
  | pow a ds h ih =>
    refine ⟨ih.1, ih.2.1, ?_⟩
    cases a with
    | name | whole | decimal => exact fun _ => id
    | group e => exact ih.2.2
  | mul gap l r ihl ihr | add gap l r ihl ihr | sub gap l r ihl ihr =>
    refine ⟨?_, ?_, fun P h => ⟨ihl.2.2 P h.1, ihr.2.2 P h.2⟩⟩
    · simp only [unblank, names, ihl.1, ihr.1]
    · simp only [unblank, isExact, ihl.2.1, ihr.2.1]

theorem evalPowers_unblank {R : Type*} [CommRing R] [Algebra ℚ R] (values : String → ℕ → R)
    (p : Phrase r) : p.unblank.evalPowers values = p.evalPowers values := by
  induction p with
  | name s h | whole ds h | decimal cs x h => rfl
  | group e ih | lone a ih | unsigned p ih | single f ih | plain t ih => exact ih
  | pow a ds h ih =>
    cases a with
    | name s unknown => rfl
    | whole | decimal | group => exact congrArg (· ^ digitsValue ds) ih
  | neg f ih | div l ds h nonzero ih => simp only [unblank, evalPowers, ih]
  | mul gap l r ihl ihr | add gap l r ihl ihr | sub gap l r ihl ihr =>
    simp only [unblank, evalPowers, ihl, ihr]

theorem filter_of_visible {cs : List Char} (visible : ' ' ∉ cs) : cs.filter (· != ' ') = cs := by
  refine filter_eq_self.mpr fun c mem => bne_iff_ne.mpr ?_
  rintro rfl
  exact visible mem

theorem filter_joint (gap : ℕ) {sign : Char} (h : sign ≠ ' ') :
    (joint gap sign).filter (· != ' ') = joint 0 sign := by
  simp [joint, h]

theorem blank_not_mem_whole {ds : List Char} (h : SpellsWhole ds) : ' ' ∉ ds :=
  fun mem => absurd (h.digits ' ' mem) (by decide)

theorem chars_unblank (p : Phrase r) : p.unblank.chars = p.chars.filter (· != ' ') := by
  induction p with
  | name s h => exact (filter_of_visible fun mem => absurd (h.continues ' ' mem) (by decide)).symm
  | whole ds h => exact (filter_of_visible (blank_not_mem_whole h)).symm
  | decimal cs x h =>
    exact (filter_of_visible fun mem => absurd (h.chars ' ' mem) (by decide)).symm
  | lone a ih | unsigned p ih | single f ih | plain t ih => exact ih
  | group e ih | neg f ih => simp [unblank, chars, ih]
  | pow a ds h ih | div l ds h nonzero ih =>
    simp [unblank, chars, ih, filter_of_visible (blank_not_mem_whole h)]
  | mul gap l r ihl ihr | add gap l r ihl ihr | sub gap l r ihl ihr =>
    rw [unblank, chars, chars, filter_append, filter_append, filter_joint gap (by decide), ihl, ihr]

end Phrase

end Supermartingale
