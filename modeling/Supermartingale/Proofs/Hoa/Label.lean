import Supermartingale.Proofs.Hoa.Words

/-!
# Labels are read word by word

An operator takes all that follows as its right side, and so does a negation. So the tree that is read is not the one
that was written, but it has the same words in the same order.
-/

namespace Supermartingale.Hoa

open List Hoa.Label

/-- A boolean expression to be written. -/
inductive Formula where
  | truth (b long : Bool)
  | index (n : ℕ)
  | not (e : Formula)
  | paren (e : Formula)
  | binary (l : Formula) (op : LabelOp) (r : Formula)

def truthWord (b long : Bool) : Word :=
  (if b then (if long then "true" else "t") else (if long then "false" else "f")).toList

def Formula.words : Formula → List Word
  | truth b long => [truthWord b long]
  | index n => [numeral n]
  | not e => ['!'] :: e.words
  | paren e => ['('] :: (e.words ++ [[')']])
  | binary l op r => l.words ++ op.sign.toList :: r.words

def glyph (w : Word) : List Char :=
  if w = "true".toList then ['t']
  else if w = "false".toList then ['f']
  else if w = ['&'] ∨ w = ['|'] then ' ' :: (w ++ [' '])
  else w

def canonical (ws : List Word) : List Char := ws.flatMap glyph

theorem glyph_digits (ds : Digits) : glyph ds.1 = ds.1 := by
  obtain ⟨c, first, digit⟩ := exists_head_digits ds
  unfold glyph
  split_ifs with long short sign
  · rw [long] at first
    cases first
    cases digit
  · rw [short] at first
    cases first
    cases digit
  · rcases sign with sign | sign <;>
    · rw [sign] at first
      cases first
      cases digit
  · rfl

theorem glyph_numeral (n : ℕ) : glyph (numeral n) = numeral n := glyph_digits (digitsOf n)

theorem visible_truthWord : ∀ b long, Visible (truthWord b long) := by decide

theorem glyph_sign (op : LabelOp) : glyph op.sign.toList = ' ' :: (op.sign.toList ++ [' ']) := by
  cases op <;> decide

/-! ## Sequences of words -/

/-- The words of labels as they are read: whole labels, and those without an operator at the top. -/
inductive Sequence : Bool → List Word → Prop where
  | truth (b long : Bool) : Sequence true [truthWord b long]
  | index (ds : Digits) : Sequence true [ds.1]
  | group {ws : List Word} (inner : Sequence false ws) : Sequence true (['('] :: (ws ++ [[')']]))
  | not {ws : List Word} (inner : Sequence false ws) : Sequence false (['!'] :: ws)
  | lone {ws : List Word} (atom : Sequence true ws) : Sequence false ws
  | join {ws vs : List Word} (op : LabelOp) (atom : Sequence true ws) (behind : Sequence false vs) :
      Sequence false (ws ++ op.sign.toList :: vs)

theorem Sequence.append {ws vs : List Word} (op : LabelOp) (first : Sequence false ws) (second : Sequence false vs) :
    Sequence false (ws ++ op.sign.toList :: vs) := by
  generalize kind : false = atomic at first
  induction first with
  | truth | index | group => cases kind
  | not _ ih => exact .not (ih kind)
  | lone atom => exact .join op atom second
  | join op' atom _ _ ih =>
    rw [append_assoc, cons_append]
    exact .join op' atom (ih kind)

theorem Formula.sequence (f : Formula) : Sequence false f.words := by
  induction f with
  | truth b long => exact .lone (.truth b long)
  | index n => exact .lone (.index (digitsOf n))
  | not e ih => exact .not ih
  | paren e ih => exact .lone (.group ih)
  | binary l op r ihl ihr => exact ihl.append op ihr

theorem Sequence.length_pos {atomic : Bool} {ws : List Word} (sequence : Sequence atomic ws) : 0 < ws.length := by
  induction sequence <;> simp_all

/-! ## Reading labels -/

def followers : List Word := [['&'], ['|'], [')'], [']']]

variable {w next : Word} {ws more : List Word} {text : List Char}

theorem Spaced.truth? {b long : Bool} (follows : next ∈ followers)
    (spaced : Spaced (truthWord b long :: next :: more) text) :
    ∃ rest, Label.truth? text = some (b, rest) ∧ Spaced (next :: more) rest := by
  obtain ⟨rest, skipped, behind, _⟩ := spaced.exists_rest (visible_truthWord b long)
  -- what follows a short word does not make it a long one
  have ends : ∀ c ∈ rest.head?, c ≠ 'r' ∧ c ≠ 'a' := by
    intro c first
    rcases behind.head_cases first with space | head
    · simp only [isSpace, Bool.or_eq_true, beq_iff_eq] at space
      rcases space with (((rfl | rfl) | rfl) | rfl) | rfl <;> decide
    · simp only [followers, mem_cons, not_mem_nil, or_false] at follows
      rcases follows with rfl | rfl | rfl | rfl <;> cases head <;> decide
  have short : ∀ c cs, c = 'r' ∨ c = 'a' → Text.dropLeading? (c :: cs) rest = none := by
    intro c cs known
    cases rest with
    | nil => rfl
    | cons d rest =>
      have other := ends d rfl
      have differs : c ≠ d := by rcases known with rfl | rfl <;> [exact other.1.symm; exact other.2.symm]
      simp [Text.dropLeading?, differs]
  refine ⟨rest, ?_, behind⟩
  unfold Label.truth?
  cases b <;> cases long <;> simp [Hoa.oneOf?, Hoa.word?, skipped, truthWord, Text.dropLeading?, short]

theorem Spaced.op? {op : LabelOp} (spaced : Spaced (op.sign.toList :: ws) text) :
    ∃ rest, Label.op? text = some (op, rest) ∧ Spaced ws rest := by
  unfold Label.op?
  cases op with
  | and =>
    obtain ⟨rest, found, behind⟩ := spaced.word? (w := "&") (by decide)
    exact ⟨rest, by rw [found], behind⟩
  | or =>
    obtain ⟨rest, found, behind⟩ := spaced.word? (w := "|") (by decide)
    rw [spaced.word?_eq_none (w := "&") (by decide) (by decide), found]
    exact ⟨rest, rfl, behind⟩

theorem Spaced.op?_eq_none (closes : next = [')'] ∨ next = [']']) (spaced : Spaced (next :: ws) text) :
    Label.op? text = none := by
  unfold Label.op?
  rcases closes with rfl | rfl <;>
  rw [spaced.word?_eq_none (w := "&") (by decide) (by decide),
    spaced.word?_eq_none (w := "|") (by decide) (by decide)] <;>
  rfl

/-- What is read of some words in front of others. -/
def Reads : Bool → List Word → Prop
  | true, ws => ∀ fuel next more text, 2 * ws.length ≤ fuel + 1 → next ∈ followers →
      Spaced (ws ++ next :: more) text → Hoa.word? "!" text = none ∧
        ∃ l rest, atom fuel text = .ok (l, rest) ∧ l.render.toList = canonical ws ∧ Spaced (next :: more) rest
  | false, ws => ∀ fuel next more text, 2 * ws.length ≤ fuel → next = [')'] ∨ next = [']'] →
      Spaced (ws ++ next :: more) text →
        ∃ l rest, Label.read fuel text = .ok (l, rest) ∧ l.render.toList = canonical ws ∧ Spaced (next :: more) rest

namespace Reads

theorem truth (b long : Bool) : Reads true [truthWord b long] := by
  intro fuel next more text enough follows spaced
  obtain ⟨fuel, rfl⟩ : ∃ n, fuel = n + 1 := ⟨fuel - 1, by simp at enough; omega⟩
  obtain ⟨rest, found, behind⟩ := spaced.truth? follows
  have visible := visible_truthWord b long
  have letters : ∀ k ∈ ["!", "("], Hoa.word? k text = none := by
    have differ : ∀ k ∈ ["!", "("], ∀ b long, Differ k.toList (truthWord b long) := by decide
    exact fun k mem => spaced.word?_eq_none visible (differ k mem b long)
  have digits : Hoa.numeral? text = none := by
    refine spaced.numeral?_eq_none visible ?_
    cases b <;> cases long <;> exact ⟨_, rfl, by decide⟩
  refine ⟨letters "!" (by decide), .truth b, rest, ?_, ?_, behind⟩
  · rw [atom, letters "(" (by decide), digits, found]
  · cases b <;> cases long <;> decide

theorem index (ds : Digits) : Reads true [ds.1] := by
  intro fuel next more text enough _ spaced
  obtain ⟨fuel, rfl⟩ : ∃ n, fuel = n + 1 := ⟨fuel - 1, by simp at enough; omega⟩
  have absent {w : String} {c : Char} (first : w.toList.head? = some c) (other : ¬ c.isDigit) :
      Hoa.word? w text = none := spaced.word?_eq_none (visible_digits ds) (differ_digits first other ds)
  obtain ⟨rest, found, behind⟩ := spaced.numeral? ds.2.1 ds.2.2
  refine ⟨absent rfl (by decide), .index ds.1, rest, ?_, ?_, behind⟩
  · rw [atom, absent rfl (by decide), found]
  · simp [render, canonical, glyph_digits]

theorem group (inner : Reads false ws) : Reads true (['('] :: (ws ++ [[')']])) := by
  intro fuel next more text enough _ spaced
  simp only [length_cons, length_append, length_nil] at enough
  obtain ⟨fuel, rfl⟩ : ∃ n, fuel = n + 1 := ⟨fuel - 1, by omega⟩
  rw [cons_append, append_assoc, singleton_append] at spaced
  obtain ⟨rest, opened, behind⟩ := spaced.word? (w := "(") (by decide)
  obtain ⟨l, after, read, same, closes⟩ := inner fuel [')'] _ rest (by omega) (.inl rfl) behind
  obtain ⟨last, closed, left⟩ := closes.word? (w := ")") (by decide)
  refine ⟨spaced.word?_eq_none (by decide) (by decide), .paren l, last, ?_, ?_, left⟩
  · rw [atom, opened]
    simp only [read, bind, Except.bind, demand_eq_ok closed]
    rfl
  · simp only [render, String.toList_append, same, canonical, flatMap_cons, flatMap_append, flatMap_nil]
    simp [glyph]

theorem not (inner : Reads false ws) : Reads false (['!'] :: ws) := by
  intro fuel next more text enough closes spaced
  simp only [length_cons] at enough
  obtain ⟨fuel, rfl⟩ : ∃ n, fuel = n + 1 := ⟨fuel - 1, by omega⟩
  obtain ⟨rest, opened, behind⟩ := spaced.word? (w := "!") (by decide)
  obtain ⟨l, after, read, same, left⟩ := inner fuel next more rest (by omega) closes behind
  refine ⟨.not l, after, ?_, ?_, left⟩
  · rw [Label.read, opened]
    simp only [read, bind, Except.bind]
    rfl
  · simp [render, same, canonical, glyph]

theorem mem_followers (closes : next = [')'] ∨ next = [']']) : next ∈ followers := by
  rcases closes with rfl | rfl <;> decide

theorem lone (positive : 0 < ws.length) (atom : Reads true ws) : Reads false ws := by
  intro fuel next more text enough closes spaced
  obtain ⟨fuel, rfl⟩ : ∃ n, fuel = n + 1 := ⟨fuel - 1, by omega⟩
  obtain ⟨plain, l, rest, read, same, left⟩ := atom fuel next more text (by omega) (mem_followers closes) spaced
  refine ⟨l, rest, ?_, same, left⟩
  rw [Label.read, plain]
  simp only [read, bind, Except.bind, left.op?_eq_none closes]
  rfl

theorem join {vs : List Word} (op : LabelOp) (positive : 0 < ws.length) (atom : Reads true ws)
    (inner : Reads false vs) : Reads false (ws ++ op.sign.toList :: vs) := by
  intro fuel next more text enough closes spaced
  simp only [length_append, length_cons] at enough
  obtain ⟨fuel, rfl⟩ : ∃ n, fuel = n + 1 := ⟨fuel - 1, by omega⟩
  rw [append_assoc, cons_append] at spaced
  have follows : op.sign.toList ∈ followers := by cases op <;> decide
  obtain ⟨plain, l, rest, read, same, left⟩ := atom fuel _ _ text (by omega) follows spaced
  obtain ⟨behind, found, further⟩ := left.op?
  obtain ⟨r, after, read', same', left'⟩ := inner fuel next more behind (by omega) closes further
  refine ⟨.binary l op r, after, ?_, ?_, left'⟩
  · rw [Label.read, plain]
    simp only [read, bind, Except.bind, found, read']
    rfl
  · simp [render, same, same', canonical, glyph_sign]

end Reads

theorem Sequence.reads {atomic : Bool} (sequence : Sequence atomic ws) : Reads atomic ws := by
  induction sequence with
  | truth b long => exact .truth b long
  | index ds => exact .index ds
  | group _ ih => exact ih.group
  | not _ ih => exact ih.not
  | lone atom ih => exact ih.lone atom.length_pos
  | join op atom _ iha ihb => exact iha.join op atom.length_pos ihb

theorem Spaced.bracketed? (sequence : Sequence false ws) (spaced : Spaced (['['] :: (ws ++ [']'] :: more)) text) :
    ∃ l rest, Label.bracketed? text = .ok (some l, rest) ∧ l.render.toList = canonical ws ∧ Spaced more rest := by
  obtain ⟨rest, opened, behind⟩ := spaced.word? (w := "[") (by decide)
  have bound : 2 * ws.length ≤ 2 * rest.length + 2 := by
    have length := behind.length_le
    simp only [length_append, length_cons] at length
    omega
  obtain ⟨l, after, read, same, closes⟩ := sequence.reads _ _ _ rest bound (.inr rfl) behind
  obtain ⟨last, closed, left⟩ := closes.word? (w := "]") (by decide)
  refine ⟨l, last, ?_, same, left⟩
  rw [Label.bracketed?, opened]
  simp only [read, bind, Except.bind, demand_eq_ok closed]
  rfl

theorem Spaced.bracketed?_eq_none (visible : Visible w) (differ : Differ "[".toList w)
    (spaced : Spaced (w :: ws) text) : Label.bracketed? text = .ok (none, text) := by
  rw [Label.bracketed?, spaced.word?_eq_none visible differ]

end Supermartingale.Hoa
