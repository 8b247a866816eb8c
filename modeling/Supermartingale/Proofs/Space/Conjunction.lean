import Supermartingale.Proofs.Space.Relaxation

/-!
# Spaces as they are written

A space is a conjunction of chunks, and a chunk is a chain of operands with comparison signs between them. Its text
falls apart into these, since no operand has the letters of the words that join chunks.
-/

namespace Supermartingale

open List Text

/-! ## Texts part by part -/

namespace Text

theorem toList_replaceAll {k : String} (nonempty : k.toList ≠ []) (v s : String) :
    (replaceAll k v s).toList = replaceFrom k.toList v.toList 0 s.toList := by
  rw [replaceAll_of_nonempty nonempty, String.toList_ofList]

variable {cs : List Char} {p : Char}

theorem replaceFrom_keep (ps value : List Char) (absent : p ∉ cs) (rest : List Char) :
    replaceFrom (p :: ps) value 0 (cs ++ rest) = cs ++ replaceFrom (p :: ps) value 0 rest := by
  induction cs with
  | nil => rfl
  | cons c cs ih =>
    rw [mem_cons, not_or] at absent
    rw [cons_append, replaceFrom_other absent.1, ih absent.2, cons_append]

theorem replaceFrom_keep_second {p q : Char} (ps value : List Char) (absent : q ∉ cs) {rest : List Char}
    (apart : rest.head? ≠ some q) :
    replaceFrom (p :: q :: ps) value 0 (cs ++ rest) = cs ++ replaceFrom (p :: q :: ps) value 0 rest := by
  induction cs with
  | nil => rfl
  | cons c cs ih =>
    rw [mem_cons, not_or] at absent
    have differs : ¬ p :: q :: ps <+: c :: (cs ++ rest) := by
      intro start
      obtain ⟨tail, same⟩ := (cons_prefix_cons.mp start).2
      cases cs with
      | nil => exact apart (by rw [← nil_append rest, ← same]; rfl)
      | cons d cs => exact absent.2 (by rw [(List.cons.inj same).1]; exact mem_cons_self)
    rw [cons_append, replaceFrom_cons _ differs, ih absent.2, cons_append]

theorem splitFrom_skip (separator piece : List Char) (skip : ℕ) (cs : List Char) :
    splitFrom separator skip piece cs = splitFrom separator 0 piece (cs.drop skip) := by
  induction skip generalizing cs with
  | zero => rfl
  | succ skip ih =>
    cases cs with
    | nil => simp [splitFrom]
    | cons c cs => simp only [splitFrom, ih, drop_succ_cons]

theorem splitFrom_append {separator : List Char} (nonempty : separator ≠ []) (piece rest : List Char) :
    splitFrom separator 0 piece (separator ++ rest) = piece.reverse :: splitFrom separator 0 [] rest := by
  obtain ⟨p, ps, rfl⟩ := exists_cons_of_ne_nil nonempty
  have found : dropLeading? (p :: ps) (p :: (ps ++ rest)) = some rest := dropLeading?_eq_some.mpr rfl
  rw [cons_append, splitFrom, found]
  simp [splitFrom_skip _ _ ps.length]

theorem splitFrom_keep (ps : List Char) (absent : p ∉ cs) (piece rest : List Char) :
    splitFrom (p :: ps) 0 piece (cs ++ rest) = splitFrom (p :: ps) 0 (cs.reverse ++ piece) rest := by
  induction cs generalizing piece with
  | nil => rfl
  | cons c cs ih =>
    rw [mem_cons, not_or] at absent
    have differs : dropLeading? (p :: ps) (c :: (cs ++ rest)) = none := by simp [dropLeading?, absent.1]
    rw [cons_append, splitFrom, differs]
    dsimp only
    rw [ih absent.2]
    simp

theorem occursIn_append (pattern before after : List Char) : occursIn pattern (before ++ (pattern ++ after)) := by
  induction before with
  | nil =>
    have leading : dropLeading? pattern (pattern ++ after) = some after := dropLeading?_eq_some.mpr rfl
    rw [nil_append]
    cases together : pattern ++ after with
    | nil => simp [occursIn, (append_eq_nil_iff.mp together).1]
    | cons c cs => simp [occursIn, ← together, leading]
  | cons c before ih => simp [occursIn, ih]

theorem occursIn_of_not_mem (ps : List Char) (absent : p ∉ cs) : occursIn (p :: ps) cs = false := by
  induction cs with
  | nil => rfl
  | cons c cs ih =>
    rw [mem_cons, not_or] at absent
    simp [occursIn, dropLeading?, absent.1, ih absent.2]

end Text

namespace Space

def sideChars : List Char := [' ', 'S', '+', '-', '*', '/', '^', '(', ')', '.', 'e'] ++ digits

def operandChars : List Char := ['A', 'D', 'E'] ++ sideChars

def unblanked (cs : List Char) : List Char := cs.filter (· != ' ')

def signs : List Relation := [.lt, .gt, .le, .ge]

def joiners : List String := ["and", "AND", "&"]

/-- A side, and the sides behind it with the signs before them. -/
structure Chunk where
  first : List Char
  rest : List (Relation × List Char)

namespace Chunk

def chars (c : Chunk) : List Char := c.first ++ c.rest.flatMap fun x => x.1.sign.toList ++ x.2

/-- The operands have the characters of polynomials. -/
structure IsPlain (c : Chunk) : Prop where
  first : ∀ d ∈ c.first, d ∈ operandChars
  rest : ∀ x ∈ c.rest, x.1 ∈ signs ∧ ∀ d ∈ x.2, d ∈ operandChars

end Chunk

/-- A chunk, and the chunks behind it with the words that join them to what stands before. -/
structure Conjunction where
  first : Chunk
  rest : List (String × Chunk)

namespace Conjunction

def chunks (s : Conjunction) : List Chunk := s.first :: s.rest.map (·.2)

/-- What stands behind the first chunk, where the words that join chunks may be exchanged. -/
def tail (word : String → String) (rest : List (String × Chunk)) : List Char :=
  rest.flatMap fun x => (word x.1).toList ++ x.2.chars

def text (s : Conjunction) : String := String.ofList (s.first.chars ++ tail id s.rest)

structure IsPlain (s : Conjunction) : Prop where
  words : ∀ x ∈ s.rest, x.1 ∈ joiners
  chunks : ∀ c ∈ s.chunks, c.IsPlain

end Conjunction

/-! ## Cutting a space -/

theorem Chunk.IsPlain.not_mem {c : Chunk} (plain : c.IsPlain) {d : Char}
    (other : d ∉ ['<', '>', '='] ++ operandChars) : d ∉ c.chars := by
  have signed : ∀ r ∈ signs, ∀ d ∈ r.sign.toList, d ∈ ['<', '>', '='] ++ operandChars := by decide
  refine fun mem => other ?_
  rcases mem_append.mp mem with first | rest
  · exact mem_append_right _ (plain.first d first)
  · obtain ⟨x, inside, part⟩ := mem_flatMap.mp rest
    rcases mem_append.mp part with sign | side
    · exact signed x.1 (plain.rest x inside).1 d sign
    · exact mem_append_right _ ((plain.rest x inside).2 d side)

namespace Conjunction

variable {rest : List (String × Chunk)}

theorem head?_tail {word : String → String}
    (words : ∀ x ∈ rest, word x.1 ∈ joiners) : (tail word rest).head? ≠ some 'N' := by
  have heads : ∀ w ∈ joiners, w.toList ≠ [] ∧ w.toList.head? ≠ some 'N' := by decide
  cases rest with
  | nil => simp [tail]
  | cons x rest =>
    obtain ⟨nonempty, first⟩ := heads _ (words x mem_cons_self)
    obtain ⟨c, cs, same⟩ := exists_cons_of_ne_nil nonempty
    rw [same] at first
    rw [tail, flatMap_cons, same]
    exact first

theorem replaceFrom_tail {key value : List Char}
    (keep : ∀ c : Chunk, c.IsPlain → ∀ behind : List Char, behind.head? ≠ some 'N' →
      replaceFrom key value 0 (c.chars ++ behind) = c.chars ++ replaceFrom key value 0 behind)
    {old new : String → String} (plain : ∀ x ∈ rest, x.2.IsPlain) (joined : ∀ x ∈ rest, old x.1 ∈ joiners)
    (words : ∀ x ∈ rest, ∀ behind, replaceFrom key value 0 ((old x.1).toList ++ behind) =
      (new x.1).toList ++ replaceFrom key value 0 behind) :
    replaceFrom key value 0 (tail old rest) = tail new rest := by
  induction rest with
  | nil => simp [tail]
  | cons x rest ih =>
    obtain ⟨first, others⟩ := forall_mem_cons.mp plain
    obtain ⟨word, words⟩ := forall_mem_cons.mp words
    have joined := (forall_mem_cons.mp joined).2
    have rest := ih others joined words
    have apart := head?_tail joined
    unfold tail at rest apart ⊢
    rw [flatMap_cons, flatMap_cons, append_assoc, word, keep x.2 first _ apart, rest, append_assoc]

theorem splitFrom_tail (plain : ∀ x ∈ rest, x.2.IsPlain) (piece : List Char) :
    splitFrom "and".toList 0 piece (tail (fun _ => "and") rest) =
      piece.reverse :: rest.map fun x => x.2.chars := by
  induction rest generalizing piece with
  | nil => simp [tail, splitFrom]
  | cons x rest ih =>
    obtain ⟨first, others⟩ := forall_mem_cons.mp plain
    have rest := ih others x.2.chars.reverse
    unfold tail at rest ⊢
    rw [flatMap_cons, append_assoc, splitFrom_append (by decide),
      show "and".toList = 'a' :: ['n', 'd'] from rfl, splitFrom_keep _ (first.not_mem (by decide)), append_nil]
    rw [show "and".toList = 'a' :: ['n', 'd'] from rfl] at rest
    rw [rest]
    simp

variable {s : Conjunction} (plain : s.IsPlain)
include plain

/-- The text of a space falls apart into its chunks. -/
theorem IsPlain.splitOn_text : Text.splitOn "and" (replaceAll "&" "and" (replaceAll "AND" "and" s.text)) =
      s.chunks.map fun c => String.ofList c.chars := by
  obtain ⟨first, others⟩ := forall_mem_cons.mp plain.chunks
  have others : ∀ x ∈ s.rest, x.2.IsPlain := fun x mem => others x.2 (mem_map_of_mem mem)
  -- an operand may have the first and the last letter of the capital word, but never the second
  have keepCapitals (c : Chunk) (plain : c.IsPlain) (behind : List Char) (apart : behind.head? ≠ some 'N') :
      replaceFrom ['A', 'N', 'D'] "and".toList 0 (c.chars ++ behind) =
        c.chars ++ replaceFrom ['A', 'N', 'D'] "and".toList 0 behind :=
    replaceFrom_keep_second _ _ (plain.not_mem (by decide)) apart
  have keepSigns (c : Chunk) (plain : c.IsPlain) (behind : List Char) (_ : behind.head? ≠ some 'N') :
      replaceFrom ['&'] "and".toList 0 (c.chars ++ behind) =
        c.chars ++ replaceFrom ['&'] "and".toList 0 behind :=
    replaceFrom_keep _ _ (plain.not_mem (by decide)) behind
  -- capitals are made small first, then signs are made words
  let small : String → String := fun w => if w = "&" then "&" else "and"
  have joined : ∀ x ∈ s.rest, small x.1 ∈ joiners := by
    intro x _
    dsimp only [small]
    split <;> decide
  have lowered : replaceFrom ['A', 'N', 'D'] "and".toList 0 (tail id s.rest) = tail small s.rest := by
    refine replaceFrom_tail keepCapitals others plain.words fun x mem behind => ?_
    have word := plain.words x mem
    simp only [joiners, mem_cons, not_mem_nil, or_false] at word
    rcases word with word | word | word
    · rw [word]
      exact replaceFrom_keep _ _ (by decide) behind
    · rw [word]
      exact replaceFrom_append _ (by decide) behind
    · rw [word]
      exact replaceFrom_keep _ _ (by decide) behind
  have spelled : replaceFrom ['&'] "and".toList 0 (tail small s.rest) = tail (fun _ => "and") s.rest := by
    refine replaceFrom_tail keepSigns others joined fun x mem behind => ?_
    by_cases sign : x.1 = "&"
    · rw [show small x.1 = "&" from if_pos sign]
      exact replaceFrom_append _ (by decide) behind
    · rw [show small x.1 = "and" from if_neg sign]
      exact replaceFrom_keep _ _ (by decide) behind
  have words : (replaceAll "&" "and" (replaceAll "AND" "and" s.text)).toList =
      s.first.chars ++ tail (fun _ => "and") s.rest := by
    have whole : s.text.toList = s.first.chars ++ tail id s.rest := String.toList_ofList
    rw [toList_replaceAll (by decide), toList_replaceAll (by decide), whole]
    calc replaceFrom ['&'] "and".toList 0
          (replaceFrom ['A', 'N', 'D'] "and".toList 0 (s.first.chars ++ tail id s.rest))
        = replaceFrom ['&'] "and".toList 0 (s.first.chars ++ tail small s.rest) := by
          rw [keepCapitals _ first _ (head?_tail plain.words), lowered]
      _ = s.first.chars ++ tail (fun _ => "and") s.rest := by
          rw [keepSigns _ first _ (head?_tail joined), spelled]
  have split : splitFrom "and".toList 0 [] (s.first.chars ++ tail (fun _ => "and") s.rest) =
      s.first.chars :: s.rest.map fun x => x.2.chars := by
    rw [show "and".toList = 'a' :: ['n', 'd'] from rfl, splitFrom_keep _ (first.not_mem (by decide)),
      append_nil]
    have pieces := splitFrom_tail others s.first.chars.reverse
    rwa [reverse_reverse] at pieces
  rw [Text.splitOn, words, split]
  simp [Conjunction.chunks]

theorem IsPlain.accepted : refused.find? (fun word => Text.contains word s.text) = none := by
  obtain ⟨first, others⟩ := forall_mem_cons.mp plain.chunks
  have absent {d : Char} (other : d ∉ ['<', '>', '='] ++ operandChars)
      (outside : ∀ word ∈ joiners, d ∉ word.toList) : d ∉ s.text.toList := by
    rw [text, String.toList_ofList]
    refine fun mem => (mem_append.mp mem).elim (first.not_mem other) fun behind => ?_
    obtain ⟨x, inside, part⟩ := mem_flatMap.mp behind
    rcases mem_append.mp part with word | chunk
    · exact outside x.1 (plain.words x inside) word
    · exact (others x.2 (mem_map_of_mem inside)).not_mem other chunk
  rw [List.find?_eq_none]
  intro word mem
  simp only [refused, mem_cons, not_mem_nil, or_false] at mem
  rcases mem with rfl | rfl | rfl
  · simpa [Text.contains] using occursIn_of_not_mem _ (absent (d := 'o') (by decide) (by decide))
  · simpa [Text.contains] using occursIn_of_not_mem _ (absent (d := 'O') (by decide) (by decide))
  · simpa [Text.contains] using occursIn_of_not_mem _ (absent (d := '|') (by decide) (by decide))

/-- Reading a space is reading its chunks. -/
theorem IsPlain.read_text : read s.text =
    (s.chunks.mapM fun c => readChunk (String.ofList c.chars)).map List.flatten := by
  unfold read
  rw [plain.accepted]
  dsimp only
  rw [plain.splitOn_text, mapM_map, Function.comp_def]
  cases s.chunks.mapM fun c => readChunk (String.ofList c.chars) with
  | error e => rfl
  | ok parts => rfl

end Conjunction

/-! ## Cutting a chunk -/

variable {cs : List Char} {rest : List (Relation × List Char)}

theorem cutWritten_keep (plain : ∀ c ∈ cs, c ≠ '<' ∧ c ≠ '>') (piece rest : List Char) :
    cutWritten piece (cs ++ rest) = cutWritten (cs.reverse ++ piece) rest := by
  induction cs generalizing piece with
  | nil => rfl
  | cons c cs ih =>
    obtain ⟨first, others⟩ := forall_mem_cons.mp plain
    have step : cutWritten piece (c :: (cs ++ rest)) = cutWritten (c :: piece) (cs ++ rest) := by
      rw [cutWritten] <;> simp [first]
    rw [cons_append, step, ih others]
    simp

theorem cutWritten_sign {r : Relation} (known : r ∈ signs) (apart : ∀ rest, cs ≠ '=' :: rest)
    (piece : List Char) : cutWritten piece (r.sign.toList ++ cs) =
      (piece.reverse, (r, (cutWritten [] cs).1) :: (cutWritten [] cs).2) := by
  cases r with
  | eq | ne => simp [signs] at known
  | le | ge => rfl
  | lt =>
    change cutWritten piece ('<' :: cs) = _
    rw [cutWritten]
    exact apart
  | gt =>
    change cutWritten piece ('>' :: cs) = _
    rw [cutWritten]
    exact apart

theorem plain_unblanked (chars : ∀ c ∈ cs, c ∈ operandChars) :
    ∀ c ∈ unblanked cs, c ≠ '<' ∧ c ≠ '>' ∧ c ≠ '=' := by
  have others : ∀ c ∈ operandChars, c ≠ '<' ∧ c ≠ '>' ∧ c ≠ '=' := by decide
  exact fun c mem => others c (chars c (mem_of_mem_filter mem))

def chainChars (rest : List (Relation × List Char)) : List Char :=
  rest.flatMap fun x => x.1.sign.toList ++ unblanked x.2

theorem unblanked_chars {c : Chunk} (plain : c.IsPlain) :
    unblanked c.chars = unblanked c.first ++ chainChars c.rest := by
  have visible : ∀ r ∈ signs, unblanked r.sign.toList = r.sign.toList := by decide
  unfold Chunk.chars chainChars
  rw [unblanked, filter_append]
  congr 1
  have known := plain.rest
  generalize c.rest = rest at known ⊢
  induction rest with
  | nil => rfl
  | cons x rest ih =>
    obtain ⟨first, others⟩ := forall_mem_cons.mp known
    rw [flatMap_cons, flatMap_cons, filter_append, filter_append, ih others]
    congr 2
    exact visible x.1 first.1

theorem cutWritten_chain (known : ∀ x ∈ rest, x.1 ∈ signs ∧ ∀ d ∈ x.2, d ∈ operandChars)
    (plain : ∀ c ∈ cs, c ≠ '<' ∧ c ≠ '>') :
    cutWritten [] (cs ++ chainChars rest) = (cs, rest.map fun x => (x.1, unblanked x.2)) := by
  induction rest generalizing cs with
  | nil => rw [cutWritten_keep plain, chainChars, flatMap_nil, cutWritten]; simp
  | cons x rest ih =>
    obtain ⟨⟨sign, chars⟩, others⟩ := forall_mem_cons.mp known
    have side := plain_unblanked chars
    have bare : ∀ c ∈ unblanked x.2, c ≠ '<' ∧ c ≠ '>' := fun c mem => ⟨(side c mem).1, (side c mem).2.1⟩
    have later := ih others bare
    -- behind a sign there is a side or another sign, never an equality sign
    have apart : ∀ behind, unblanked x.2 ++ chainChars rest ≠ '=' :: behind := by
      intro behind same
      cases start : unblanked x.2 with
      | cons c tail =>
        rw [start] at same
        exact (side c (by simp [start])).2.2 (List.cons.inj same).1
      | nil =>
        rw [start, nil_append] at same
        cases rest with
        | nil => cases same
        | cons y rest =>
          have signed : ∀ r ∈ signs, ∀ tail, r.sign.toList ++ tail ≠ '=' :: behind := by
            intro r known tail
            simp only [signs, mem_cons, not_mem_nil, or_false] at known
            rcases known with rfl | rfl | rfl | rfl <;> simp [Relation.sign]
          rw [chainChars, flatMap_cons, append_assoc] at same
          exact signed y.1 (others y mem_cons_self).1 _ same
    have cut := cutWritten_sign sign apart cs.reverse
    rw [later] at cut
    rw [cutWritten_keep plain, append_nil, chainChars, flatMap_cons, append_assoc]
    change cutWritten cs.reverse (x.1.sign.toList ++ (unblanked x.2 ++ chainChars rest)) = _
    rw [cut, reverse_reverse]
    rfl

theorem Chunk.IsPlain.cutWritten {c : Chunk} (plain : c.IsPlain) :
    cutWritten [] ((String.ofList c.chars).toList.filter (· != ' ')) =
      (unblanked c.first, c.rest.map fun x => (x.1, unblanked x.2)) := by
  have side := plain_unblanked plain.first
  rw [String.toList_ofList]
  exact (congrArg (Space.cutWritten []) (unblanked_chars plain)).trans
    (cutWritten_chain plain.rest fun d mem => ⟨(side d mem).1, (side d mem).2.1⟩)

/-! ## The comparisons of a space -/

def Comparison.inequality (k : Comparison) : Except Error Inequality :=
  compareTexts (unblanked k.left) k.relation.relax (unblanked k.right)

def Chunk.operands (c : Chunk) : List (List Char) := c.first :: c.rest.map Prod.snd

def Chunk.IsCounted (c : Chunk) : Prop := c.rest.length = 1 ∨ c.rest.length = 2

def Conjunction.operands (s : Conjunction) : List (List Char) := s.chunks.flatMap Chunk.operands

def Conjunction.comparisons (s : Conjunction) : List Comparison := s.chunks.flatMap fun c => chain c.first c.rest

def Conjunction.IsCounted (s : Conjunction) : Prop := ∀ c ∈ s.chunks, c.IsCounted

theorem mem_chain {a : List Char} {k : Comparison} (mem : k ∈ chain a rest) :
    k.left ∈ a :: rest.map Prod.snd ∧ k.right ∈ a :: rest.map Prod.snd ∧ k.relation ∈ rest.map Prod.fst := by
  induction rest generalizing a with
  | nil => cases mem
  | cons x rest ih =>
    rcases mem_cons.mp mem with rfl | later
    · simp
    · obtain ⟨left, right, relation⟩ := ih later
      exact ⟨mem_cons_of_mem _ left, mem_cons_of_mem _ right, mem_cons_of_mem _ relation⟩

theorem Chunk.IsPlain.readChunk_eq {c : Chunk} (plain : c.IsPlain) (counted : c.IsCounted) :
    readChunk (String.ofList c.chars) = (chain c.first c.rest).mapM Comparison.inequality := by
  have cut := plain.cutWritten
  unfold readChunk
  simp only [toList_relaxSigns, cutSigns_relaxChars, cut]
  obtain ⟨first, rest⟩ := c
  match rest, counted with
  | [(r, b)], _ =>
    simp only [map_cons, map_nil, chain, mapM_cons, mapM_nil, Comparison.inequality, pure_bind]
  | [(r, b), (q, d)], _ =>
    simp only [map_cons, map_nil, chain, mapM_cons, mapM_nil, Comparison.inequality, pure_bind,
      bind_assoc]

theorem Conjunction.IsPlain.read_eq {s : Conjunction} (plain : s.IsPlain) (counted : s.IsCounted) :
    read s.text = s.comparisons.mapM Comparison.inequality := by
  rw [plain.read_text, mapM_congr fun c mem => (plain.chunks c mem).readChunk_eq (counted c mem),
    mapM_flatMap, Conjunction.comparisons]

end Space

end Supermartingale
