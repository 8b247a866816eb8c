import Supermartingale.Proofs.Except
import Supermartingale.Proofs.Hoa.Body
import Supermartingale.Proofs.Hoa.Header

/-!
# Reading undoes writing

An automaton is written as header items in any order and states with their edges, with any blanks between the
words. It is read with the same header, and its states have the same numbers, signatures and edges in the same
order.
-/

namespace Supermartingale.Hoa

open List Spaced

/-- An automaton to be written. -/
structure Document where
  items : List Item
  places : List Place

namespace Document

def words (d : Document) : List Word :=
  d.items.flatMap Item.words ++ "--BODY--".toList :: (d.places.flatMap Place.words ++ ["--END--".toList])

def numbers (d : Document) : List ℕ := d.items.flatMap Item.numbers ++ d.places.flatMap Place.numbers

/-- Every item is there at most once, and the names in it hold no quotes, backslashes or line ends. A documentation
may hold them behind a backslash. -/
structure IsProper (d : Document) : Prop where
  once : (d.items.map Item.keyword).Nodup
  items : ∀ i ∈ d.items, i.IsProper
  docs : ∀ p ∈ d.places, ∀ s ∈ p.doc, enclosed s.toList

end Document

/-! ## What a reader is told -/

/-- What a header says of an item. -/
def Item.Tells (h : Header) : Item → Prop
  | version => h.version = some "v1"
  | properties ps => h.properties = some ps
  | stateCount n => h.stateCount = some n
  | start n => h.start = some n
  | propositions names => h.propositions = some (names.length, names)
  | acceptance count sets => h.acceptance = some (count, sets)
  | tool xs => h.tool = some xs
  | name x => h.name = some x
  | arguments xs => h.arguments = some xs
  | acceptanceName degree => h.acceptanceName = some (degree.elim "" fun n => String.ofList (numeral n))

/-- The label of a transition: the text of its words, unless it is a lone truth. -/
def Formula.text : Formula → String
  | truth true _ => ""
  | f => String.ofList (canonical f.words)

structure Arrow.Tells (a : Arrow) (t : Transition) : Prop where
  destination : t.destination = a.destination
  signature : t.signature = (a.signature.getD []).map Int.ofNat
  label : t.label = a.label.text

structure Place.Tells (p : Place) (s : State) : Prop where
  id : s.id = p.id
  doc : s.doc = p.doc.map (Text.stripChars ['"'])
  label : s.label = p.label.map fun f => String.ofList (canonical f.words)
  signature : s.signature = (p.signature.getD []).map Int.ofNat
  transitions : Forall₂ Arrow.Tells p.arrows s.transitions

/-! ## Labels of transitions -/

namespace Formula

theorem exists_ends (f : Formula) :
    (∃ c cs, canonical f.words = c :: cs ∧ Text.isBlank c = false) ∧
      ∃ c cs, canonical f.words = cs ++ [c] ∧ Text.isBlank c = false := by
  induction f with
  | truth b long =>
    have letter : ∀ b long, canonical [truthWord b long] = [if b then 't' else 'f'] := by decide
    have plain : ∀ b : Bool, Text.isBlank (if b then 't' else 'f') = false := by decide +kernel
    exact ⟨⟨_, [], letter b long, plain b⟩, ⟨_, [], letter b long, plain b⟩⟩
  | index n =>
    have same : canonical (index n).words = numeral n := by simp [canonical, words, glyph_numeral]
    have digit : ∀ c ∈ numeral n, Text.isBlank c = false := fun c mem =>
      Text.isBlank_of_isDigit (isDigit_toDigits n c mem)
    rw [same]
    obtain ⟨c, cs, first⟩ := exists_cons_of_ne_nil (numeral_ne_nil n)
    refine ⟨⟨c, cs, first, digit c (by rw [first]; exact mem_cons_self)⟩, ?_⟩
    exact ⟨_, _, (dropLast_append_getLast (numeral_ne_nil n)).symm, digit _ (getLast_mem _)⟩
  | not e ih =>
    obtain ⟨c, cs, last, plain⟩ := ih.2
    refine ⟨⟨'!', canonical e.words, rfl, by decide +kernel⟩, ⟨c, '!' :: cs, ?_, plain⟩⟩
    rw [cons_append, ← last]
    rfl
  | paren e ih =>
    refine ⟨⟨'(', canonical (e.words ++ [[')']]), rfl, by decide +kernel⟩,
      ⟨')', '(' :: canonical e.words, ?_, by decide +kernel⟩⟩
    simp [words, canonical, glyph]
  | binary l op r ihl ihr =>
    obtain ⟨c, cs, first, plain⟩ := ihl.1
    obtain ⟨d, ds, last, plain'⟩ := ihr.2
    have whole : canonical (binary l op r).words =
        canonical l.words ++ (glyph op.sign.toList ++ canonical r.words) := by
      simp [words, canonical]
    exact ⟨⟨c, _, by rw [whole, first, cons_append], plain⟩,
      ⟨d, canonical l.words ++ (glyph op.sign.toList ++ ds), by rw [whole, last]; simp, plain'⟩⟩

theorem strip_canonical (f : Formula) :
    Text.strip (String.ofList (canonical f.words)) = String.ofList (canonical f.words) := by
  obtain ⟨⟨c, cs, first, plain⟩, ⟨d, ds, last, plain'⟩⟩ := f.exists_ends
  refine Text.strip_eq_self ?_ ?_
  · intro x mem
    rw [String.toList_ofList, first] at mem
    cases mem
    exact plain
  · intro x mem
    rw [String.toList_ofList, last, List.getLast?_concat] at mem
    cases mem
    exact plain'

theorem mem_canonical (f : Formula) : ∀ c ∈ canonical f.words, c ≠ 'e' ∧ c ≠ 'a' := by
  induction f with
  | truth b long =>
    have plain : ∀ b long, ∀ c ∈ canonical [truthWord b long], c ≠ 'e' ∧ c ≠ 'a' := by decide
    exact plain b long
  | index n =>
    intro c mem
    have inside : c ∈ numeral n := by simpa [canonical, words, glyph_numeral] using mem
    have digit : c.isDigit := isDigit_toDigits n c inside
    constructor <;> rintro rfl <;> cases digit
  | not e ih =>
    intro c mem
    rcases mem_cons.mp mem with rfl | inside
    · decide
    · exact ih c inside
  | paren e ih =>
    intro c mem
    simp only [words, canonical, flatMap_cons, flatMap_append, flatMap_nil, append_nil,
      mem_append] at mem
    rcases mem with first | inside | last
    · revert c
      decide
    · exact ih c inside
    · revert c
      decide
  | binary l op r ihl ihr =>
    intro c mem
    simp only [words, canonical, flatMap_append, flatMap_cons, mem_append] at mem
    rcases mem with left | sign | right
    · exact ihl c left
    · revert c
      cases op <;> decide
    · exact ihr c right

theorem canonical_eq_letter {f : Formula} (same : canonical f.words = ['t']) : ∃ long, f = truth true long := by
  cases f with
  | truth b long =>
    have letter : ∀ b long, canonical [truthWord b long] = ['t'] → b = true := by decide
    exact ⟨long, by rw [letter b long same]⟩
  | index n =>
    have digits : numeral n = ['t'] := by simpa [canonical, words, glyph_numeral] using same
    have digit := isDigit_toDigits n 't' (by rw [← numeral, digits]; exact mem_cons_self)
    cases digit
  | not e => cases same
  | paren e => cases same
  | binary l op r =>
    have blank : ' ' ∈ canonical (binary l op r).words := by
      simp [words, canonical, glyph_sign]
    rw [same] at blank
    exact absurd blank (by decide)

theorem contains_epsilonLabels (f : Formula) :
    (Transition.epsilonLabels.contains (Text.strip (String.ofList (canonical f.words))) = true) ↔
      ∃ long, f = truth true long := by
  rw [strip_canonical, contains_iff_mem]
  constructor
  · intro mem
    have letters := f.mem_canonical
    simp only [Transition.epsilonLabels, mem_cons, not_mem_nil, or_false] at mem
    have chars {s : String} (equal : String.ofList (canonical f.words) = s) : canonical f.words = s.toList := by
      rw [← equal, String.toList_ofList]
    rcases mem with equal | equal | equal | equal | equal
    · exact absurd rfl (letters 'e' (by rw [chars equal]; decide)).1
    · exact absurd rfl (letters 'e' (by rw [chars equal]; decide)).1
    · exact absurd rfl (letters 'a' (by rw [chars equal]; decide)).2
    · exact canonical_eq_letter (chars equal)
    · obtain ⟨c, cs, first, _⟩ := f.exists_ends.1
      cases first.symm.trans (chars equal)
  · rintro ⟨long, rfl⟩
    have letter : ∀ long, canonical [truthWord true long] = ['t'] := by decide
    rw [words, letter]
    decide

theorem label_make (f : Formula) (destination : Int) (signature : List Int) :
    (Transition.make destination signature (String.ofList (canonical f.words))).label = f.text := by
  unfold Transition.make
  dsimp only
  split
  · rename_i lone
    obtain ⟨long, rfl⟩ := f.contains_epsilonLabels.mp lone
    rfl
  · rename_i other
    have differs : ¬ ∃ long, f = truth true long := fun lone => other (f.contains_epsilonLabels.mpr lone)
    unfold text
    split
    · exact absurd ⟨_, rfl⟩ differs
    · rfl

end Formula

theorem map_value_digitsOf (signature : Option (List ℕ)) :
    (signature.map (·.map digitsOf)).map (·.map Digits.value) = signature := by
  cases signature with
  | none => rfl
  | some ns => exact congrArg some (map_digitsOf ns).2

theorem Arrow.exists_transition {a : Arrow} {e : Edge} (same : a.branch.Matches e) :
    ∃ t, e.transition = .ok t ∧ a.Tells t := by
  obtain ⟨l, label, rendered⟩ := Option.map_eq_some_iff.mp same.label
  have text : l.render = String.ofList (canonical a.label.words) :=
    String.ofList_toList.symm.trans (congrArg String.ofList rendered)
  have signature : e.signature = a.signature := same.signature.trans (map_value_digitsOf _)
  have destination : e.destination = a.destination := same.destination.trans (value_digitsOf _)
  unfold Edge.transition
  rw [label]
  refine ⟨_, rfl, ?_⟩
  rw [text]
  refine ⟨by rw [← destination]; rfl, by rw [← signature]; rfl, a.label.label_make _ _⟩

theorem Place.exists_state {p : Place} {b : Block} (same : p.node.Matches b) :
    ∃ s, b.state = .ok s ∧ p.Tells s := by
  obtain ⟨ts, made, tells⟩ := exists_mapM_forall₂ (forall₂_map_left_iff.mp same.edges) fun a e => a.exists_transition
  have signature : b.signature = p.signature := same.signature.trans (map_value_digitsOf _)
  have id : b.id = p.id := same.id.trans (value_digitsOf _)
  refine ⟨_, by rw [Block.state, made]; rfl, ?_⟩
  refine ⟨by rw [← id]; rfl, same.doc, ?_, by rw [← signature]; rfl, tells⟩
  have label := same.label
  change b.label.map Label.render = _
  change _ = (p.label.map _).map _ at label
  cases written : p.label with
  | none =>
    rw [written, Option.map_none, Option.map_none, Option.map_eq_none_iff] at label
    rw [label]
    rfl
  | some f =>
    rw [written, Option.map_some, Option.map_some, Option.map_eq_some_iff] at label
    obtain ⟨l, known, rendered⟩ := label
    rw [known, Option.map_some, Option.map_some, ← rendered, String.ofList_toList]

/-! ## Whole texts -/

namespace Item

theorem tells_put (h : Header) (i : Item) : i.Tells (i.put h) := by
  cases i <;> rfl

theorem Tells.put {h : Header} {i j : Item} (tells : i.Tells h) (other : j.keyword ≠ i.keyword) :
    i.Tells (j.put h) := by
  cases i <;> cases j <;> first | exact tells | exact absurd rfl other

theorem tells_foldl {items : List Item} (once : (items.map keyword).Nodup) (h : Header) :
    ∀ i ∈ items, i.Tells (items.foldl put h) := by
  have keeps (items : List Item) (i : Item) (absent : i.keyword ∉ items.map keyword) (h : Header) (tells : i.Tells h) :
      i.Tells (items.foldl put h) := by
    induction items generalizing h with
    | nil => exact tells
    | cons j items ih =>
      rw [map_cons, mem_cons, not_or] at absent
      exact ih absent.2 _ (tells.put (Ne.symm absent.1))
  induction items generalizing h with
  | nil => exact forall_mem_nil _
  | cons j items ih =>
    obtain ⟨fresh, rest⟩ := nodup_cons.mp (map_cons ▸ once)
    intro i mem
    rcases mem_cons.mp mem with rfl | later
    · exact keeps items i fresh _ (i.tells_put h)
    · exact ih rest _ i later

end Item

namespace Document

variable {d : Document}

theorem gives_read (proper : d.IsProper) {text : String} (spaced : Spaced d.words text.toList) :
    Gives (read text) (∀ n ∈ d.numbers, isWritable n) fun hoa =>
      hoa.header = d.items.foldl Item.put {} ∧ Forall₂ (fun p => p.node.Matches) d.places hoa.blocks := by
  have enough : d.items.length < text.toList.length + 1 := by
    have length := spaced.length_le
    have bound := length_le_words (f := Item.words) (by simp [Item.words]) d.items
    simp only [words, length_append] at length
    omega
  have same : (d.places.map Place.node).flatMap Node.words = d.places.flatMap Place.words := by
    simp only [flatMap_map, Place.words_node]
  have docs : ∀ n ∈ d.places.map Place.node, ∀ s ∈ n.doc, Spaced.enclosed s.toList := forall_mem_map.mpr proper.docs
  unfold read
  refine ((gives_readHeader d.items proper.items proper.once {} _ enough spaced).bind (fun r known =>
    (gives_readStates docs r.1 (same ▸ known.2)).congr Iff.rfl fun hoa held =>
      ⟨held.1.trans known.1, forall₂_map_left_iff.mp held.2⟩)).congr ?_ fun _ => id
  simp only [numbers, flatMap_map, Place.digits_node, ← map_flatMap, forall_mem_map, isShort_digitsOf,
    forall_mem_append]

/-- A text of the words of an automaton is read with its header items and its states, unless it holds a number with
too many digits. -/
theorem read_spaced (proper : d.IsProper) {text : String} (spaced : Spaced d.words text.toList) :
    ((∀ n ∈ d.numbers, isWritable n) → ∃ hoa states, read text = .ok hoa ∧ hoa.states = .ok states ∧
      (∀ i ∈ d.items, i.Tells hoa.header) ∧ Forall₂ Place.Tells d.places states) ∧
    (¬ (∀ n ∈ d.numbers, isWritable n) → read text = .error .numeralTooLong) := by
  refine ⟨fun short => ?_, (gives_read proper spaced).2⟩
  obtain ⟨hoa, result, header, blocks⟩ := (gives_read proper spaced).1 short
  obtain ⟨states, made, tells⟩ := exists_mapM_forall₂ blocks fun p b => p.exists_state
  exact ⟨hoa, states, result, made, header ▸ Item.tells_foldl proper.once {}, tells⟩

def relay : Document where
  items := [.acceptance 2 [0, 1], .properties ["state-acc", "weak"], .version, .propositions ["a", "b c"], .start 1,
    .acceptanceName (some 2)]
  places := [
    { label := none, id := 0, doc := some "the \\\"first\\\" one", signature := some [0, 1], arrows := [
        ⟨.binary (.not (.index 0)) .and (.paren (.binary (.truth true true) .or (.index 10))), 1, none⟩,
        ⟨.truth true false, 0, some [1]⟩] },
    { label := some (.index 0), id := 1, doc := none, signature := none, arrows := [] }]

theorem relay_read_spaced : relay.IsProper ∧ (∀ n ∈ relay.numbers, isWritable n) ∧
    ∃ hoa states, read (String.ofList (unwords relay.words)) = .ok hoa ∧ hoa.states = .ok states ∧
      (∀ i ∈ relay.items, i.Tells hoa.header) ∧ Forall₂ Place.Tells relay.places states := by
  have proper : relay.IsProper := by
    refine ⟨by decide, ?_, by decide⟩
    simp only [relay, forall_mem_cons]
    have names : ∀ x ∈ ["a", "b c"], Spaced.Plain x := by decide
    exact ⟨trivial, ⟨by decide, by decide⟩, trivial, names, trivial, trivial, forall_mem_nil _⟩
  have short : ∀ n ∈ relay.numbers, isWritable n := by decide +kernel
  have spaced : Spaced relay.words (String.ofList (unwords relay.words)).toList := by
    rw [String.toList_ofList]
    exact spaced_unwords (by decide +kernel)
  exact ⟨proper, short, (read_spaced proper spaced).1 short⟩

/-- An acceptance set with a number of one digit too many. -/
theorem not_read_long_set : ∃ d : Document, d.IsProper ∧ d.items = [.version, .start 0, .propositions [],
      .acceptance 1 [10 ^ digitLimit]] ∧ ∃ text : String, Spaced d.words text.toList ∧
    read text = .error .numeralTooLong := by
  let d : Document := ⟨[.version, .start 0, .propositions [], .acceptance 1 [10 ^ digitLimit]],
    [⟨none, 0, none, none, [⟨.truth true false, 0, none⟩]⟩]⟩
  have proper : d.IsProper := by
    refine ⟨by decide, ?_, by decide⟩
    simp only [d, forall_mem_cons]
    exact ⟨trivial, trivial, forall_mem_nil _, trivial, forall_mem_nil _⟩
  have long : ¬ ∀ n ∈ d.numbers, isWritable n := by
    intro short
    have writable := short (10 ^ digitLimit) (by simp [d, numbers, Item.numbers])
    rw [isWritable_iff] at writable
    exact lt_irrefl _ writable
  have spaced : Spaced d.words (String.ofList (unwords d.words)).toList := by
    rw [String.toList_ofList]
    refine spaced_unwords ?_
    simp [d, words, Item.words, Item.keyword, Item.content, Item.setWords, Place.words, Arrow.words, Formula.words,
      signatureWords, truthWord, numeral_ne_nil]
  exact ⟨d, proper, rfl, _, spaced, (gives_read proper spaced).2 long⟩

end Document

/-! ## Automata of a text -/

theorem Branch.Matches.exists_transition_iff {b : Branch} {e : Edge} (same : b.Matches e) :
    (∃ t, e.transition = .ok t) ↔ b.label.isSome := by
  have label := congrArg Option.isSome same.label
  rw [Option.isSome_map, Option.isSome_map] at label
  rw [← label, Edge.transition]
  cases e.label <;> simp

theorem Node.Matches.exists_state {n : Node} {b : Block} (same : n.Matches b)
    (labelled : ∀ x ∈ n.branches, x.label.isSome) :
    ∃ s, b.state = .ok s ∧ s.id = n.id.value ∧ s.transitions.length = n.branches.length := by
  obtain ⟨ts, made⟩ : ∃ ts, b.edges.mapM Edge.transition = .ok ts := exists_mapM_eq_ok fun e mem => by
    obtain ⟨x, inside, edge⟩ := exists_of_mem_right same.edges mem
    exact edge.exists_transition_iff.mpr (labelled x inside)
  refine ⟨_, by rw [Block.state, made]; rfl, by rw [← same.id]; rfl, ?_⟩
  exact (mapM_eq_ok.mp made).length_eq.symm.trans same.edges.length_eq.symm

section

variable {text : String} {h : Header} {rest : List Char} {nodes : List Node}

/-- Behind a header, the states of a text are built with all their edges exactly when every edge has a label and no
number has too many digits. -/
theorem states_iff_labelled (header : readHeader (text.toList.length + 1) {} text.toList = .ok (h, rest))
    (docs : ∀ n ∈ nodes, ∀ s ∈ n.doc, enclosed s.toList)
    (spaced : Spaced (nodes.flatMap Node.words ++ ["--END--".toList]) rest) :
    (∃ states, (read text >>= Hoa.states) = .ok states ∧
      Forall₂ (fun n s => s.id = n.id.value ∧ s.transitions.length = n.branches.length) nodes states) ↔
    (∀ ds ∈ nodes.flatMap Node.digits, ds.isShort) ∧ ∀ n ∈ nodes, ∀ b ∈ n.branches, b.label.isSome := by
  have gives : Gives (read text) _ _ := Gives.of_ok header (gives_readStates docs h spaced)
  constructor
  · rintro ⟨states, built, -⟩
    obtain ⟨hoa, result, made⟩ := bind_eq_ok.mp built
    have short := by_contra fun long => by
      rw [gives.2 long] at result
      cases result
    obtain ⟨_, again, -, blocks⟩ := gives.1 short
    cases result.symm.trans again
    refine ⟨short, fun n member b inside => ?_⟩
    obtain ⟨block, there, same⟩ := exists_of_mem_left blocks member
    obtain ⟨s, -, state⟩ := exists_mem_of_mapM made there
    obtain ⟨ts, transitions, -⟩ := bind_eq_ok.mp state
    obtain ⟨e, edge, same⟩ := exists_of_mem_left same.edges inside
    obtain ⟨t, -, transition⟩ := exists_mem_of_mapM transitions edge
    exact same.exists_transition_iff.mp ⟨t, transition⟩
  · rintro ⟨short, labelled⟩
    obtain ⟨hoa, result, -, blocks⟩ := gives.1 short
    have both := forall₂_of_mem blocks fun n member b same => And.intro same (labelled n member)
    obtain ⟨states, made, built⟩ := exists_mapM_forall₂ both fun n b known => known.1.exists_state known.2
    exact ⟨states, bind_eq_ok.mpr ⟨hoa, result, made⟩, built⟩

end

/-- A state with a label of its own, and its loop. -/
def loop : Node where
  label := some ⟨[numeral 0], .lone (.index (digitsOf 0))⟩
  id := digitsOf 0
  doc := none
  signature := none
  branches := [⟨some ⟨[truthWord true false], .lone (.truth true false)⟩, digitsOf 0, some [digitsOf 0]⟩]

theorem loop_states : ∃ states,
    (read "HOA: v1 Start: 0 Acceptance: 1 Inf(0) --BODY-- State: [ 0 ] 0 [ t ] 0 \x7b 0 \x7d --END--" >>= Hoa.states) =
      .ok states ∧
    Forall₂ (fun n s => s.id = n.id.value ∧ s.transitions.length = n.branches.length) [loop] states := by
  have short : (digitsOf 0).isShort := (isShort_digitsOf 0).mpr (by decide +kernel)
  have spaced : Spaced ([loop].flatMap Node.words ++ ["--END--".toList]) _ := spaced_unwords (by decide +kernel)
  refine (states_iff_labelled rfl ?_ spaced).mpr ⟨?_, ?_⟩
  · simp [loop]
  · simpa [Node.digits, Branch.digits, loop] using short
  · simp [loop]

/-- A loop without a label is read, but no state is built from it. -/
theorem unlabelled_states : ∃ hoa,
    read "HOA: v1 Start: 0 Acceptance: 1 Inf(0) --BODY-- State: 0 0 --END--" = .ok hoa ∧
      hoa.blocks.map (fun b => b.edges.length) = [1] ∧ hoa.states = .error .absentPart :=
  ⟨_, rfl, rfl, rfl⟩

end Supermartingale.Hoa
