import Supermartingale.Proofs.Hoa.Label

/-!
# States and edges of an automaton text

States follow each other without separators, and so do the edges of a state. The word behind an edge shows
that the edge is over: it opens another label or another state, or ends the body.
-/

namespace Supermartingale.Hoa

open List Spaced

/-! ## What is written -/

/-- An edge to be written. -/
structure Arrow where
  label : Formula
  destination : ℕ
  signature : Option (List ℕ)

/-- A state to be written, with its edges. -/
structure Place where
  label : Option Formula
  id : ℕ
  doc : Option String
  signature : Option (List ℕ)
  arrows : List Arrow

def signatureWords : Option (List ℕ) → List Word
  | none => []
  | some ns => "\x7b".toList :: (ns.map numeral ++ ["\x7d".toList])

def Arrow.words (a : Arrow) : List Word :=
  ['['] :: (a.label.words ++ [']'] :: numeral a.destination :: signatureWords a.signature)

def Place.words (p : Place) : List Word :=
  "State:".toList :: (p.label.elim [] (fun f => ['['] :: (f.words ++ [[']']])) ++ numeral p.id ::
    ((p.doc.map quote).toList ++ (signatureWords p.signature ++ p.arrows.flatMap Arrow.words)))

def Arrow.numbers (a : Arrow) : List ℕ := a.signature.getD [] ++ [a.destination]

def Place.numbers (p : Place) : List ℕ := p.signature.getD [] ++ p.id :: p.arrows.flatMap Arrow.numbers

/-! ## What is read -/

/-- The words of an edge. -/
structure Branch where
  label : Option {ws : List Word // Sequence false ws}
  destination : Digits
  signature : Option (List Digits)

/-- The words of a state, with those of its edges. -/
structure Node where
  label : Option {ws : List Word // Sequence false ws}
  id : Digits
  doc : Option String
  signature : Option (List Digits)
  branches : List Branch

def labelWords (label : Option {ws : List Word // Sequence false ws}) : List Word :=
  label.elim [] fun ws => ['['] :: (ws.1 ++ [[']']])

def groupWords (signature : Option (List Digits)) : List Word :=
  signature.elim [] fun dss => "\x7b".toList :: (dss.map Subtype.val ++ ["\x7d".toList])

def Branch.words (b : Branch) : List Word := labelWords b.label ++ b.destination.1 :: groupWords b.signature

def Node.words (n : Node) : List Word :=
  "State:".toList :: (labelWords n.label ++ n.id.1 ::
    ((n.doc.map quote).toList ++ (groupWords n.signature ++ n.branches.flatMap Branch.words)))

def Branch.digits (b : Branch) : List Digits := b.signature.getD [] ++ [b.destination]

def Node.digits (n : Node) : List Digits := n.signature.getD [] ++ n.id :: n.branches.flatMap Branch.digits

def Arrow.branch (a : Arrow) : Branch :=
  ⟨some ⟨a.label.words, a.label.sequence⟩, digitsOf a.destination, a.signature.map (·.map digitsOf)⟩

def Place.node (p : Place) : Node :=
  ⟨p.label.map fun f => ⟨f.words, f.sequence⟩, digitsOf p.id, p.doc, p.signature.map (·.map digitsOf),
    p.arrows.map Arrow.branch⟩

theorem groupWords_map (signature : Option (List ℕ)) :
    groupWords (signature.map (·.map digitsOf)) = signatureWords signature := by
  cases signature with
  | none => rfl
  | some ns => exact congrArg (fun ws => "\x7b".toList :: (ws ++ ["\x7d".toList])) (map_digitsOf ns).1

theorem Arrow.words_branch (a : Arrow) : a.branch.words = a.words := by
  simp [branch, Branch.words, words, labelWords, groupWords_map, digitsOf]

theorem Place.words_node (p : Place) : p.node.words = p.words := by
  simp [node, Node.words, words, labelWords, groupWords_map, digitsOf, flatMap_map, Arrow.words_branch,
    Option.elim_map, Function.comp_def]

theorem Place.digits_node (p : Place) : p.node.digits = p.numbers.map digitsOf := by
  have group (signature : Option (List ℕ)) :
      (signature.map (·.map digitsOf)).getD [] = (signature.getD []).map digitsOf := by
    cases signature <;> rfl
  simp [node, Node.digits, numbers, group, flatMap_map, map_flatMap, Arrow.branch, Branch.digits, Arrow.numbers]

/-! ## Edges and states -/

/-- Words behind an edge. -/
structure Opens (w : Word) : Prop where
  visible : Visible w
  head : ∃ c, w.head? = some c ∧ c ≠ '\x7b' ∧ c ≠ '"'
  opensEdge : ∀ ws text, Spaced (w :: ws) text → Hoa.opensEdge text

def openers : List String := ["[", "State:", "--END--"]

theorem opens_of_mem {w : String} (mem : w ∈ openers) : Opens w.toList := by
  have visible : ∀ w ∈ openers, Visible w.toList := by decide
  have differ : ∀ w ∈ openers, ∀ k ∈ openers, k ≠ w → Differ k.toList w.toList := by decide
  refine ⟨visible w mem, ?_, fun ws text spaced => ?_⟩
  · simp only [openers, mem_cons, not_mem_nil, or_false] at mem
    rcases mem with rfl | rfl | rfl <;> exact ⟨_, rfl, by decide⟩
  · obtain ⟨rest, found, _⟩ := spaced.oneOf? mem (visible w mem) (differ w mem)
    have known : oneOf? ["[", "State:", "--END--"] text = some (w, rest) := found
    simp [Hoa.opensEdge, known]

theorem opens_digits (ds : Digits) : Opens ds.1 := by
  obtain ⟨c, first, digit⟩ := exists_head_digits ds
  refine ⟨visible_digits ds, ⟨c, first, ?_, ?_⟩, fun ws text spaced => ?_⟩
  · rintro rfl
    cases digit
  · rintro rfl
    cases digit
  · obtain ⟨rest, found, _⟩ := spaced.numeral? ds.2.1 ds.2.2
    simp [Hoa.opensEdge, found]

section

variable {next : Word} {more : List Word} {text : List Char}

theorem Spaced.labelled (label : Option {ws : List Word // Sequence false ws}) (ds : Digits)
    (spaced : Spaced (labelWords label ++ ds.1 :: more) text) : ∃ l rest after, Label.bracketed? text = .ok (l, rest) ∧
      (l.map fun l => l.render.toList) = label.map (fun ws => canonical ws.1) ∧
      Hoa.numeral? rest = some (ds.1, after) ∧ Spaced more after := by
  cases label with
  | none =>
    obtain ⟨after, digits, behind⟩ := numeral? ds.2.1 ds.2.2 spaced
    have absent := bracketed?_eq_none (visible_digits ds) (differ_digits rfl (by decide) ds) spaced
    exact ⟨none, text, after, absent, rfl, digits, behind⟩
  | some ws =>
    simp only [labelWords, Option.elim_some, append_assoc, cons_append, nil_append] at spaced
    obtain ⟨l, rest, labelled, same, behind⟩ := spaced.bracketed? ws.2
    obtain ⟨after, digits, further⟩ := behind.numeral? ds.2.1 ds.2.2
    exact ⟨some l, rest, after, labelled, congrArg some same, digits, further⟩

theorem gives_readSignature (signature : Option (List Digits)) (opens : Opens next)
    (spaced : Spaced (groupWords signature ++ next :: more) text) :
    Gives (readSignature text) (∀ ds ∈ signature.getD [], ds.isShort)
      fun r => r.1 = signature.map (·.map Digits.value) ∧ Spaced (next :: more) r.2 := by
  unfold readSignature
  cases signature with
  | none =>
    obtain ⟨c, first, other, _⟩ := opens.head
    rw [Spaced.word?_eq_none (w := "\x7b") spaced opens.visible (differ_of_head rfl first other.symm)]
    exact (Gives.ok ⟨rfl, spaced⟩).congr (by simp) fun _ => id
  | some dss =>
    rw [groupWords, Option.elim_some, cons_append, append_assoc, singleton_append] at spaced
    obtain ⟨rest, opened, behind⟩ := spaced.word? (by decide)
    have each : ∀ x ∈ dss.map Subtype.val, ∀ ws text, Spaced (x :: ws) text →
        ∃ rest, Hoa.numeral? text = some (x, rest) ∧ Spaced ws rest := by
      simp only [forall_mem_map]
      exact fun ds _ ws text spaced => spaced.numeral? ds.2.1 ds.2.2
    rw [← map_id (dss.map Subtype.val)] at behind
    obtain ⟨after, read, closes⟩ := behind.all each fun text spaced =>
      spaced.numeral?_eq_none (by decide) ⟨_, rfl, by decide⟩
    obtain ⟨last, closed, left⟩ := closes.word? (w := "\x7d") (by decide)
    rw [opened]
    dsimp only
    rw [read]
    refine Gives.of_ok (demand_eq_ok closed) ?_
    refine ((gives_settleAll (opens.opensEdge _ _ left) dss).bind fun ms same => Gives.ok ?_).congr
      (by simp) fun _ => id
    exact ⟨congrArg some same, left⟩

end

structure Branch.Matches (b : Branch) (e : Edge) : Prop where
  label : (e.label.map fun l => l.render.toList) = b.label.map fun ws => canonical ws.1
  destination : e.destination = b.destination.value
  signature : e.signature = b.signature.map (·.map Digits.value)

structure Node.Matches (n : Node) (b : Block) : Prop where
  label : (b.label.map fun l => l.render.toList) = n.label.map fun ws => canonical ws.1
  id : b.id = n.id.value
  doc : b.doc = n.doc.map (Text.stripChars ['"'])
  signature : b.signature = n.signature.map (·.map Digits.value)
  edges : Forall₂ Branch.Matches n.branches b.edges

variable {next : String} {text : List Char} {more : List Word}

theorem exists_opener (ends : next = "State:" ∨ next = "--END--") (branches : List Branch)
    (more : List Word) : ∃ first, Opens first ∧ ∃ rest,
      branches.flatMap Branch.words ++ next.toList :: more = first :: rest := by
  cases branches with
  | nil => exact ⟨_, opens_of_mem (by rcases ends with rfl | rfl <;> decide), more, rfl⟩
  | cons b branches =>
    obtain ⟨label, destination, signature⟩ := b
    cases label with
    | none => exact ⟨_, opens_digits destination, _, rfl⟩
    | some ws => exact ⟨_, opens_of_mem (w := "[") (by decide), _, rfl⟩

theorem gives_readEdges (ends : next = "State:" ∨ next = "--END--") (branches : List Branch)
    (fuel : ℕ) (enough : branches.length ≤ fuel)
    (spaced : Spaced (branches.flatMap Branch.words ++ next.toList :: more) text) :
    Gives (readEdges fuel text) (∀ ds ∈ branches.flatMap Branch.digits, ds.isShort)
      fun r => Forall₂ Branch.Matches branches r.1 ∧ Spaced (next.toList :: more) r.2 := by
  induction branches generalizing text fuel with
  | nil =>
    have result : readEdges fuel text = .ok ([], text) := by
      cases fuel with
      | zero => rfl
      | succ fuel =>
        have visible : Visible next.toList := by rcases ends with rfl | rfl <;> decide
        have label := spaced.bracketed?_eq_none visible (by rcases ends with rfl | rfl <;> decide)
        have digits := spaced.numeral?_eq_none visible (by rcases ends with rfl | rfl <;> exact ⟨_, rfl, by decide⟩)
        rw [readEdges, label]
        simp only [bind, Except.bind, digits]
        rfl
    rw [result]
    exact (Gives.ok ⟨.nil, spaced⟩).congr (by simp) fun _ => id
  | cons b branches ih =>
    obtain ⟨fuel, rfl⟩ : ∃ n, fuel = n + 1 := ⟨fuel - 1, by simp at enough; omega⟩
    rw [flatMap_cons, append_assoc, Branch.words, append_assoc, cons_append] at spaced
    obtain ⟨l, rest, after, labelled, same, digits, further⟩ := spaced.labelled
    obtain ⟨first, opens, tail, shape⟩ := exists_opener ends branches more
    rw [shape] at further
    unfold readEdges
    refine Gives.of_ok labelled ?_
    simp only [digits]
    -- the signature comes first, since the text behind it shows that the edge is over
    refine ((gives_readSignature b.signature opens further).bind (fun r signature =>
      (gives_settle (opens.opensEdge _ _ signature.2) b.destination).bind (fun m number =>
        (ih fuel (by simpa using enough) (shape ▸ signature.2)).bind
          (fun es edges => Gives.ok ?_)))).congr ?_ fun _ => id
    · exact ⟨.cons ⟨same, number, signature.1⟩ edges.1, edges.2⟩
    · simp only [Branch.digits, flatMap_cons, mem_append, mem_singleton]
      grind

theorem length_le_words {α : Type} {f : α → List Word} (nonempty : ∀ x, f x ≠ []) (xs : List α) :
    xs.length ≤ (xs.flatMap f).length := by
  induction xs with
  | nil => exact Nat.zero_le _
  | cons x xs ih =>
    have positive := length_pos_of_ne_nil (nonempty x)
    simp only [flatMap_cons, length_cons, length_append]
    omega

theorem gives_readRest (ends : next = "State:" ∨ next = "--END--") (n : Node) {l : Option Label}
    (same : (l.map fun l => l.render.toList) = n.label.map fun ws => canonical ws.1) {doc : Option String}
    (stripped : doc = n.doc.map (Text.stripChars ['"']))
    (spaced : Spaced (groupWords n.signature ++ (n.branches.flatMap Branch.words ++ next.toList :: more)) text) :
    Gives (do
        let (signature, rest) ← readSignature text
        let id ← settle opensEdge rest n.id.1
        let (edges, rest) ← readEdges (rest.length + 1) rest
        return ((⟨l, id, doc, signature, edges⟩ : Block), rest))
      (∀ ds ∈ n.digits, ds.isShort) fun r => n.Matches r.1 ∧ Spaced (next.toList :: more) r.2 := by
  obtain ⟨first, opens, tail, shape⟩ := exists_opener ends n.branches more
  rw [shape] at spaced
  refine ((gives_readSignature n.signature opens spaced).bind (fun r known =>
    (gives_settle (opens.opensEdge _ _ known.2) n.id).bind (fun m number =>
      (gives_readEdges ends n.branches _ ?_ (shape ▸ known.2)).bind
        (fun es edges => Gives.ok ?_)))).congr ?_ fun _ => id
  · have length := known.2.length_le
    have bound := length_le_words (f := Branch.words) (by simp [Branch.words]) n.branches
    rw [← shape, length_append] at length
    omega
  · exact ⟨⟨same, number, stripped, known.1, edges.1⟩, edges.2⟩
  · simp only [Node.digits, mem_append, mem_cons]
    grind

theorem gives_readBlock (ends : next = "State:" ∨ next = "--END--") (n : Node)
    (inside : ∀ s ∈ n.doc, enclosed s.toList)
    (spaced : Spaced (n.words.tail ++ next.toList :: more) text) :
    Gives (readBlock text) (∀ ds ∈ n.digits, ds.isShort)
      fun r => n.Matches r.1 ∧ Spaced (next.toList :: more) r.2 := by
  simp only [Node.words, tail_cons, append_assoc, cons_append] at spaced
  obtain ⟨l, rest, after, labelled, same, digits, documented⟩ := spaced.labelled
  unfold readBlock
  refine Gives.of_ok labelled ?_
  refine Gives.of_ok (demand_eq_ok digits) ?_
  cases doc : n.doc with
  | some s =>
    rw [doc] at documented
    obtain ⟨behind, found, signed⟩ := quotation? (inside s doc) documented
    simp only [found]
    exact gives_readRest ends n same (by rw [doc]; rfl) signed
  | none =>
    rw [doc] at documented
    have absent : quoted? after = none := by
      obtain ⟨first, opens, tail, shape⟩ := exists_opener ends n.branches more
      cases signature : n.signature with
      | none =>
        obtain ⟨c, known, _, other⟩ := opens.head
        rw [signature, shape] at documented
        exact quoted?_eq_none opens.visible ⟨c, known, other⟩ documented
      | some dss =>
        rw [signature] at documented
        exact quoted?_eq_none (by decide) ⟨_, rfl, by decide⟩ documented
    simp only [absent]
    exact gives_readRest ends n same (by rw [doc]; rfl) documented

theorem gives_readBody (nodes : List Node) (inside : ∀ n ∈ nodes, ∀ s ∈ n.doc, enclosed s.toList)
    (fuel : ℕ) (enough : nodes.length < fuel)
    (spaced : Spaced (nodes.flatMap Node.words ++ ["--END--".toList]) text) :
    Gives (readBody fuel text) (∀ ds ∈ nodes.flatMap Node.digits, ds.isShort)
      fun r => Forall₂ Node.Matches nodes r.1 ∧ Spaced [] r.2 := by
  induction nodes generalizing text fuel with
  | nil =>
    obtain ⟨fuel, rfl⟩ : ∃ n, fuel = n + 1 := ⟨fuel - 1, by simp at enough; omega⟩
    have absent := Spaced.word?_eq_none (w := "State:") spaced (by decide) (by decide)
    obtain ⟨rest, found, behind⟩ := Spaced.word? (w := "--END--") spaced (by decide)
    rw [readBody, absent]
    refine ⟨fun _ => ⟨([], rest), ?_, .nil, behind⟩, fun long => absurd (by simp) long⟩
    rw [demand_eq_ok found]
    rfl
  | cons n nodes ih =>
    obtain ⟨fuel, rfl⟩ : ∃ n, fuel = n + 1 := ⟨fuel - 1, by simp at enough; omega⟩
    obtain ⟨first, others⟩ := forall_mem_cons.mp inside
    rw [flatMap_cons, append_assoc] at spaced
    obtain ⟨rest, found, behind⟩ := Spaced.word? (w := "State:") spaced (by decide)
    -- behind a state there is another one, or the end
    obtain ⟨next, ends, more, shape⟩ : ∃ next : String, (next = "State:" ∨ next = "--END--") ∧ ∃ more,
        nodes.flatMap Node.words ++ ["--END--".toList] = next.toList :: more := by
      cases nodes with
      | nil => exact ⟨"--END--", .inr rfl, [], rfl⟩
      | cons n nodes => exact ⟨"State:", .inl rfl, _, rfl⟩
    change Spaced (n.words.tail ++ (nodes.flatMap Node.words ++ ["--END--".toList])) rest at behind
    rw [shape] at behind
    rw [readBody, found]
    refine ((gives_readBlock ends n first behind).bind (fun b block =>
      (ih others fuel (by simpa using enough) (shape ▸ block.2)).bind
        (fun bs blocks => Gives.ok ?_))).congr ?_ fun _ => id
    · exact ⟨.cons block.1 blocks.1, blocks.2⟩
    · simp only [flatMap_cons, mem_append]
      grind

theorem Spaced.skipSpaces_eq_nil (spaced : Spaced [] text) : skipSpaces text = [] := by
  cases spaced with
  | nil blank => exact dropWhile_eq_nil_iff.mpr blank

/-- What is read behind a header. -/
theorem gives_readStates {nodes : List Node} (inside : ∀ n ∈ nodes, ∀ s ∈ n.doc, enclosed s.toList) (h : Header)
    (spaced : Spaced (nodes.flatMap Node.words ++ ["--END--".toList]) text) :
    Gives (do
        let (blocks, rest) ← readBody (text.length + 1) text
        if (skipSpaces rest).isEmpty then return (⟨h, blocks⟩ : Hoa) else throw (refuse rest))
      (∀ ds ∈ nodes.flatMap Node.digits, ds.isShort)
      fun hoa => hoa.header = h ∧ Forall₂ Node.Matches nodes hoa.blocks := by
  have enough : nodes.length < text.length + 1 := by
    have length := spaced.length_le
    have bound := length_le_words (f := Node.words) (by simp [Node.words]) nodes
    rw [length_append] at length
    omega
  have finish (r : List Block × List Char) (known : Forall₂ Node.Matches nodes r.1 ∧ Spaced [] r.2) :
      Gives (if (skipSpaces r.2).isEmpty then pure ⟨h, r.1⟩ else throw (refuse r.2) : Except Error Hoa) True
        fun hoa => hoa.header = h ∧ Forall₂ Node.Matches nodes hoa.blocks := by
    rw [known.2.skipSpaces_eq_nil]
    exact Gives.ok ⟨rfl, known.1⟩
  exact ((gives_readBody nodes inside _ enough spaced).bind finish).congr (by simp) fun _ => id

end Supermartingale.Hoa
