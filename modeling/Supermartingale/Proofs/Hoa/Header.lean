import Supermartingale.Proofs.Hoa.Words

/-!
# Header items of an automaton text

A header item consists of a keyword and what belongs to it, and the keyword of the next item shows that it is over.
Items may come in any order. Each one sets its own part of the header.
-/

namespace Supermartingale.Hoa

open List

/-- A header item to be written. -/
inductive Item where
  | version
  | properties (ps : List String)
  | stateCount (n : ℕ)
  | start (n : ℕ)
  | propositions (names : List String)
  | acceptance (count : ℕ) (sets : List ℕ)
  | tool (xs : List String)
  | name (x : String)
  | arguments (xs : List String)
  | acceptanceName (degree : Option ℕ)

namespace Item

def keyword : Item → String
  | version => "HOA:"
  | properties _ => "properties:"
  | stateCount _ => "States:"
  | start _ => "Start:"
  | propositions _ => "AP:"
  | acceptance _ _ => "Acceptance:"
  | tool _ => "tool:"
  | name _ => "name:"
  | arguments _ => "owlArgs:"
  | acceptanceName _ => "acc-name:"

def setWords : List ℕ → List Word
  | [] => []
  | n :: ns => "Inf(".toList :: numeral n :: [')'] :: ns.flatMap fun m => [['&'], "Inf(".toList, numeral m, [')']]

def content : Item → List Word
  | version => ["v1".toList]
  | properties ps => ps.map String.toList
  | stateCount n => [numeral n]
  | start n => [numeral n]
  | propositions names => numeral names.length :: names.map Spaced.quote
  | acceptance count sets => numeral count :: setWords sets
  | tool xs => xs.map Spaced.quote
  | name x => [Spaced.quote x]
  | arguments xs => xs.map Spaced.quote
  | acceptanceName none => ["Buchi".toList]
  | acceptanceName (some n) => ["generalized-Buchi".toList, numeral n]

def words (i : Item) : List Word := i.keyword.toList :: i.content

def IsProper : Item → Prop
  | properties ps => ps ≠ [] ∧ ∀ p ∈ ps, p ∈ Hoa.properties
  | propositions names => ∀ x ∈ names, Spaced.Plain x
  | tool xs => xs ≠ [] ∧ ∀ x ∈ xs, Spaced.Plain x
  | name x => Spaced.Plain x
  | arguments xs => xs ≠ [] ∧ ∀ x ∈ xs, Spaced.Plain x
  | _ => True

def numbers : Item → List ℕ
  | stateCount n => [n]
  | start n => [n]
  | propositions names => [names.length]
  | acceptance count sets => count :: sets
  | _ => []

def put (h : Header) : Item → Header
  | version => { h with version := some "v1" }
  | properties ps => { h with properties := some ps }
  | stateCount n => { h with stateCount := some n }
  | start n => { h with start := some n }
  | propositions names => { h with propositions := some (names.length, names) }
  | acceptance count sets => { h with acceptance := some (count, sets) }
  | tool xs => { h with tool := some xs }
  | name x => { h with name := some x }
  | arguments xs => { h with arguments := some xs }
  | acceptanceName degree => { h with acceptanceName := some (degree.elim "" fun n => String.ofList (numeral n)) }

end Item

open Item

/-! ## Reading items -/

def opening : List String := keywords ++ ["--BODY--"]

theorem visible_opening : ∀ w ∈ opening, Visible w.toList := by decide

theorem head_opening : ∀ w ∈ opening, ∃ c, w.toList.head? = some c ∧ ¬ c.isDigit ∧ c ≠ '"' := by
  intro w mem
  have plain : ∀ w ∈ opening, w.toList.head?.any (fun c => !c.isDigit && c != '"') := by decide
  obtain ⟨c, first, holds⟩ := (Option.any_eq_true _ _).mp (plain w mem)
  exact ⟨c, first, by simpa using holds⟩

theorem differ_opening : ∀ w ∈ opening, ∀ k ∈ opening, k ≠ w → Differ k.toList w.toList := by decide +kernel

section

variable {next : String} {more : List Word} {text : List Char} (opens : next ∈ opening)
include opens

theorem opensItem_of_spaced (spaced : Spaced (next.toList :: more) text) : opensItem text := by
  obtain ⟨rest, found, _⟩ := spaced.oneOf? opens (visible_opening _ opens) (differ_opening _ opens)
  have known : oneOf? (keywords ++ ["--BODY--"]) text = some (next, rest) := found
  simp [opensItem, known]

theorem Spaced.allQuoted {xs : List String} (plain : ∀ x ∈ xs, Plain x)
    (spaced : Spaced (xs.map quote ++ next.toList :: more) text) :
    ∃ rest, Hoa.all Hoa.quoted? text = (xs, rest) ∧ Spaced (next.toList :: more) rest := by
  obtain ⟨c, first, _, other⟩ := head_opening next opens
  exact spaced.all (fun x mem ws text spaced => spaced.quoted? (plain x mem)) fun text spaced =>
    spaced.quoted?_eq_none (visible_opening _ opens) ⟨c, first, other⟩

theorem Spaced.someQuoted {xs : List String} (nonempty : xs ≠ []) (plain : ∀ x ∈ xs, Plain x)
    (spaced : Spaced (xs.map quote ++ next.toList :: more) text) :
    ∃ rest, Hoa.atLeastOne Hoa.quoted? text = .ok (xs, rest) ∧ Spaced (next.toList :: more) rest := by
  obtain ⟨c, first, _, other⟩ := head_opening next opens
  exact spaced.atLeastOne nonempty (fun x mem ws text spaced => spaced.quoted? (plain x mem))
    fun text spaced => spaced.quoted?_eq_none (visible_opening _ opens) ⟨c, first, other⟩

theorem Spaced.readProperties {ps : List String} (nonempty : ps ≠ []) (known : ∀ p ∈ ps, p ∈ Hoa.properties)
    (other : next ≠ "properties:") (fuel : ℕ) (spaced : Spaced (ps.map String.toList ++ next.toList :: more) text) :
    ∃ rest, Hoa.readProperties (fuel + 1) text = .ok (ps, rest) ∧ Spaced (next.toList :: more) rest := by
  have visible : ∀ p ∈ Hoa.properties, Visible p.toList := by decide
  have differ : ∀ p ∈ Hoa.properties, ∀ k ∈ Hoa.properties, k ≠ p → Differ k.toList p.toList := by decide +kernel
  have apart : ∀ w ∈ opening, ∀ k ∈ Hoa.properties, Differ k.toList w.toList := by decide +kernel
  obtain ⟨rest, read, left⟩ := spaced.atLeastOne nonempty
    (fun p mem ws text spaced => spaced.oneOf? (known p mem) (visible p (known p mem)) (differ p (known p mem)))
    fun text spaced => spaced.oneOf?_eq_none (visible_opening _ opens) (apart _ opens)
  have single : Hoa.word? "properties:" rest = none :=
    left.word?_eq_none (visible_opening _ opens) (differ_opening _ opens _ (by decide) other.symm)
  refine ⟨rest, ?_, left⟩
  rw [Hoa.readProperties, read]
  simp only [bind, Except.bind, single]
  rfl

theorem Spaced.version? (spaced : Spaced ("v1".toList :: next.toList :: more) text) :
    ∃ rest, Hoa.version? text = some ("v1", rest) ∧ Spaced (next.toList :: more) rest := by
  obtain ⟨rest, skipped, behind, _⟩ := spaced.exists_rest (by decide)
  have decimals : ∀ w ∈ opening, w.toList.head?.all (!Text.isDecimal ·) := by decide +kernel
  have ends : ∀ c ∈ rest.head?, ¬ Text.isDecimal c := by
    intro c first
    rcases behind.head_cases first with space | head
    · simp only [isSpace, Bool.or_eq_true, beq_iff_eq] at space
      rcases space with (((rfl | rfl) | rfl) | rfl) | rfl <;> decide +kernel
    · simpa using (Option.all_eq_true _ _).mp (decimals next opens) c head
  have stops : rest.takeWhile Text.isDecimal = [] ∧ rest.dropWhile Text.isDecimal = rest := by
    cases rest with
    | nil => exact ⟨rfl, rfl⟩
    | cons d rest => exact ⟨takeWhile_cons_of_neg (ends d rfl), dropWhile_cons_of_neg (ends d rfl)⟩
  have one : Text.isDecimal '1' := by decide +kernel
  refine ⟨rest, ?_, behind⟩
  rw [Hoa.version?, skipped, String.toList_ofList]
  simp only [cons_append, nil_append]
  rw [takeWhile_cons_of_pos one, dropWhile_cons_of_pos one, stops.1, stops.2]

theorem Spaced.readConjunction (n : ℕ) (ns : List ℕ) (fuel : ℕ) (enough : ns.length < fuel)
    (spaced : Spaced (numeral n :: [')'] :: (ns.flatMap (fun m => [['&'], "Inf(".toList, numeral m, [')']]) ++
      next.toList :: more)) text) :
    ∃ rest, Hoa.readConjunction fuel text = .ok ((n :: ns).map numeral, rest) ∧ Spaced (next.toList :: more) rest := by
  induction ns generalizing n text fuel with
  | nil =>
    obtain ⟨fuel, rfl⟩ : ∃ k, fuel = k + 1 := ⟨fuel - 1, by simp at enough; omega⟩
    obtain ⟨after, digits, closes⟩ := spaced.number?
    obtain ⟨rest, closed, left⟩ := closes.word? (w := ")") (by decide)
    have differ : ∀ w ∈ opening, Differ "&".toList w.toList := by decide
    have single : Hoa.word? "&" rest = none := Spaced.word?_eq_none left (visible_opening _ opens) (differ _ opens)
    refine ⟨rest, ?_, left⟩
    rw [Hoa.readConjunction, readSet, demand_eq_ok digits]
    simp only [bind, Except.bind, demand_eq_ok closed, pure, Except.pure, single, map_cons, map_nil]
  | cons m ns ih =>
    obtain ⟨fuel, rfl⟩ : ∃ k, fuel = k + 1 := ⟨fuel - 1, by simp at enough; omega⟩
    obtain ⟨after, digits, closes⟩ := spaced.number?
    obtain ⟨joined, closed, signed⟩ := closes.word? (w := ")") (by decide)
    obtain ⟨behind, sign, further⟩ := Spaced.word? (w := "&") signed (by decide)
    obtain ⟨inner, opened, left⟩ := further.word? (by decide)
    obtain ⟨rest, read, last⟩ := ih m fuel (by simpa using enough) left
    refine ⟨rest, ?_, last⟩
    rw [Hoa.readConjunction, readSet, demand_eq_ok digits]
    simp only [bind, Except.bind, demand_eq_ok closed, pure, Except.pure, sign, demand_eq_ok opened, read, map_cons]

theorem gives_readSets (sets : List ℕ) (spaced : Spaced (setWords sets ++ next.toList :: more) text) :
    Gives (readSets (text.length + 1) text) (∀ n ∈ sets, isWritable n)
      fun r => r.1 = sets ∧ Spaced (next.toList :: more) r.2 := by
  have differ : ∀ w ∈ opening, Differ "Inf(".toList w.toList := by decide
  have absent {text : List Char} (spaced : Spaced (next.toList :: more) text) : Hoa.word? "Inf(" text = none :=
    spaced.word?_eq_none (visible_opening _ opens) (differ _ opens)
  cases sets with
  | nil =>
    rw [readSets, absent spaced]
    exact (Gives.ok ⟨rfl, spaced⟩).congr (by simp) fun _ => id
  | cons n ns =>
    obtain ⟨rest, opened, behind⟩ := Spaced.word? (w := "Inf(") spaced (by decide)
    change Spaced (numeral n :: [')'] :: (ns.flatMap (fun m => [['&'], "Inf(".toList, numeral m, [')']]) ++
      next.toList :: more)) rest at behind
    have enough : ns.length < rest.length + 1 := by
      have length := behind.length_le
      have each : (ns.flatMap fun m => [['&'], "Inf(".toList, numeral m, [')']]).length = ns.length * 4 := by
        simp [length_flatMap]
      simp only [length_cons, length_append, each] at length
      omega
    obtain ⟨after, read, left⟩ := Spaced.readConjunction opens n ns _ enough behind
    have ended : (fun cs => opensItem cs || (Hoa.word? "Inf(" cs).isSome) after := by
      simp [opensItem_of_spaced opens left]
    obtain ⟨fuel, length⟩ : ∃ k, text.length = k + 1 := by
      refine ⟨text.length - 1, ?_⟩
      have length := spaced.length_le
      simp [setWords] at length
      omega
    have last (ms : List ℕ) (same : ms = n :: ns) : Gives (readSets (fuel + 1) after >>= fun x => pure (ms ++ x.1, x.2))
        True fun r => r.1 = n :: ns ∧ Spaced (next.toList :: more) r.2 := by
      rw [readSets, absent left]
      exact Gives.of_ok rfl (Gives.ok ⟨by simp [same], left⟩)
    rw [length, readSets, opened]
    exact Gives.of_ok read (((gives_numbers ended (n :: ns)).bind last).congr (by simp) fun _ => id)

theorem gives_readItem (i : Item) (proper : i.IsProper) (other : next ≠ i.keyword) (h : Header)
    (spaced : Spaced (i.content ++ next.toList :: more) text) :
    Gives (readItem i.keyword h text) (∀ n ∈ i.numbers, isWritable n)
      fun r => r.1 = i.put h ∧ Spaced (next.toList :: more) r.2 := by
  -- an item without numbers
  have plain {r : Except Error (Header × List Char)} {rest : List Char} (result : r = .ok (i.put h, rest))
      (left : Spaced (next.toList :: more) rest) (none : i.numbers = []) :
      Gives r (∀ n ∈ i.numbers, isWritable n) fun r => r.1 = i.put h ∧ Spaced (next.toList :: more) r.2 :=
    ⟨fun _ => ⟨_, result, rfl, left⟩, fun long => absurd (by simp [none]) long⟩
  cases i with
  | version =>
    obtain ⟨rest, found, left⟩ := spaced.version? opens
    refine plain ?_ left rfl
    change (demand Hoa.version? text >>= _) = _
    rw [demand_eq_ok found]
    rfl
  | properties ps =>
    obtain ⟨rest, read, left⟩ := spaced.readProperties opens proper.1 proper.2 other text.length
    refine plain ?_ left rfl
    change (Hoa.readProperties (text.length + 1) text >>= _) = _
    rw [read]
    rfl
  | stateCount n | start n =>
    obtain ⟨rest, digits, left⟩ := spaced.number?
    refine Gives.of_ok (demand_eq_ok digits) ?_
    refine ((gives_number (opensItem_of_spaced opens left) n).bind fun m same => Gives.ok ?_).congr
      (by simp [numbers]) fun _ => id
    exact ⟨by rw [same]; rfl, left⟩
  | propositions names =>
    obtain ⟨after, digits, behind⟩ := spaced.number?
    obtain ⟨rest, read, left⟩ := Spaced.allQuoted opens proper behind
    refine Gives.of_ok (demand_eq_ok digits) ?_
    dsimp only
    rw [read]
    refine ((gives_number (opensItem_of_spaced opens left) names.length).bind fun m same => Gives.ok ?_).congr
      (by simp [numbers]) fun _ => id
    exact ⟨by rw [same]; rfl, left⟩
  | acceptance count sets =>
    obtain ⟨after, digits, behind⟩ := spaced.number?
    refine Gives.of_ok (demand_eq_ok digits) ?_
    refine ((gives_readSets opens sets behind).bind fun r known =>
      (gives_number (opensItem_of_spaced opens known.2) count).bind fun m same => Gives.ok ?_).congr ?_ fun _ => id
    · exact ⟨by rw [same, known.1]; rfl, known.2⟩
    · simp [numbers, and_comm]
  | tool xs | arguments xs =>
    obtain ⟨rest, read, left⟩ := spaced.someQuoted opens proper.1 proper.2
    refine plain ?_ left rfl
    change (Hoa.atLeastOne Hoa.quoted? text >>= _) = _
    rw [read]
    rfl
  | name x =>
    obtain ⟨rest, found, left⟩ := spaced.quoted? proper
    refine plain ?_ left rfl
    change (demand Hoa.quoted? text >>= _) = _
    rw [demand_eq_ok found]
    rfl
  | acceptanceName degree =>
    cases degree with
    | none =>
      have absent := Spaced.word?_eq_none (w := "generalized-Buchi") spaced (by decide) (by decide)
      obtain ⟨rest, found, left⟩ := Spaced.word? (w := "Buchi") spaced (by decide)
      refine plain ?_ left rfl
      simp only [readItem, keyword, absent, demand_eq_ok found]
      rfl
    | some n =>
      obtain ⟨after, found, behind⟩ := Spaced.word? (w := "generalized-Buchi") spaced (by decide)
      obtain ⟨rest, digits, left⟩ := behind.number?
      refine plain ?_ left rfl
      simp only [readItem, keyword, found, demand_eq_ok digits]
      rfl

end

theorem Item.keyword_mem (i : Item) : i.keyword ∈ keywords := by
  cases i <;> simp [keyword, keywords]

theorem gives_readHeader (items : List Item) (proper : ∀ i ∈ items, i.IsProper) (once : (items.map keyword).Nodup)
    (h : Header) {more : List Word} {text : List Char} (fuel : ℕ) (enough : items.length < fuel)
    (spaced : Spaced (items.flatMap words ++ "--BODY--".toList :: more) text) :
    Gives (readHeader fuel h text) (∀ n ∈ items.flatMap numbers, isWritable n)
      fun r => r.1 = items.foldl put h ∧ Spaced more r.2 := by
  induction items generalizing h text fuel with
  | nil =>
    obtain ⟨fuel, rfl⟩ : ∃ n, fuel = n + 1 := ⟨fuel - 1, by simp at enough; omega⟩
    have absent : oneOf? keywords text = none := Spaced.oneOf?_eq_none (by decide) (by decide) spaced
    obtain ⟨rest, found, behind⟩ := Spaced.word? (w := "--BODY--") spaced (by decide)
    refine ⟨fun _ => ⟨(h, rest), ?_, rfl, behind⟩, fun long => absurd (by simp) long⟩
    rw [readHeader, absent]
    change (demand (word? "--BODY--") text >>= _) = _
    rw [demand_eq_ok found]
    rfl
  | cons i items ih =>
    obtain ⟨fuel, rfl⟩ : ∃ n, fuel = n + 1 := ⟨fuel - 1, by simp at enough; omega⟩
    obtain ⟨first, others⟩ := forall_mem_cons.mp proper
    obtain ⟨fresh, rest⟩ := nodup_cons.mp (map_cons ▸ once)
    rw [flatMap_cons, append_assoc] at spaced
    have mem : i.keyword ∈ opening := mem_append_left _ i.keyword_mem
    obtain ⟨after, found, behind⟩ := Spaced.oneOf? i.keyword_mem (visible_opening _ mem)
      (fun k key => differ_opening _ mem k (mem_append_left _ key)) spaced
    -- behind an item there is one of another kind, or the body
    obtain ⟨next, opens, other, tail, shape⟩ : ∃ next : String, next ∈ opening ∧ next ≠ i.keyword ∧ ∃ tail,
        items.flatMap words ++ "--BODY--".toList :: more = next.toList :: tail := by
      cases items with
      | nil =>
        refine ⟨"--BODY--", by decide, fun same => ?_, more, rfl⟩
        have known : "--BODY--" ∈ keywords := same ▸ i.keyword_mem
        exact absurd known (by decide)
      | cons j items =>
        refine ⟨j.keyword, mem_append_left _ j.keyword_mem, fun same => fresh ?_, _, rfl⟩
        exact same ▸ mem_cons_self
    change Spaced (i.content ++ (items.flatMap words ++ "--BODY--".toList :: more)) after at behind
    rw [shape] at behind
    rw [readHeader, found]
    have run (r : Header × List Char) (known : r.1 = i.put h ∧ Spaced (next.toList :: tail) r.2) :
        Gives (readHeader fuel r.1 r.2) (∀ n ∈ items.flatMap numbers, isWritable n)
          fun r => r.1 = (i :: items).foldl put h ∧ Spaced more r.2 := by
      rw [known.1]
      exact ih others rest (i.put h) fuel (by simpa using enough) (shape ▸ known.2)
    refine ((gives_readItem opens i first other h behind).bind run).congr ?_ fun _ => id
    simp only [flatMap_cons, mem_append]
    grind

end Supermartingale.Hoa
