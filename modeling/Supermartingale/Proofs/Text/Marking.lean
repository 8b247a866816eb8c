import Mathlib.Logic.Function.Basic
import Mathlib.Tactic.IntervalCases
import Supermartingale.Automaton
import Supermartingale.Proofs.Except
import Supermartingale.Proofs.Text.Replace

/-!
# Tables with marked keys

A table is applied in two rounds: the first puts quotes around the keys, the second replaces the quoted keys. If the
keys are single characters, this replaces all keys at once. Longer keys get in each other's way when one is part of
another, since the marks of the one break up the other.
-/

namespace Supermartingale.Text

open List Function

def mark (k : List Char) : List Char := ['\'', '\'', '\''] ++ k ++ ['\'', '\'', '\'']

def shown (bracket : Bool) (v : String) : List Char := if bracket then '(' :: (v.toList ++ [')']) else v.toList

theorem toList_replaceTable (bracket : Bool) (table : Table) (s : String) :
    (replaceTable bracket table s).toList =
      table.foldl (fun cs e => replaceChars (mark e.1.toList) (shown bracket e.2) cs)
        (table.foldl (fun cs e => replaceChars e.1.toList (mark e.1.toList) cs) s.toList) := by
  have quotes : "'''".toList = ['\'', '\'', '\''] := rfl
  rw [replaceTable, replaceMarked, ← foldl_hom String.toList, ← foldl_hom String.toList]
  · intro s e
    simp [replaceAll, mark, quotes]
  · intro s e
    have value : (if bracket then "(" ++ e.2 ++ ")" else e.2).toList = shown bracket e.2 := by
      cases bracket <;> simp [shown, show "(".toList = ['('] from rfl, show ")".toList = [')'] from rfl]
    simp [replaceAll, mark, quotes, value]

/-! ## Keys of one character -/

theorem replaceFrom_pass {pattern w rest : List Char} (value : List Char)
    (absent : ∀ t, t ≠ [] → t <:+ w → ¬ pattern <+: t ++ rest) :
    replaceFrom pattern value 0 (w ++ rest) = w ++ replaceFrom pattern value 0 rest := by
  induction w with
  | nil => rfl
  | cons c w ih =>
    have here : ¬ pattern <+: c :: (w ++ rest) := absent _ (cons_ne_nil c w) suffix_rfl
    rw [cons_append, replaceFrom_cons value here, cons_append,
      ih fun t nonempty ends => absent t nonempty (ends.trans (suffix_cons c w))]

theorem replaceFrom_char (k : Char) (value cs : List Char) :
    replaceFrom [k] value 0 cs = cs.flatMap fun c => if c = k then value else [c] := by
  induction cs with
  | nil => rfl
  | cons c cs ih =>
    rw [flatMap_cons, ← ih]
    by_cases same : c = k
    · rw [if_pos same, same]
      exact replaceFrom_append value (cons_ne_nil k []) cs
    · rw [if_neg same]
      exact replaceFrom_cons value (by simp [Ne.symm same])

def marked (ks : List Char) (c : Char) : List Char := if c ∈ ks then mark [c] else [c]

theorem foldl_marked {done ks : List Char} (distinct : (done ++ ks).Nodup) (keys : '\'' ∉ done ++ ks) (cs : List Char) :
    ks.foldl (fun cs k => replaceFrom [k] (mark [k]) 0 cs) (cs.flatMap (marked done)) =
      cs.flatMap (marked (done ++ ks)) := by
  induction ks generalizing done with
  | nil => simp
  | cons k ks ih =>
    have step (c : Char) :
        ((marked done c).flatMap fun d => if d = k then mark [k] else [d]) = marked (done ++ [k]) c := by
      have apart : k ∉ done := fun early => (nodup_append.mp distinct).2.2 k early k mem_cons_self rfl
      have other : k ≠ '\'' := fun quote => keys (by simp [quote])
      by_cases same : c = k
      · simp [marked, same, apart]
      · by_cases early : c ∈ done <;> simp [marked, mark, early, same, Ne.symm other]
    rw [append_cons] at distinct keys ⊢
    rw [foldl_cons, replaceFrom_char, flatMap_assoc, funext step]
    exact ih distinct keys

/-- What stands for a character between the rounds: its mark, or a final text that cannot be taken for a key. -/
def Stands (keys : List Char) (c : Char) (w : List Char) : Prop :=
  c ≠ '\'' ∧ w = mark [c] ∨ '\'' ∉ w ∧ ∀ k ∈ keys, w ≠ [k]

section

variable {keys : List Char} {f : Char → List Char} {k : Char} (key : k ∈ keys) (other : k ≠ '\'')

include key other

/-- Behind a mark no key stands between quotes by chance. -/
theorem not_prefix_images {cs : List Char} (stands : ∀ c ∈ cs, Stands keys c (f c)) {n : ℕ} (few : n < 3) :
    ¬ replicate n '\'' ++ [k, '\''] <+: cs.flatMap f := by
  induction cs with
  | nil => simp
  | cons c cs ih =>
    obtain ⟨first, others⟩ := forall_mem_cons.mp stands
    intro start
    rw [flatMap_cons] at start
    rcases first with ⟨-, marked⟩ | ⟨free, apart⟩
    · rw [marked] at start
      interval_cases n <;> simp [mark, replicate, other] at start
    · cases image : f c with
      | nil => exact ih others (by simpa [image] using start)
      | cons x w =>
        rw [image] at start free apart
        cases n with
        | zero =>
          obtain ⟨rfl, behind⟩ := cons_prefix_cons.mp start
          cases w with
          | nil => exact apart k key rfl
          | cons y w =>
            obtain ⟨rfl, -⟩ := cons_prefix_cons.mp behind
            simp at free
        | succ n =>
          obtain ⟨rfl, -⟩ := cons_prefix_cons.mp start
          simp at free

/-- One step of the second round. -/
theorem replaceFrom_images {cs : List Char} (stands : ∀ c ∈ cs, Stands keys c (f c)) (here : f k = mark [k])
    (value : List Char) :
    replaceFrom (mark [k]) value 0 (cs.flatMap f) = cs.flatMap (update f k value) := by
  induction cs with
  | nil => rfl
  | cons c cs ih =>
    obtain ⟨first, others⟩ := forall_mem_cons.mp stands
    rw [flatMap_cons, flatMap_cons, ← ih others]
    by_cases same : c = k
    · rw [same, here, update_self]
      exact replaceFrom_append value (by simp [mark]) _
    · rw [update_of_ne same]
      refine replaceFrom_pass value fun t nonempty ends start => ?_
      rcases first with ⟨plain, marked⟩ | ⟨free, -⟩
      · have behind (n : ℕ) (few : n < 3)
            (start : replicate n '\'' ++ [k, '\'', '\'', '\''] <+: cs.flatMap f) : False :=
          not_prefix_images key other others few (.trans ⟨['\'', '\''], by simp⟩ start)
        rw [marked] at ends
        simp only [mark, cons_append, nil_append, suffix_cons_iff, suffix_nil, nonempty, or_false] at ends
        rcases ends with rfl | rfl | rfl | rfl | rfl | rfl | rfl <;>
          simp [mark, other, Ne.symm same, Ne.symm plain] at start
        · exact behind 0 (by decide) start
        · exact behind 1 (by decide) start
        · exact behind 2 (by decide) start
      · obtain ⟨x, t, rfl⟩ := exists_cons_of_ne_nil nonempty
        obtain ⟨rfl, -⟩ := cons_prefix_cons.mp start
        exact free (ends.subset mem_cons_self)

end

/-- The second round puts in the values that `g` gives to the keys. -/
theorem foldl_images (keys : List Char) {es : List (Char × List Char)} (distinct : (es.map Prod.fst).Nodup)
    (settled : ∀ e ∈ es, e.1 ∈ keys ∧ e.1 ≠ '\'' ∧ '\'' ∉ e.2 ∧ ∀ k ∈ keys, e.2 ≠ [k]) {cs : List Char}
    {f g : Char → List Char} (stands : ∀ c ∈ cs, Stands keys c (f c)) (left : ∀ e ∈ es, f e.1 = mark [e.1])
    (values : ∀ e ∈ es, g e.1 = e.2) (others : ∀ c, (∀ e ∈ es, e.1 ≠ c) → g c = f c) :
    es.foldl (fun cs e => replaceFrom (mark [e.1]) e.2 0 cs) (cs.flatMap f) = cs.flatMap g := by
  induction es generalizing f with
  | nil => rw [foldl_nil, funext fun c => others c (by simp)]
  | cons e es ih =>
    obtain ⟨apart, distinct⟩ := nodup_cons.mp distinct
    obtain ⟨⟨key, other, free, bare⟩, settled⟩ := forall_mem_cons.mp settled
    obtain ⟨here, left⟩ := forall_mem_cons.mp left
    obtain ⟨value, values⟩ := forall_mem_cons.mp values
    rw [foldl_cons, replaceFrom_images key other stands here]
    refine ih distinct settled (fun c inside => ?_) (fun d inside => ?_) values fun c absent => ?_
    · by_cases same : c = e.1
      · rw [same, update_self]
        exact .inr ⟨free, bare⟩
      · rw [update_of_ne same]
        exact stands c inside
    · rw [update_of_ne, left d inside]
      rintro same
      exact apart (same ▸ mem_map_of_mem inside)
    · by_cases same : c = e.1
      · rw [same, update_self, value]
      · rw [update_of_ne same]
        exact others c (forall_mem_cons.mpr ⟨Ne.symm same, absent⟩)

def keyed (entries : List (Char × String)) : Table := entries.map fun e => (String.singleton e.1, e.2)

/-- The substitution of a table: every key becomes its value and every other character stays. -/
structure Substitutes (bracket : Bool) (entries : List (Char × String)) (f : Char → List Char) : Prop where
  keys : ∀ e ∈ entries, f e.1 = shown bracket e.2
  others : ∀ c, (∀ e ∈ entries, e.1 ≠ c) → f c = [c]

section

variable {bracket : Bool} {entries : List (Char × String)} {s : String} {f : Char → List Char}

theorem toList_replaceTable_keyed (bracket : Bool) (entries : List (Char × String)) (s : String) :
    (replaceTable bracket (keyed entries) s).toList =
      (entries.map fun e => (e.1, shown bracket e.2)).foldl (fun cs e => replaceFrom (mark [e.1]) e.2 0 cs)
        ((entries.map Prod.fst).foldl (fun cs k => replaceFrom [k] (mark [k]) 0 cs) s.toList) := by
  simp only [toList_replaceTable, keyed, foldl_map, String.toList_singleton]
  rfl

/-- A table of single characters replaces them all at once, in whatever order it lists them, if no value can be taken
for a key. -/
theorem replaceTable_simultaneous (distinct : (entries.map Prod.fst).Nodup)
    (free : ∀ e ∈ entries, e.1 ≠ '\'' ∧ '\'' ∉ e.2.toList) (plain : '\'' ∉ s.toList)
    (apart : bracket = true ∨ ∀ e ∈ entries, ∀ d ∈ entries, e.2 ≠ String.singleton d.1)
    (substitutes : Substitutes bracket entries f) (order : List (Char × String)) (listed : order.Perm entries) :
    replaceTable bracket (keyed order) s = String.ofList (s.toList.flatMap f) := by
  have same (e : Char × String) : e ∈ order ↔ e ∈ entries := listed.mem_iff
  have once : (order.map Prod.fst).Nodup := (listed.map Prod.fst).nodup_iff.mpr distinct
  have bare : s.toList.flatMap (marked []) = s.toList := by
    rw [show marked [] = fun c => [c] from rfl, flatMap_singleton']
  have first := @foldl_marked [] _ once (by simpa [same] using fun v inside => (free _ inside).1 rfl) s.toList
  refine String.toList_injective ?_
  rw [toList_replaceTable_keyed, String.toList_ofList, ← bare, first, bare, nil_append]
  refine foldl_images (order.map Prod.fst) (by rwa [map_map]) ?_ (fun c inside => ?_) ?_ ?_ fun c absent => ?_
  · simp only [forall_mem_map, same]
    intro e listed
    obtain ⟨other, quoteless⟩ := free e listed
    refine ⟨mem_map_of_mem ((same e).mpr listed), other, ?_⟩
    cases bracket with
    | true => simp [shown, quoteless]
    | false =>
      refine ⟨quoteless, fun d there equal => apart.resolve_left (by simp) e listed d there ?_⟩
      exact String.toList_injective (by simpa [shown] using equal)
  · by_cases key : c ∈ order.map Prod.fst
    · exact .inl ⟨ne_of_mem_of_not_mem inside plain, if_pos key⟩
    · rw [marked, if_neg key]
      exact .inr ⟨by simpa using Ne.symm (ne_of_mem_of_not_mem inside plain), fun k there equal => by simp_all⟩
  · simp only [forall_mem_map]
    exact fun e listed => if_pos (mem_map_of_mem listed)
  · simp only [forall_mem_map, same]
    exact substitutes.keys
  · simp only [forall_mem_map, same] at absent
    rw [substitutes.others c absent, marked, if_neg (by simpa [same] using fun v there => absent (c, v) there rfl)]

theorem replaceTable_pair : replaceTable false (keyed [('b', "(a)"), ('a', "bb")]) "abx" = "bb(a)x" :=
  replaceTable_simultaneous (f := fun c => if c = 'a' then ['b', 'b'] else if c = 'b' then ['(', 'a', ')'] else [c])
    (by decide) (by decide) (by decide) (by decide) ⟨by decide, fun c absent => by simp_all [eq_comm]⟩ _ .rfl

end

/-! ## Keys that are words -/

def IsWord (k : String) : Prop := k ≠ "" ∧ ∀ c ∈ k.toList, c.isLower

theorem IsWord.nonempty {k : String} (word : IsWord k) : k.toList ≠ [] := by
  simpa [String.toList_eq_nil_iff] using word.1

theorem filter_word {k : String} (word : IsWord k) : k.toList.filter (· ≠ '\'') = k.toList := by
  refine filter_eq_self.mpr fun c inside => ?_
  have lower := word.2 c inside
  exact decide_eq_true fun quote => by simp [quote] at lower

theorem infix_of_infix_mark {k p : String} (word : IsWord k) (word' : IsWord p) (part : k.toList <:+: mark p.toList) :
    k.toList <:+: p.toList := by
  have kept := part.filter (· ≠ '\'')
  rw [filter_word word, mark, filter_append, filter_append, filter_word word'] at kept
  simpa using kept

/-- A fold that only one member changes anything in. -/
theorem foldl_once {α β : Type} {f : α → β → α} {a a' : α} {b : β} {bs : List β} (distinct : bs.Nodup) (listed : b ∈ bs)
    (here : f a b = a') (others : ∀ c ∈ bs, c ≠ b → f a c = a ∧ f a' c = a') : bs.foldl f a = a' := by
  induction bs with
  | nil => cases listed
  | cons c bs ih =>
    obtain ⟨new, distinct⟩ := nodup_cons.mp distinct
    obtain ⟨first, others⟩ := forall_mem_cons.mp others
    rw [foldl_cons]
    by_cases same : c = b
    · rw [same, here]
      exact foldlRecOn bs f (motive := (· = a')) rfl fun x known d mem => by
        rw [known, (others d mem fun equal => new (same ▸ equal ▸ mem)).2]
    · rw [(first same).1]
      exact ih distinct ((mem_cons.mp listed).resolve_left (Ne.symm same)) others

/-- A name that has no other key in it is marked and replaced as a whole. -/
theorem replaceTable_of_apart {keys : List String} {p : String} (words : ∀ k ∈ keys, IsWord k) (distinct : keys.Nodup)
    (listed : p ∈ keys) (apart : ∀ k ∈ keys, k.toList <:+: p.toList → k = p) {v : String → String}
    (quoteless : '\'' ∉ (v p).toList) : replaceTable false (keys.map fun k => (k, v k)) p = v p := by
  have idle {k value cs : List Char} (filled : k ≠ []) (absent : ¬ k <:+: cs) : replaceChars k value cs = cs := by
    rw [replaceChars, if_neg (by simpa using filled), replaceFrom_of_not_infix _ absent]
  have whole {k : List Char} (filled : k ≠ []) (value : List Char) : replaceChars k value k = value := by
    rw [replaceChars, if_neg (by simpa using filled), replaceFrom_self _ filled]
  have nonempty (k : List Char) : mark k ≠ [] := by simp [mark]
  have inside (k : List Char) : k <:+: mark k := ⟨_, _, rfl⟩
  have marked (k : String) (mem : k ∈ keys) (part : k.toList <:+: mark p.toList) : k = p :=
    apart k mem (infix_of_infix_mark (words k mem) (words p listed) part)
  have first := foldl_once (f := fun cs k => replaceChars k.toList (mark k.toList) cs) distinct listed
    (whole (words p listed).nonempty _) fun k mem other =>
      ⟨idle (words k mem).nonempty fun part => other (apart k mem part),
        idle (words k mem).nonempty fun part => other (marked k mem part)⟩
  have second := foldl_once (f := fun cs k => replaceChars (mark k.toList) (v k).toList cs) distinct listed
    (whole (nonempty _) _) fun k mem other =>
      ⟨idle (nonempty _) fun part => other (marked k mem ((inside _).trans part)),
        idle (nonempty _) fun part => quoteless (part.subset (by simp [mark]))⟩
  refine String.toList_injective ?_
  simp only [toList_replaceTable, foldl_map, first]
  exact second

end Supermartingale.Text

namespace Supermartingale.Automaton

open List Text

/-- An automaton has the table of its propositions, and this binds every name to its own text, in whatever order the
names are listed, if no name is part of another. -/
theorem lookupTable_of_apart {names keys : List String} (distinct : names.Nodup) (words : ∀ n ∈ names, IsWord n)
    (order : keys.Perm names) {v : String → String} (quoteless : ∀ n ∈ names, '\'' ∉ (v n).toList)
    (apart : ∀ p ∈ names, ∀ q ∈ names, q.toList <:+: p.toList → q = p) :
    (∀ hoa states table a, ofHoa hoa states table = .ok a → a.lookup = lookupTable a.propositions table) ∧
    lookupTable names (keys.map fun k => (k, v k)) = names.mapIdx fun i n => (toString i, v n) := by
  refine ⟨fun hoa states table a made => ?_, mapIdx_eq_mapIdx_iff.mpr fun i small => ?_⟩
  · unfold ofHoa at made
    split at made
    · obtain ⟨_, -, made⟩ := bind_eq_ok.mp made
      cases made
      rfl
    · cases made
  · have mem := getElem_mem small
    rw [replaceTable_of_apart (fun k inside => words k (order.mem_iff.mp inside)) (order.nodup_iff.mpr distinct)
      (order.mem_iff.mpr mem) (fun k inside => apart _ mem k (order.mem_iff.mp inside)) (quoteless _ mem)]

theorem lookupTable_apart : lookupTable ["ab", "c"] [("c", "S1 >= 0"), ("ab", "S1 <= 0")] =
    [("0", "S1 <= 0"), ("1", "S1 >= 0")] := by
  have words : ∀ n ∈ ["ab", "c"], IsWord n := by
    unfold IsWord
    decide
  exact (lookupTable_of_apart (by decide) words (.swap "ab" "c" [])
    (v := fun n => if n = "ab" then "S1 <= 0" else "S1 >= 0") (by decide) (by decide)).2

/-- The name ab is lost to the name a, with the keys in reverse order too. -/
theorem lookupTable_part :
    lookupTable ["a", "ab"] [("a", "S1 <= 0"), ("ab", "S1 >= 0")] = [("0", "S1 <= 0"), ("1", "S1 <= 0b")] ∧
    lookupTable ["a", "ab"] [("ab", "S1 >= 0"), ("a", "S1 <= 0")] = [("0", "S1 <= 0"), ("1", "'''S1 <= 0b'''")] := by
  decide +kernel

end Supermartingale.Automaton
