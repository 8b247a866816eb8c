import Mathlib.Data.List.Nodup
import Supermartingale.Automaton.Acceptance
import Supermartingale.Proofs.Automaton.Spread

/-!
# Graphs of numbered states

In a numbered list every state stands at the position that is its number and every transition leads to a listed state.
The graph of such a list has the steps of its states as edges, and turning it around turns these edges around.
-/

namespace Supermartingale

open List Supermartingale.Graph

namespace Graph

theorem foldl_set {g entries : Graph} (distinct : ((g ++ entries).map (·.1)).Nodup) :
    entries.foldl (fun g (v, ws) => g.set v ws) g = g ++ entries := by
  induction entries generalizing g with
  | nil => simp
  | cons entry entries ih =>
    obtain ⟨v, ws⟩ := entry
    have absent : g.any (fun (n, _) => n == v) = false := by
      rw [any_eq_false]
      rintro ⟨n, us⟩ mem same
      rw [map_append, nodup_append] at distinct
      refine distinct.2.2 n (mem_map_of_mem mem) v ?_ (by simpa using same)
      simp
    have added : g.set v ws = g ++ [(v, ws)] := by
      rw [set, absent]
      rfl
    rw [foldl_cons]
    dsimp only
    rw [added, ih (by simpa using distinct)]
    simp

theorem ofList_eq {entries : Graph} (distinct : (entries.map (·.1)).Nodup) : ofList entries = entries :=
  foldl_set (g := []) distinct

theorem edge_iff {g : Graph} (distinct : (g.map (·.1)).Nodup) {v w : Int} :
    g.Edge v w ↔ ∃ ws, (v, ws) ∈ g ∧ w ∈ ws := by
  unfold Edge successors
  constructor
  · intro edge
    cases found : g.find? (fun (n, _) => n == v) with
    | none => simp [found] at edge
    | some entry =>
      obtain ⟨n, ws⟩ := entry
      have same : n = v := by simpa using List.find?_some found
      refine ⟨ws, same ▸ mem_of_find?_eq_some found, ?_⟩
      simpa [found] using edge
  · rintro ⟨ws, mem, successor⟩
    cases found : g.find? (fun (n, _) => n == v) with
    | none => simpa using List.find?_eq_none.mp found _ mem
    | some entry =>
      have same : entry.1 = v := by simpa using List.find?_some found
      have equal : entry = (v, ws) := inj_on_of_nodup_map distinct (mem_of_find?_eq_some found) mem same
      rw [equal]
      exact successor

end Graph

namespace State

variable {states : List State} {excluded : List Int} {v w : Int} {g : Graph}

/-- The states have the numbers of the positions, in any order, and transitions lead to listed states. -/
structure Listed (states : List State) : Prop where
  ids : (states.map (·.id)).Perm ((List.range states.length).map Int.ofNat)
  destinations : ∀ s ∈ states, ∀ t ∈ s.transitions, Graph.InRange states.length t.destination

instance (states : List State) : Decidable (Listed states) :=
  decidable_of_iff ((states.map (·.id)).Perm ((List.range states.length).map Int.ofNat) ∧
      ∀ s ∈ states, ∀ t ∈ s.transitions, Graph.InRange states.length t.destination)
    ⟨fun h => ⟨h.1, h.2⟩, fun h => ⟨h.ids, h.destinations⟩⟩

namespace Listed

theorem nodup (listed : Listed states) : (states.map (·.id)).Nodup := by
  rw [listed.ids.nodup_iff]
  exact nodup_range.map fun _ _ => Int.ofNat.inj

theorem inRange_iff (listed : Listed states) : Graph.InRange states.length v ↔ ∃ s ∈ states, s.id = v := by
  rw [← mem_map, listed.ids.mem_iff, mem_map]
  constructor
  · rintro ⟨nonneg, bound⟩
    exact ⟨v.toNat, mem_range.mpr (by omega), by simp [nonneg]⟩
  · rintro ⟨i, mem, rfl⟩
    have bound := mem_range.mp mem
    simp [Graph.InRange, bound]

theorem inRange (listed : Listed states) {s : State} (mem : s ∈ states) : Graph.InRange states.length s.id :=
  listed.inRange_iff.mpr ⟨s, mem, rfl⟩

end Listed

/-- Every state stands at the position that is its number, and transitions lead to listed states. -/
structure Numbered (states : List State) : Prop where
  ids : states.map (·.id) = (List.range states.length).map Int.ofNat
  destinations : ∀ s ∈ states, ∀ t ∈ s.transitions, Graph.InRange states.length t.destination

instance (states : List State) : Decidable (Numbered states) :=
  decidable_of_iff (states.map (·.id) = (List.range states.length).map Int.ofNat ∧
      ∀ s ∈ states, ∀ t ∈ s.transitions, Graph.InRange states.length t.destination)
    ⟨fun h => ⟨h.1, h.2⟩, fun h => ⟨h.ids, h.destinations⟩⟩

namespace Numbered

section

variable (numbered : Numbered states)
include numbered

theorem listed : Listed states := ⟨.of_eq numbered.ids, numbered.destinations⟩

theorem inRange {s : State} (mem : s ∈ states) :
    Graph.InRange states.length s.id :=
  numbered.listed.inRange mem

theorem eq_of_id {s s' : State} (mem : s ∈ states)
    (mem' : s' ∈ states) (same : s.id = s'.id) : s = s' :=
  inj_on_of_nodup_map numbered.listed.nodup mem mem' same

theorem id_getElem {i : ℕ} (bound : i < states.length) : states[i].id = i := by
  have both := congrArg (fun ids => ids[i]?) numbered.ids
  simpa [bound] using both

theorem at?_id {s : State} (mem : s ∈ states) : at? states s.id = .ok s := by
  obtain ⟨i, bound, rfl⟩ := getElem_of_mem mem
  rw [at?, position?_of_inRange (numbered.inRange mem), numbered.id_getElem bound]
  simp [bound]

end

end Numbered

/-! ## Edges -/

def Step (states : List State) (v w : Int) : Prop := ∃ s ∈ states, s.id = v ∧ ∃ t ∈ s.transitions, t.destination = w

theorem Listed.step_inRange (listed : Listed states) (step : Step states v w) :
    Graph.InRange states.length v ∧ Graph.InRange states.length w := by
  obtain ⟨s, mem, rfl, t, transition, rfl⟩ := step
  exact ⟨listed.inRange mem, listed.destinations s mem t transition⟩

theorem Numbered.step_inRange (numbered : Numbered states) (step : Step states v w) :
    Graph.InRange states.length v ∧ Graph.InRange states.length w :=
  numbered.listed.step_inRange step

theorem graph_eq (distinct : (states.map (·.id)).Nodup) :
    graph states excluded =
      (states.filter fun s => !excluded.contains s.id).map fun s =>
        (s.id, (s.transitions.map (·.destination)).filter fun d => !excluded.contains d) := by
  refine ofList_eq ?_
  rw [map_map]
  exact distinct.sublist ((filter_sublist (l := states)).map _)

theorem edge_graph_iff (distinct : (states.map (·.id)).Nodup) :
    (graph states excluded).Edge v w ↔ Step states v w ∧ v ∉ excluded ∧ w ∉ excluded := by
  have keys : ((graph states excluded).map (·.1)).Nodup := by
    rw [graph_eq distinct, map_map]
    exact distinct.sublist ((filter_sublist (l := states)).map _)
  rw [Graph.edge_iff keys, graph_eq distinct]
  constructor
  · rintro ⟨ws, mem, successor⟩
    obtain ⟨s, kept, same⟩ := mem_map.mp mem
    cases same
    obtain ⟨inside, free⟩ := mem_filter.mp kept
    obtain ⟨reached, allowed⟩ := mem_filter.mp successor
    exact ⟨⟨s, inside, rfl, mem_map.mp reached⟩, by simpa using free, by simpa using allowed⟩
  · rintro ⟨⟨s, inside, rfl, transition⟩, free, allowed⟩
    refine ⟨_, mem_map_of_mem (mem_filter.mpr ⟨inside, by simpa using free⟩), ?_⟩
    exact mem_filter.mpr ⟨mem_map.mpr transition, by simpa using allowed⟩

theorem Listed.edge_iff (listed : Listed states) : (graph states []).Edge v w ↔ Step states v w := by
  simp [edge_graph_iff listed.nodup]

theorem Numbered.edge_iff (numbered : Numbered states) : (graph states []).Edge v w ↔ Step states v w :=
  numbered.listed.edge_iff

theorem Listed.reaches_inRange (listed : Listed states) (path : (graph states []).Reaches v w)
    (inside : Graph.InRange states.length v) : Graph.InRange states.length w := by
  cases path with
  | refl => exact inside
  | tail _ edge => exact (listed.step_inRange (listed.edge_iff.mp edge)).2

/-! ## The graph turned around -/

theorem addEdge_spec (listed : v ∈ g.map (·.1)) :
    ∃ g', addEdge g v w = .ok g' ∧ g'.map (·.1) = g.map (·.1) ∧
      ∀ x y, g'.Edge x y ↔ g.Edge x y ∨ x = v ∧ y = w := by
  have present : g.any (fun (n, _) => n == v) = true := by
    obtain ⟨entry, mem, rfl⟩ := mem_map.mp listed
    exact any_eq_true.mpr ⟨entry, mem, by simp⟩
  refine ⟨_, by rw [addEdge, present]; rfl, ?_, fun x y => ?_⟩
  · rw [map_map]
    refine map_congr_left fun entry _ => ?_
    dsimp only [Function.comp]
    split <;> rfl
  · -- the first entry of a node keeps its place, so that finding it commutes with the change
    have sameKey : (fun (entry : Int × List Int) => entry.1 == x) ∘ (fun (n, ws) =>
        if n == v then (n, ws ++ [w]) else (n, ws)) = fun entry => entry.1 == x := by
      funext entry
      dsimp only [Function.comp]
      split <;> rfl
    unfold Graph.Edge successors
    rw [List.find?_map, sameKey]
    cases found : g.find? (fun entry => entry.1 == x) with
    | none =>
      have unequal : x ≠ v := by
        rintro rfl
        obtain ⟨entry, mem, same⟩ := mem_map.mp listed
        simpa [same] using List.find?_eq_none.mp found entry mem
      simp [unequal]
    | some entry =>
      obtain ⟨n, ws⟩ := entry
      have same : n = x := by simpa using List.find?_some found
      subst same
      by_cases equal : n = v
      · simp [equal]
      · simp [equal]

theorem foldlM_addEdge (id : Int) (ts : List Transition) (listed : ∀ t ∈ ts, t.destination ∈ g.map (·.1)) :
    ∃ g', ts.foldlM (fun g t => addEdge g t.destination id) g = .ok g' ∧
      g'.map (·.1) = g.map (·.1) ∧
      ∀ x y, g'.Edge x y ↔ g.Edge x y ∨ y = id ∧ ∃ t ∈ ts, t.destination = x := by
  induction ts generalizing g with
  | nil => exact ⟨g, rfl, rfl, by simp⟩
  | cons t ts ih =>
    rw [forall_mem_cons] at listed
    obtain ⟨g₁, added, keys₁, edges₁⟩ := addEdge_spec (w := id) listed.1
    obtain ⟨g₂, rest, keys₂, edges₂⟩ := ih (g := g₁) (keys₁ ▸ listed.2)
    refine ⟨g₂, ?_, keys₂.trans keys₁, fun x y => ?_⟩
    · rw [foldlM_cons, added]
      exact rest
    · rw [edges₂, edges₁]
      simp only [mem_cons, exists_eq_or_imp]
      constructor
      · rintro ((old | ⟨rfl, rfl⟩) | new)
        · exact .inl old
        · exact .inr ⟨rfl, .inl rfl⟩
        · exact .inr ⟨new.1, .inr new.2⟩
      · rintro (old | ⟨rfl, rfl | new⟩)
        · exact .inl (.inl old)
        · exact .inl (.inr ⟨rfl, rfl⟩)
        · exact .inr ⟨rfl, new⟩

theorem foldlM_reverse (ss : List State) (listed : ∀ s ∈ ss, ∀ t ∈ s.transitions, t.destination ∈ g.map (·.1)) :
    ∃ g', ss.foldlM (fun g s => s.transitions.foldlM (fun g t => addEdge g t.destination s.id) g) g =
        .ok g' ∧ g'.map (·.1) = g.map (·.1) ∧ ∀ x y, g'.Edge x y ↔ g.Edge x y ∨ Step ss y x := by
  induction ss generalizing g with
  | nil => exact ⟨g, rfl, rfl, by simp [Step]⟩
  | cons s ss ih =>
    rw [forall_mem_cons] at listed
    obtain ⟨g₁, turned, keys₁, edges₁⟩ := foldlM_addEdge s.id s.transitions listed.1
    obtain ⟨g₂, rest, keys₂, edges₂⟩ := ih (g := g₁) (keys₁ ▸ listed.2)
    refine ⟨g₂, ?_, keys₂.trans keys₁, fun x y => ?_⟩
    · rw [foldlM_cons, turned]
      exact rest
    · rw [edges₂, edges₁]
      simp only [Step, mem_cons, exists_eq_or_imp, or_assoc, eq_comm (a := y)]

theorem Listed.reverseGraph_spec (listed : Listed states) :
    ∃ g, reverseGraph states = .ok g ∧ g.length = states.length ∧
      ∀ x y, g.Edge x y ↔ Step states y x := by
  have blank : ofList (states.map fun s => (s.id, [])) = states.map fun s => (s.id, []) := by
    refine ofList_eq ?_
    rw [map_map]
    exact listed.nodup
  have keys : (ofList (states.map fun s => (s.id, []))).map (·.1) = states.map (·.id) := by
    rw [blank, map_map]
    rfl
  have noEdge (x y : Int) : ¬ (ofList (states.map fun s => (s.id, []))).Edge x y := by
    rw [Graph.edge_iff (keys ▸ listed.nodup), blank]
    rintro ⟨ws, mem, successor⟩
    obtain ⟨s, _, same⟩ := mem_map.mp mem
    cases same
    cases successor
  have known : ∀ s ∈ states, ∀ t ∈ s.transitions,
      t.destination ∈ (ofList (states.map fun s => (s.id, []))).map (·.1) := by
    intro s mem t transition
    rw [keys]
    exact mem_map.mpr (listed.inRange_iff.mp (listed.destinations s mem t transition))
  obtain ⟨g, result, nodes, edges⟩ := foldlM_reverse states known
  refine ⟨g, result, ?_, fun x y => ?_⟩
  · have same := congrArg List.length (nodes.trans keys)
    simpa using same
  · simp [edges, noEdge]

end State

end Supermartingale
