import Mathlib.Data.Finset.Card
import Supermartingale.Automaton.Graph

/-!
# Depth-first search decides what can be reached

What a search finds can be reached from its starting nodes, and the successors of what it finds are found, too. Each
level of the search finds a new node, so there is fuel left as long as it exceeds the number of nodes that are still
to be found.
-/

namespace Supermartingale.Graph

open List

variable {g : Graph} {t t' : List Int} {v w : Int}

/-- There is an edge between two nodes. -/
def Edge (g : Graph) (v w : Int) : Prop := w ∈ g.successors v

abbrev Reaches (g : Graph) : Int → Int → Prop := Relation.ReflTransGen g.Edge

def Connected (g : Graph) (v w : Int) : Prop := g.Reaches v w ∧ g.Reaches w v

theorem Connected.symm (h : g.Connected v w) : g.Connected w v := ⟨h.2, h.1⟩

theorem Connected.trans {u v w : Int} (h : g.Connected u v) (k : g.Connected v w) : g.Connected u w :=
  ⟨h.1.trans k.1, k.2.trans h.2⟩

theorem mem_nodes_of_edge (edge : g.Edge v w) : v ∈ g.nodes := by
  unfold Edge successors at edge
  cases found : g.find? (fun entry => entry.1 == v) with
  | none => simp [found] at edge
  | some entry =>
    obtain ⟨n, ws⟩ := entry
    have same : n = v := by simpa using List.find?_some found
    exact mem_flatMap.mpr ⟨_, mem_of_find?_eq_some found, by simp [same]⟩

/-! ## Paths and searches -/

theorem Reaches.exists_exit {inside : Int → Prop} (path : g.Reaches v w) (start : inside v)
    (outside : ¬ inside w) : ∃ a b, inside a ∧ ¬ inside b ∧ g.Reaches v a ∧ g.Edge a b ∧ g.Reaches b w := by
  induction path with
  | refl => exact absurd start outside
  | @tail u w path edge ih =>
    by_cases still : inside u
    · exact ⟨u, w, still, outside, path, edge, .refl⟩
    · obtain ⟨a, b, before, after, there, exit, back⟩ := ih still
      exact ⟨a, b, before, after, there, exit, back.tail edge⟩

/-- The nodes that are found when a node is visited that may have been found before. The fuel bounds the
depth of the search. -/
def visit (g : Graph) : ℕ → List Int → Int → List Int
  | 0, found, _ => found
  | fuel + 1, found, v =>
    if found.contains v then found
    else (g.successors v).foldl (fun found w => visit g fuel found w) (v :: found)

def reachable (g : Graph) (v : Int) : List Int := g.visit (g.nodes.length + 1) [] v

/-- A search from some nodes leads from the nodes found before to those found after it. -/
structure Explores (g : Graph) (starts found found' : List Int) : Prop where
  kept : ∀ x ∈ found, x ∈ found'
  entered : ∀ v ∈ starts, v ∈ found'
  reached : ∀ x ∈ found', x ∉ found → ∃ v ∈ starts, g.Reaches v x
  closed : ∀ x ∈ found', x ∉ found → ∀ w ∈ g.successors x, w ∈ found'

theorem Explores.refl {starts found : List Int} (known : ∀ v ∈ starts, v ∈ found) :
    g.Explores starts found found where
  kept := fun _ => id
  entered := known
  reached := fun _ inside outside => absurd inside outside
  closed := fun _ inside outside => absurd inside outside

theorem Explores.trans {vs ws t t' t'' : List Int} (first : g.Explores vs t t')
    (second : g.Explores ws t' t'') : g.Explores (vs ++ ws) t t'' where
  kept := fun x inside => second.kept x (first.kept x inside)
  entered := by
    intro v mem
    rcases mem_append.mp mem with old | new
    · exact second.kept v (first.entered v old)
    · exact second.entered v new
  reached := by
    intro x inside outside
    by_cases before : x ∈ t'
    · obtain ⟨v, mem, path⟩ := first.reached x before outside
      exact ⟨v, mem_append_left _ mem, path⟩
    · obtain ⟨v, mem, path⟩ := second.reached x inside before
      exact ⟨v, mem_append_right _ mem, path⟩
  closed := by
    intro x inside outside w successor
    by_cases before : x ∈ t'
    · exact second.kept w (first.closed x before outside w successor)
    · exact second.closed x inside before w successor

theorem Explores.enter {v : Int} (inner : g.Explores (g.successors v) (v :: t) t') : g.Explores [v] t t' where
  kept := fun x inside => inner.kept x (mem_cons_of_mem _ inside)
  entered := by
    intro x mem
    cases mem_singleton.mp mem
    exact inner.kept v mem_cons_self
  reached := by
    intro x inside outside
    refine ⟨v, mem_singleton_self v, ?_⟩
    by_cases same : x = v
    · rw [same]
    · obtain ⟨w, successor, path⟩ := inner.reached x inside (by simp [same, outside])
      exact .head successor path
  closed := by
    intro x inside outside w successor
    by_cases same : x = v
    · exact inner.entered w (same ▸ successor)
    · exact inner.closed x inside (by simp [same, outside]) w successor

/-! ## The fuel suffices -/

def unfound (g : Graph) (found : List Int) : ℕ := (g.nodes.toFinset \ found.toFinset).card

theorem unfound_le (kept : ∀ x ∈ t, x ∈ t') : g.unfound t' ≤ g.unfound t := by
  refine Finset.card_le_card (Finset.sdiff_subset_sdiff (Finset.Subset.refl _) fun x inside => ?_)
  exact mem_toFinset.mpr (kept x (mem_toFinset.mp inside))

theorem unfound_lt {v : Int} (kept : ∀ x ∈ t, x ∈ t') (listed : v ∈ g.nodes) (fresh : v ∉ t)
    (entered : v ∈ t') : g.unfound t' < g.unfound t := by
  refine Finset.card_lt_card ⟨Finset.sdiff_subset_sdiff (Finset.Subset.refl _) ?_, fun subset => ?_⟩
  · intro x inside
    rw [mem_toFinset] at inside ⊢
    exact kept x inside
  · have missing : v ∈ g.nodes.toFinset \ t.toFinset := by simp [listed, fresh]
    have absent := (Finset.mem_sdiff.mp (subset missing)).2
    exact absent (mem_toFinset.mpr entered)

theorem unfound_lt_length (g : Graph) (t : List Int) : g.unfound t < g.nodes.length + 1 := by
  have bound : g.unfound t ≤ g.nodes.toFinset.card := Finset.card_le_card Finset.sdiff_subset
  have distinct := g.nodes.toFinset_card_le
  omega

theorem explores_foldl {fuel : ℕ}
    (visits : ∀ t v, g.unfound t < fuel → g.Explores [v] t (g.visit fuel t v)) (ws : List Int)
    (t : List Int) (enough : ws = [] ∨ g.unfound t < fuel) :
    g.Explores ws t (ws.foldl (fun t w => g.visit fuel t w) t) := by
  induction ws generalizing t with
  | nil => exact .refl (forall_mem_nil _)
  | cons w ws ih =>
    have bound : g.unfound t < fuel := by
      rcases enough with none | some
      · cases none
      · exact some
    have first := visits t w bound
    have rest := ih (g.visit fuel t w) (.inr (lt_of_le_of_lt (unfound_le first.kept) bound))
    exact first.trans rest

theorem explores_visit (fuel : ℕ) (t : List Int) (v : Int) (enough : g.unfound t < fuel) :
    g.Explores [v] t (g.visit fuel t v) := by
  induction fuel generalizing t v with
  | zero => omega
  | succ fuel ih =>
    unfold visit
    split
    · rename_i found
      refine .refl fun x mem => ?_
      cases mem_singleton.mp mem
      exact contains_iff_mem.mp found
    · rename_i missing
      have fresh : v ∉ t := fun found => missing (contains_iff_mem.mpr found)
      refine .enter (explores_foldl ih _ _ ?_)
      cases successors : g.successors v with
      | nil => exact .inl rfl
      | cons w ws =>
        have edge : g.Edge v w := by simp [Edge, successors]
        have less := unfound_lt (fun _ => mem_cons_of_mem v) (mem_nodes_of_edge edge) fresh mem_cons_self
        exact .inr (by omega)

theorem mem_reachable {v x : Int} : x ∈ g.reachable v ↔ g.Reaches v x := by
  have explores := explores_visit _ _ v (g.unfound_lt_length [])
  constructor
  · intro found
    obtain ⟨u, mem, path⟩ := explores.reached x found not_mem_nil
    cases mem_singleton.mp mem
    exact path
  · intro path
    induction path with
    | refl => exact explores.entered v (mem_singleton_self v)
    | tail _ edge ih => exact explores.closed _ ih not_mem_nil _ edge

theorem isClosed_iff {vs : List Int} : g.isClosed vs ↔ ∀ v ∈ vs, ∀ w, g.Edge v w → w ∈ vs := by
  simp [isClosed, Edge]

end Supermartingale.Graph
