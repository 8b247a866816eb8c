import Supermartingale.Proofs.Automaton.Search

/-!
# Marking what can be reached

A search marks nodes and keeps a queue of those whose successors have not been looked at. As long as every marked node
outside of the queue has only marked successors, the nodes that can be reached from marked ones do not change. A step
makes the queue and the unmarked nodes together one fewer.
-/

namespace Supermartingale.Graph

open List

variable {g : Graph}

/-- A node is the number of a position in a list of this length. -/
def InRange (n : ℕ) (v : Int) : Prop := 0 ≤ v ∧ v < n

instance (n : ℕ) (v : Int) : Decidable (InRange n v) := inferInstanceAs (Decidable (_ ∧ _))

def Marked (marks : List Bool) (v : Int) : Prop := 0 ≤ v ∧ marks[v.toNat]? = some true

theorem position?_of_inRange {n : ℕ} {v : Int} (range : InRange n v) : position? n v = some v.toNat := by
  simp [position?, range.1, range.2]

theorem marked_set {marks : List Bool} {v w : Int} (range : InRange marks.length w) :
    Marked (marks.set w.toNat true) v ↔ Marked marks v ∨ v = w := by
  obtain ⟨nonneg, bound⟩ := range
  unfold Marked
  by_cases same : v = w
  · subst same
    have inside : v.toNat < marks.length := by omega
    simp [nonneg, inside]
  · constructor
    · rintro ⟨positive, marked⟩
      rw [List.getElem?_set_ne (by omega)] at marked
      exact .inl ⟨positive, marked⟩
    · rintro (⟨positive, marked⟩ | equal)
      · exact ⟨positive, by rwa [List.getElem?_set_ne (by omega)]⟩
      · exact absurd equal same

/-- What marking the nodes of a list does. -/
structure MarksAll (ws : List Int) (marks marks' : List Bool) (fresh : List Int) : Prop where
  length : marks'.length = marks.length
  marked : ∀ v, Marked marks' v ↔ Marked marks v ∨ v ∈ ws
  listed : ∀ v ∈ fresh, v ∈ ws
  added : ∀ v ∈ ws, ¬ Marked marks v → v ∈ fresh
  count : marks'.count false + fresh.length = marks.count false

theorem markAll_spec (ws : List Int) (marks : List Bool) (range : ∀ w ∈ ws, InRange marks.length w) :
    ∃ marks' fresh, markAll ws marks = .ok (marks', fresh) ∧ MarksAll ws marks marks' fresh := by
  induction ws generalizing marks with
  | nil =>
    exact ⟨marks, [], rfl, rfl, by simp, by simp, by simp, by simp⟩
  | cons w ws ih =>
    rw [forall_mem_cons] at range
    obtain ⟨here, others⟩ := range
    have inside : w.toNat < marks.length := by
      have := here.2
      have := here.1
      omega
    rw [markAll, position?_of_inRange here]
    cases old : marks[w.toNat] with
    | true =>
      obtain ⟨marks', fresh, result, spec⟩ := ih marks others
      have before : Marked marks w := ⟨here.1, by simp [inside, old]⟩
      refine ⟨marks', fresh, by simp [inside, old, result], spec.length, fun v => ?_, fun v mem =>
        mem_cons_of_mem _ (spec.listed v mem), fun v mem unmarked => ?_, spec.count⟩
      · rw [spec.marked, mem_cons]
        constructor
        · tauto
        · rintro (marked | rfl | mem)
          · exact .inl marked
          · exact .inl before
          · exact .inr mem
      · rcases mem_cons.mp mem with rfl | mem
        · exact absurd before unmarked
        · exact spec.added v mem unmarked
    | false =>
      have sized : (marks.set w.toNat true).length = marks.length := length_set
      obtain ⟨marks', fresh, result, spec⟩ := ih (marks.set w.toNat true) (by rwa [sized])
      have counted : (marks.set w.toNat true).count false + 1 = marks.count false := by
        have positive : 0 < marks.count false := count_pos_iff.mpr (old ▸ getElem_mem inside)
        rw [count_set inside, old]
        simp
        omega
      refine ⟨marks', w :: fresh, by simp [inside, old, result, bind, Except.bind, pure, Except.pure],
        spec.length.trans sized, fun v => ?_, fun v mem => ?_, fun v mem unmarked => ?_, ?_⟩
      · rw [spec.marked, marked_set here, mem_cons]
        tauto
      · rcases mem_cons.mp mem with rfl | mem
        · exact mem_cons_self
        · exact mem_cons_of_mem _ (spec.listed v mem)
      · by_cases same : v = w
        · rw [same]
          exact mem_cons_self
        · refine mem_cons_of_mem _ (spec.added v ?_ ?_)
          · exact (mem_cons.mp mem).resolve_left same
          · rw [marked_set here]
            tauto
      · have rest := spec.count
        rw [length_cons]
        omega

theorem markStarts_spec (starts : List Int) (marks : List Bool) (range : ∀ v ∈ starts, InRange marks.length v) :
    ∃ marks', markStarts starts marks = .ok marks' ∧ marks'.length = marks.length ∧
      ∀ v, Marked marks' v ↔ Marked marks v ∨ v ∈ starts := by
  induction starts generalizing marks with
  | nil => exact ⟨marks, rfl, rfl, by simp⟩
  | cons w ws ih =>
    rw [forall_mem_cons] at range
    obtain ⟨here, others⟩ := range
    have sized : (marks.set w.toNat true).length = marks.length := length_set
    obtain ⟨marks', result, length, marked⟩ := ih (marks.set w.toNat true) (by rwa [sized])
    refine ⟨marks', ?_, length.trans sized, fun v => ?_⟩
    · rw [markStarts, foldlM_cons, position?_of_inRange here]
      exact result
    · rw [marked, marked_set here, mem_cons]
      tauto

/-! ## Spreading -/

/-- The nodes in the queue are marked, and the successors of all other marked nodes are marked. -/
structure Pending (g : Graph) (queue : List Int) (marks : List Bool) : Prop where
  queued : ∀ v ∈ queue, Marked marks v
  settled : ∀ v, Marked marks v → v ∉ queue → ∀ w, g.Edge v w → Marked marks w

theorem Pending.step {v : Int} {queue : List Int} {marks marks' : List Bool} {fresh : List Int}
    (pending : g.Pending (v :: queue) marks) (spec : MarksAll (g.successors v) marks marks' fresh) :
    g.Pending (queue ++ fresh) marks' where
  queued := by
    intro w mem
    rw [spec.marked]
    rcases mem_append.mp mem with old | new
    · exact .inl (pending.queued w (mem_cons_of_mem _ old))
    · exact .inr (spec.listed w new)
  settled := by
    intro w marked outside u edge
    rw [mem_append, not_or] at outside
    rw [spec.marked]
    by_cases same : w = v
    · exact .inr (same ▸ edge)
    · have before : Marked marks w := by
        rcases (spec.marked w).mp marked with old | new
        · exact old
        · by_contra unmarked
          exact outside.2 (spec.added w new unmarked)
      exact .inl (pending.settled w before (by simp [same, outside.1]) u edge)

theorem spread_spec {n : ℕ} (range : ∀ v w, g.Edge v w → InRange n w) (fuel : ℕ) (queue : List Int)
    (marks : List Bool) (length : marks.length = n) (pending : g.Pending queue marks)
    (enough : queue.length + marks.count false < fuel) :
    ∃ marks', g.spread fuel queue marks = .ok marks' ∧ marks'.length = n ∧
      ∀ v, Marked marks' v ↔ ∃ u, Marked marks u ∧ g.Reaches u v := by
  induction fuel generalizing queue marks with
  | zero => omega
  | succ fuel ih =>
    cases queue with
    | nil =>
      refine ⟨marks, rfl, length, fun v => ⟨fun marked => ⟨v, marked, .refl⟩, ?_⟩⟩
      rintro ⟨u, marked, path⟩
      induction path with
      | refl => exact marked
      | tail _ edge before => exact pending.settled _ before not_mem_nil _ edge
    | cons v queue =>
      obtain ⟨marks₁, fresh, result, spec⟩ := markAll_spec (g.successors v) marks
        (fun w edge => length.symm ▸ range v w edge)
      have shorter : (queue ++ fresh).length + marks₁.count false < fuel := by
        have counted := spec.count
        simp only [length_append, length_cons] at enough ⊢
        omega
      obtain ⟨marks', spread, sized, marked⟩ :=
        ih (queue ++ fresh) marks₁ (spec.length.trans length) (pending.step spec) shorter
      refine ⟨marks', ?_, sized, fun x => ?_⟩
      · rw [Graph.spread, result]
        exact spread
      · rw [marked]
        constructor
        · rintro ⟨u, inside, path⟩
          rcases (spec.marked u).mp inside with old | edge
          · exact ⟨u, old, path⟩
          · exact ⟨v, pending.queued v mem_cons_self, .head edge path⟩
        · rintro ⟨u, inside, path⟩
          exact ⟨u, (spec.marked u).mpr (.inl inside), path⟩

theorem accessible_spec {starts : List Int} (range : ∀ v w, g.Edge v w → InRange g.length w)
    (inside : ∀ v ∈ starts, InRange g.length v) :
    ∃ marks, g.accessible starts = .ok marks ∧ marks.length = g.length ∧
      ∀ v, Marked marks v ↔ ∃ u ∈ starts, g.Reaches u v := by
  have blank : (List.replicate g.length false).length = g.length := length_replicate
  obtain ⟨marks, started, length, marked⟩ := markStarts_spec starts (List.replicate g.length false) (by rwa [blank])
  have onlyStarts (v : Int) : Marked marks v ↔ v ∈ starts := by
    rw [marked, or_iff_right]
    rintro ⟨_, impossible⟩
    simp [List.getElem?_replicate] at impossible
  have pending : g.Pending starts marks := by
    refine ⟨fun v mem => (onlyStarts v).mpr mem, fun v here outside => ?_⟩
    exact absurd ((onlyStarts v).mp here) outside
  have few : marks.count false ≤ g.length := (count_le_length).trans (by rw [length, blank])
  obtain ⟨marks', spread, sized, reached⟩ := spread_spec range (starts.length + g.length + 1) starts marks
    (length.trans blank) pending (by omega)
  refine ⟨marks', ?_, sized, fun v => ?_⟩
  · rw [accessible, started]
    exact spread
  · rw [reached]
    simp only [onlyStarts]

end Supermartingale.Graph
