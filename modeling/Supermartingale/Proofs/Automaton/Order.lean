import Supermartingale.Proofs.Automaton.Acceptance

/-!
# The order of the states

Edges belong to the numbers of states, whereas states are looked up by position. So the rejecting states do not depend
on the order in which states are listed, but a state gets the status of the state whose number is its position.
-/

namespace Supermartingale.State

open List

variable {xs ys : List State} {sets : List Int} {v w : Int}

/-- Looking a number up gives the state of this number. -/
def FoundByNumber (states : List State) : Prop :=
  ∀ v, Graph.InRange states.length v → ∃ s, at? states v = .ok s ∧ s.id = v

/-- States of the same number have the same status. -/
def SameStatuses (p q : List State) : Prop := ∀ s ∈ p, ∀ s' ∈ q, s.id = s'.id → s.status = s'.status

/-- The state at a position has the status of the number of the position, with signatures looked up by
position, too. -/
def StatusByPosition (states : List State) (sets : List Int) (q : List State) : Prop :=
  ∀ v s, Graph.InRange q.length v → at? q v = .ok s →
    (s.status = .rejecting ↔ ¬ Live states v) ∧
    (s.status = .accepting ↔ Live states v ∧ Returns states v ∧ CoversAt states sets v) ∧
    (s.status = .nonAccepting ↔ Live states v ∧ ¬ (Returns states v ∧ CoversAt states sets v))

/-! ## Permutations -/

theorem Listed.perm (listed : Listed xs) (same : xs.Perm ys) : Listed ys where
  ids := by
    rw [← same.length_eq]
    exact (same.symm.map _).trans listed.ids
  destinations := by
    intro s mem
    rw [← same.length_eq]
    exact listed.destinations s (same.mem_iff.mpr mem)

theorem step_perm (same : xs.Perm ys) : Step xs v w ↔ Step ys v w := by
  simp only [Step, same.mem_iff]

theorem Listed.reaches_perm (listed : Listed xs) (same : xs.Perm ys) :
    (graph xs []).Reaches v w ↔ (graph ys []).Reaches v w := by
  have edges : (graph xs []).Edge = (graph ys []).Edge := by
    funext x y
    exact propext (by rw [listed.edge_iff, (listed.perm same).edge_iff, step_perm same])
  rw [Graph.Reaches, edges]

theorem Listed.live_perm (listed : Listed xs) (same : xs.Perm ys) : Live xs v ↔ Live ys v := by
  simp only [Live, same.mem_iff, listed.reaches_perm same]

/-- There is one order in which every state stands at the position that is its number. -/
theorem Numbered.eq_of_perm (first : Numbered xs) (second : Numbered ys) (same : xs.Perm ys) : xs = ys := by
  refine ext_getElem same.length_eq fun i left right => ?_
  refine first.eq_of_id (getElem_mem left) (same.mem_iff.mpr (getElem_mem right)) ?_
  rw [first.id_getElem left, second.id_getElem right]

/-! ## Normal forms of states in any order -/

theorem at?_mapIdx (f : ℕ → State → State) (inside : Graph.InRange xs.length v) :
    ∃ s, at? xs v = .ok s ∧ at? (xs.mapIdx f) v = .ok (f v.toNat s) := by
  obtain ⟨s, position, found⟩ := exists_at?_of_inRange inside
  exact ⟨s, position, by simp [at?, Graph.position?_of_inRange inside, found]⟩

theorem foundByNumber_iff (destinations : ∀ s ∈ xs, ∀ t ∈ s.transitions,
    Graph.InRange xs.length t.destination) : FoundByNumber xs ↔ Numbered xs := by
  constructor
  · intro found
    refine ⟨ext_getElem (by simp) fun i left right => ?_, destinations⟩
    rw [length_map] at left
    have inside : Graph.InRange xs.length i := ⟨by omega, by omega⟩
    obtain ⟨s, position, id⟩ := found i inside
    simp only [at?, Graph.position?_of_inRange inside, Option.bind_some, Int.toNat_natCast,
      List.getElem?_eq_getElem left] at position
    cases position
    simpa using id
  · intro numbered v inside
    obtain ⟨s, mem, rfl⟩ := numbered.listed.inRange_iff.mp inside
    exact ⟨s, numbered.at?_id mem, rfl⟩

theorem Listed.normalise_silent_spec (listed : Listed xs) (statuses : ∀ s ∈ xs, s.status = .ofSignature s.signature)
    (silent : ∀ s ∈ xs, ∀ t ∈ s.transitions, t.signature = []) (sets : List Int) :
    ∃ p rejecting, normalise xs sets = .ok (p, rejecting) ∧
      rejecting = ((List.range xs.length).map Int.ofNat).filter rejecting.contains ∧
      (∀ v, Graph.InRange xs.length v → (v ∈ rejecting ↔ ¬ Live xs v)) ∧
      StatusByPosition xs sets p ∧ (FoundByNumber p ↔ Numbered xs) ∧
      (Numbered xs → Numbered p) := by
  have kept := toStateAcceptance_of_silent silent
  have spec := Listed.normalise_spec (kept.symm ▸ listed) (kept.symm ▸ statuses) sets
  rw [kept] at spec
  obtain ⟨rejecting, accepting, result, sorted, rejects⟩ := spec
  set p := xs.mapIdx fun i s => { s with status := classify rejecting accepting i } with made
  have length : p.length = xs.length := by simp [made]
  have ids : p.map (·.id) = xs.map (·.id) := by
    refine ext_getElem (by simp [made]) fun i _ _ => ?_
    simp [made]
  have destinations : ∀ s ∈ p, ∀ t ∈ s.transitions, Graph.InRange p.length t.destination := by
    intro s mem t transition
    obtain ⟨i, bound, rfl⟩ := mem_mapIdx.mp mem
    rw [length]
    exact listed.destinations _ (getElem_mem bound) t transition
  have numbered_iff : Numbered p ↔ Numbered xs :=
    ⟨fun h => ⟨by rw [← ids, h.ids, length], listed.destinations⟩, fun h => ⟨by rw [ids, h.ids, length], destinations⟩⟩
  refine ⟨p, rejecting, result, sorted, fun v inside => (rejects v inside).1, ?_, ?_, numbered_iff.mpr⟩
  · intro v s inside position
    rw [length] at inside
    obtain ⟨s', _, position'⟩ := at?_mapIdx (fun i s => { s with status := classify rejecting accepting i })
      inside
    cases position.symm.trans position'
    have nonneg : ((v.toNat : ℕ) : Int) = v := Int.toNat_of_nonneg inside.1
    refine classify_iff ?_ ?_
    · rw [nonneg]
      exact (rejects v inside).1
    · rw [nonneg]
      exact (rejects v inside).2
  · rw [foundByNumber_iff destinations, numbered_iff]

/-- Two orders of the same states give the same rejecting states. Statuses go by position, and all states
are found by their numbers, with the same statuses, only if both orders are that of the numbers. -/
theorem normalise_order_iff (listed : Listed xs) (statuses : ∀ s ∈ xs, s.status = .ofSignature s.signature)
    (silent : ∀ s ∈ xs, ∀ t ∈ s.transitions, t.signature = []) (same : xs.Perm ys) (sets : List Int) :
    ∃ p q rejecting, normalise xs sets = .ok (p, rejecting) ∧ normalise ys sets = .ok (q, rejecting) ∧
      (∀ v, Graph.InRange xs.length v → (v ∈ rejecting ↔ ¬ Live xs v)) ∧
      StatusByPosition xs sets p ∧ StatusByPosition ys sets q ∧
      (SameStatuses p q ∧ FoundByNumber p ∧ FoundByNumber q ↔ Numbered xs ∧ Numbered ys) := by
  have listed' := listed.perm same
  obtain ⟨p, rejecting, left, sorted, rejects, positions, found, kept⟩ :=
    listed.normalise_silent_spec statuses silent sets
  obtain ⟨q, rejecting', right, sorted', rejects', positions', found', _⟩ :=
    listed'.normalise_silent_spec (fun s member => statuses s (same.mem_iff.mpr member))
      (fun s member => silent s (same.mem_iff.mpr member)) sets
  -- both lists of rejecting states are filtered from the same range by the same condition
  have equal : rejecting' = rejecting := by
    rw [sorted, sorted', same.length_eq]
    refine filter_congr fun v member => ?_
    obtain ⟨i, position, rfl⟩ := mem_map.mp member
    have inside : Graph.InRange ys.length (Int.ofNat i) := ⟨by simp, by simpa using position⟩
    rw [Bool.eq_iff_iff, contains_iff_mem, contains_iff_mem, rejects' _ inside,
      rejects _ (same.length_eq ▸ inside), listed.live_perm same]
  rw [equal] at right
  refine ⟨p, q, rejecting, left, right, rejects, positions, positions', ?_⟩
  rw [found, found']
  refine ⟨fun h => h.2, fun numbered => ⟨?_, numbered⟩⟩
  -- in the order of numbers there is only one list, and its states are known by their numbers
  cases numbered.1.eq_of_perm numbered.2 same
  cases left.symm.trans right
  intro s member s' member' id
  rw [(kept numbered.1).eq_of_id member member' id]

/-- A loop with a signature and one without, in the order of their numbers. -/
def loops : List State := [.make 0 [] [.make 0 [] ""] none none, .make 1 [0] [.make 1 [] ""] none none]

theorem loops_order_iff : Listed loops ∧ (∀ s ∈ loops, s.status = .ofSignature s.signature) ∧
    (∀ s ∈ loops, ∀ t ∈ s.transitions, t.signature = []) ∧ loops.Perm loops.reverse ∧
    ∃ p q rejecting, normalise loops [0] = .ok (p, rejecting) ∧
      normalise loops.reverse [0] = .ok (q, rejecting) ∧
      (∀ v, Graph.InRange loops.length v → (v ∈ rejecting ↔ ¬ Live loops v)) ∧
      StatusByPosition loops [0] p ∧ StatusByPosition loops.reverse [0] q ∧
      (SameStatuses p q ∧ FoundByNumber p ∧ FoundByNumber q ↔ Numbered loops ∧ Numbered loops.reverse) := by
  have listed : Listed loops := by decide +kernel
  have statuses : ∀ s ∈ loops, s.status = .ofSignature s.signature := by decide +kernel
  have silent : ∀ s ∈ loops, ∀ t ∈ s.transitions, t.signature = [] := by decide +kernel
  have same : loops.Perm loops.reverse := (reverse_perm loops).symm
  exact ⟨listed, statuses, silent, same, normalise_order_iff listed statuses silent same [0]⟩

def overview (states : List State) (sets : List Int) : Option (List (Int × Status) × List Int) :=
  (normalise states sets).toOption.map fun (q, rejecting) => (q.map fun s => (s.id, s.status), rejecting)

theorem exists_of_overview {states : List State} {rows : List (Int × Status)} {rejecting : List Int}
    (computed : overview states sets = some (rows, rejecting)) :
    ∃ q, normalise states sets = .ok (q, rejecting) ∧ q.map (fun s => (s.id, s.status)) = rows := by
  unfold overview at computed
  cases result : normalise states sets with
  | error e => simp [result, Except.toOption] at computed
  | ok normal =>
    simp only [result, Except.toOption, Option.map_some, Option.some.injEq, Prod.mk.injEq] at computed
    exact ⟨normal.1, by rw [← computed.2], computed.1⟩

/-- Turned around, the loop with a signature is taken for rejecting, and each state is found under the
number of the other. -/
theorem not_sameStatuses_reverse : Listed loops ∧ (∀ s ∈ loops, s.status = .ofSignature s.signature) ∧
    (∀ s ∈ loops, ∀ t ∈ s.transitions, t.signature = []) ∧ loops.Perm loops.reverse ∧
    ∃ p q, normalise loops [0] = .ok (p, [0]) ∧ normalise loops.reverse [0] = .ok (q, [0]) ∧
      ¬ SameStatuses p q ∧ ¬ FoundByNumber q := by
  refine ⟨by decide +kernel, by decide +kernel, by decide +kernel, (reverse_perm loops).symm, ?_⟩
  have inOrder : overview loops [0] = some ([(0, .rejecting), (1, .accepting)], [0]) := by decide +kernel
  have turned : overview loops.reverse [0] = some ([(1, .rejecting), (0, .nonAccepting)], [0]) := by
    decide +kernel
  obtain ⟨p, left, before⟩ := exists_of_overview inOrder
  obtain ⟨q, right, after⟩ := exists_of_overview turned
  match p, q, before, after with
  | [p₀, p₁], [q₀, q₁], before, after =>
    simp only [map_cons, map_nil, List.cons.injEq, Prod.mk.injEq, and_true] at before after
    refine ⟨_, _, left, right, fun same => ?_, fun found => ?_⟩
    · have status := same p₁ (by simp) q₀ (by simp) (before.2.1.trans after.1.1.symm)
      rw [before.2.2, after.1.2] at status
      cases status
    · obtain ⟨s, position, id⟩ := found 0 ⟨le_rfl, by simp⟩
      cases position
      rw [after.1.1] at id
      cases id

end Supermartingale.State
