import Supermartingale.Proofs.Automaton.Components
import Supermartingale.Proofs.Automaton.Rerouting

/-!
# What the status of a state means

A state is rejecting if no state with a signature can be reached from it. A path between live states never leaves
them, so the graph without rejecting states has the same paths between them. A live state is accepting if its
component in this graph is closed and meets all acceptance sets.
-/

namespace Supermartingale.State

open List Supermartingale.Graph

variable {states : List State} {rejecting sets accepting : List Int} {v w : Int} {s : State}

/-- A state with a signature can be reached. -/
def Live (states : List State) (v : Int) : Prop := ∃ s ∈ states, s.signature ≠ [] ∧ (graph states []).Reaches v s.id

/-- A way back leads from every live state that can be reached. -/
def Returns (states : List State) (v : Int) : Prop :=
  ∀ w, (graph states []).Reaches v w → Live states w → (graph states []).Reaches w v

/-- The states on cycles through a state meet all acceptance sets. -/
def Covers (states : List State) (sets : List Int) (v : Int) : Prop :=
  ∀ k ∈ sets, ∃ s ∈ states, (graph states []).Connected v s.id ∧ k ∈ s.signature

def CoversAt (states : List State) (sets : List Int) (v : Int) : Prop :=
  ∀ k ∈ sets, ∃ w, (graph states []).Connected v w ∧ ∃ s, at? states w = .ok s ∧ k ∈ s.signature

theorem Numbered.coversAt_iff (numbered : Numbered states) (inside : Graph.InRange states.length v) :
    CoversAt states sets v ↔ Covers states sets v := by
  refine forall₂_congr fun k _ => ?_
  constructor
  · rintro ⟨w, connected, s, position, met⟩
    have range := numbered.listed.reaches_inRange connected.1 inside
    obtain ⟨s', mem, rfl⟩ := numbered.listed.inRange_iff.mp range
    cases (numbered.at?_id mem).symm.trans position
    exact ⟨s, mem, connected, met⟩
  · rintro ⟨s, mem, connected, met⟩
    exact ⟨s.id, connected, s, numbered.at?_id mem, met⟩

theorem Live.of_reaches (live : Live states w) (path : (graph states []).Reaches v w) : Live states v := by
  obtain ⟨s, mem, nonempty, rest⟩ := live
  exact ⟨s, mem, nonempty, path.trans rest⟩

theorem Live.of_signature (mem : s ∈ states) (nonempty : s.signature ≠ []) : Live states s.id :=
  ⟨s, mem, nonempty, .refl⟩

/-! ## Rejecting states -/

theorem falsePositions_eq (marks : List Bool) :
    falsePositions marks =
      ((List.range marks.length).map Int.ofNat).filter fun v => marks[v.toNat]? == some false := by
  have indexed : marks.mapIdx (fun i b => (Int.ofNat i, b)) =
      (List.range marks.length).map fun i => (Int.ofNat i, marks[i]?.getD true) := by
    refine ext_getElem (by simp) fun i bound _ => ?_
    rw [length_mapIdx] at bound
    simp [bound]
  rw [falsePositions, indexed, filterMap_map, filter_map, ← filterMap_eq_map,
    ← filterMap_eq_filter, filterMap_filterMap]
  refine filterMap_congr fun i mem => ?_
  have bound := mem_range.mp mem
  cases value : marks[i] with
  | true => simp [bound, value, Option.guard]
  | false => simp [bound, value, Option.guard]

theorem mem_falsePositions {marks : List Bool} :
    v ∈ falsePositions marks ↔ Graph.InRange marks.length v ∧ ¬ Graph.Marked marks v := by
  rw [falsePositions_eq, mem_filter, mem_map]
  constructor
  · rintro ⟨⟨i, mem, rfl⟩, unmarked⟩
    have bound := mem_range.mp mem
    refine ⟨⟨by simp, by simpa using bound⟩, fun marked => ?_⟩
    rw [marked.2] at unmarked
    simp at unmarked
  · rintro ⟨⟨nonneg, bound⟩, unmarked⟩
    have inside : v.toNat < marks.length := by omega
    refine ⟨⟨v.toNat, mem_range.mpr inside, by simp [nonneg]⟩, ?_⟩
    cases value : marks[v.toNat] with
    | true => exact absurd ⟨nonneg, by simp [inside, value]⟩ unmarked
    | false => simp [inside, value]

theorem Listed.rejectingStates_spec (listed : Listed states)
    (statuses : ∀ s ∈ states, s.status = .ofSignature s.signature) :
    ∃ rejecting, rejectingStates states = .ok rejecting ∧
      rejecting = ((List.range states.length).map Int.ofNat).filter rejecting.contains ∧
      ∀ v, v ∈ rejecting ↔ Graph.InRange states.length v ∧ ¬ Live states v := by
  obtain ⟨g, turned, length, edges⟩ := listed.reverseGraph_spec
  have accepting (v : Int) :
      v ∈ (states.filter isAccepting).map (·.id) ↔ ∃ s ∈ states, s.signature ≠ [] ∧ s.id = v := by
    simp only [mem_map, mem_filter, and_assoc]
    refine exists_congr fun s => and_congr_right fun mem => and_congr_left fun _ => ?_
    cases empty : s.signature with
    | nil | cons => simp [isAccepting, statuses s mem, empty, Status.ofSignature]
  have range (v w : Int) (edge : g.Edge v w) : Graph.InRange g.length w := by
    rw [length]
    exact (listed.step_inRange ((edges v w).mp edge)).1
  have inside : ∀ v ∈ (states.filter isAccepting).map (·.id), Graph.InRange g.length v := by
    intro v mem
    obtain ⟨s, known, _, rfl⟩ := (accepting v).mp mem
    exact length ▸ listed.inRange known
  -- a path in the graph turned around is a path turned around
  have turnedPath (v w : Int) : g.Reaches v w ↔ (graph states []).Reaches w v := by
    have swapped : g.Edge = Function.swap (graph states []).Edge := by
      funext x y
      exact propext ((edges x y).trans listed.edge_iff.symm)
    rw [Graph.Reaches, swapped, Relation.reflTransGen_swap]
  obtain ⟨marks, found, sized, marked⟩ := accessible_spec range inside
  have reached (v : Int) : Graph.Marked marks v ↔ Live states v := by
    simp only [marked, accepting, turnedPath, Live]
    constructor
    · rintro ⟨_, ⟨s, mem, nonempty, rfl⟩, path⟩
      exact ⟨s, mem, nonempty, path⟩
    · rintro ⟨s, mem, nonempty, path⟩
      exact ⟨s.id, ⟨s, mem, nonempty, rfl⟩, path⟩
  have members (v : Int) : v ∈ falsePositions marks ↔
      Graph.InRange states.length v ∧ ¬ Live states v := by
    rw [mem_falsePositions, reached, sized, length]
  refine ⟨falsePositions marks, ?_, ?_, members⟩
  · exact bind_eq_ok.mpr ⟨g, turned, bind_eq_ok.mpr ⟨marks, found, rfl⟩⟩
  · rw [← length, ← sized]
    conv_lhs => rw [falsePositions_eq]
    refine filter_congr fun v position => ?_
    rw [Bool.eq_iff_iff, contains_iff_mem, falsePositions_eq, mem_filter]
    exact ⟨fun unmarked => ⟨position, unmarked⟩, fun mem => mem.2⟩

theorem exists_at?_of_inRange (inside : Graph.InRange states.length v) :
    ∃ s, at? states v = .ok s ∧ states[v.toNat]? = some s := by
  have bound : v.toNat < states.length := by
    obtain ⟨nonneg, below⟩ := inside
    omega
  exact ⟨states[v.toNat], by simp [at?, position?_of_inRange inside, bound], List.getElem?_eq_getElem bound⟩

theorem signatures_spec {ids : List Int} (inside : ∀ v ∈ ids, Graph.InRange states.length v) :
    ∃ met, signatures states ids = .ok met ∧
      ∀ k, k ∈ met ↔ ∃ v ∈ ids, ∃ s, at? states v = .ok s ∧ k ∈ s.signature := by
  obtain ⟨members, all⟩ := exists_mapM_eq_ok fun v mem => (exists_at?_of_inRange (inside v mem)).imp fun _ => And.left
  refine ⟨_, bind_eq_ok.mpr ⟨members, all, rfl⟩, fun k => ?_⟩
  rw [mem_flatMap]
  constructor
  · rintro ⟨s, mem, met⟩
    obtain ⟨v, listed, position⟩ := exists_of_mem_mapM all mem
    exact ⟨v, listed, s, position, met⟩
  · rintro ⟨v, listed, s, position, met⟩
    obtain ⟨s', mem, position'⟩ := exists_mem_of_mapM all listed
    cases position.symm.trans position'
    exact ⟨s, mem, met⟩

/-! ## Paths between live states -/

section

variable (rejects : ∀ v, v ∈ rejecting ↔ Graph.InRange states.length v ∧ ¬ Live states v)

include rejects

theorem live_iff (inside : Graph.InRange states.length v) : Live states v ↔ v ∉ rejecting := by
  rw [rejects]
  tauto

variable (listed : Listed states)

include listed

/-- Without rejecting states, a live state reaches the live states that it reaches anyway. -/
theorem reaches_live_iff (live : Live states v) :
    (graph states rejecting).Reaches v w ↔ (graph states []).Reaches v w ∧ Live states w := by
  constructor
  · intro path
    induction path with
    | refl => exact ⟨.refl, live⟩
    | tail _ edge ih =>
      obtain ⟨step, _, kept⟩ := (edge_graph_iff listed.nodup).mp edge
      have inside := (listed.step_inRange step).2
      exact ⟨ih.1.tail (listed.edge_iff.mpr step), (live_iff rejects inside).mpr kept⟩
  · rintro ⟨path, goal⟩
    clear live
    induction path using Relation.ReflTransGen.head_induction_on with
    | refl => exact .refl
    | @head x y edge rest ih =>
      have step := listed.edge_iff.mp edge
      obtain ⟨source, target⟩ := listed.step_inRange step
      have after : Live states y := goal.of_reaches rest
      have before : Live states x := after.of_reaches (.single edge)
      refine .head ((edge_graph_iff listed.nodup).mpr ⟨step, ?_, ?_⟩) ih
      · exact (live_iff rejects source).mp before
      · exact (live_iff rejects target).mp after

theorem mem_keys_iff : v ∈ (graph states rejecting).map (·.1) ↔ Graph.InRange states.length v ∧ Live states v := by
  rw [graph_eq listed.nodup, map_map, mem_map]
  constructor
  · rintro ⟨s, kept, rfl⟩
    obtain ⟨mem, free⟩ := mem_filter.mp kept
    have inside := listed.inRange mem
    exact ⟨inside, (live_iff rejects inside).mpr (by simpa using free)⟩
  · rintro ⟨inside, live⟩
    obtain ⟨s, mem, rfl⟩ := listed.inRange_iff.mp inside
    have free := (live_iff rejects inside).mp live
    exact ⟨s, mem_filter.mpr ⟨mem, by simpa using free⟩, rfl⟩

theorem live_of_mem_component {c : List Int} (component : c ∈ (graph states rejecting).components)
    (inside : v ∈ c) : Graph.InRange states.length v ∧ Live states v := by
  obtain ⟨u, key, path⟩ := exists_reaches component inside
  obtain ⟨range, live⟩ := (mem_keys_iff rejects listed).mp key
  obtain ⟨path', live'⟩ := (reaches_live_iff rejects listed live).mp path
  exact ⟨listed.reaches_inRange path' range, live'⟩

theorem connected_live_iff (live : Live states v) :
    (graph states rejecting).Connected v w ↔ (graph states []).Connected v w := by
  constructor
  · rintro ⟨there, back⟩
    obtain ⟨path, live'⟩ := (reaches_live_iff rejects listed live).mp there
    exact ⟨path, ((reaches_live_iff rejects listed live').mp back).1⟩
  · rintro ⟨there, back⟩
    have live' : Live states w := live.of_reaches back
    exact ⟨(reaches_live_iff rejects listed live).mpr ⟨there, live'⟩,
      (reaches_live_iff rejects listed live').mpr ⟨back, live⟩⟩

/-- The component of a live state is closed if a way back leads from everything that is live. -/
theorem isClosed_component_iff {c : List Int} (component : c ∈ (graph states rejecting).components)
    (inside : v ∈ c) : (graph states rejecting).isClosed c ↔ Returns states v := by
  have live := (live_of_mem_component rejects listed component inside).2
  rw [isClosed_iff]
  constructor
  · intro closed w path goal
    have stays : w ∈ c := by
      have kept := (reaches_live_iff rejects listed live).mpr ⟨path, goal⟩
      clear path goal
      induction kept with
      | refl => exact inside
      | tail _ edge ih => exact closed _ ih _ edge
    have connected := (mem_component_iff component inside).mp stays
    exact ((connected_live_iff rejects listed live).mp connected).2
  · intro returns x mem y edge
    have connected := (mem_component_iff component inside).mp mem
    have there := connected.1.tail edge
    obtain ⟨path, goal⟩ := (reaches_live_iff rejects listed live).mp there
    have back := (reaches_live_iff rejects listed goal).mpr ⟨returns y path goal, live⟩
    exact (mem_component_iff component inside).mpr ⟨there, back⟩

theorem covers_component_iff {c met : List Int} (component : c ∈ (graph states rejecting).components)
    (inside : v ∈ c) (union : ∀ k, k ∈ met ↔ ∃ w ∈ c, ∃ s, at? states w = .ok s ∧ k ∈ s.signature) :
    sets.all met.contains ↔ CoversAt states sets v := by
  have live := (live_of_mem_component rejects listed component inside).2
  simp only [all_eq_true, contains_iff_mem, union, CoversAt,
    mem_component_iff component inside, connected_live_iff rejects listed live]

theorem acceptingComponents_spec (sets : List Int) :
    ∃ components, acceptingComponents states sets rejecting = .ok components ∧
      ∀ v, Graph.InRange states.length v →
        (v ∈ components.flatten ↔ Live states v ∧ Returns states v ∧ CoversAt states sets v) := by
  have unions : ∀ c ∈ (graph states rejecting).components, ∃ met, signatures states c = .ok met ∧
      ∀ k, k ∈ met ↔ ∃ w ∈ c, ∃ s, at? states w = .ok s ∧ k ∈ s.signature := fun c component =>
    signatures_spec fun v inside => (live_of_mem_component rejects listed component inside).1
  choose! met found union using unions
  have chosen : acceptingComponents states sets rejecting = .ok
      (((graph states rejecting).components.filter (graph states rejecting).isClosed).filterMap
        fun c => if sets.all (met c).contains then some c else none) := by
    refine filterMapM_of_ok fun c mem => ?_
    exact bind_eq_ok.mpr ⟨met c, found c (mem_of_mem_filter mem), rfl⟩
  refine ⟨_, chosen, fun v range => ?_⟩
  simp only [mem_flatten, mem_filterMap, mem_filter]
  constructor
  · rintro ⟨_, ⟨c, ⟨component, closed⟩, emitted⟩, inside⟩
    split at emitted
    · rename_i all
      cases emitted
      exact ⟨(live_of_mem_component rejects listed component inside).2,
        (isClosed_component_iff rejects listed component inside).mp closed,
        (covers_component_iff rejects listed component inside (union _ component)).mp all⟩
    · cases emitted
  · rintro ⟨live, returns, covers⟩
    obtain ⟨c, component, inside⟩ := exists_component ((mem_keys_iff rejects listed).mpr ⟨range, live⟩) .refl
    have closed := (isClosed_component_iff rejects listed component inside).mpr returns
    have all := (covers_component_iff rejects listed component inside (union c component)).mpr covers
    exact ⟨c, ⟨c, ⟨component, closed⟩, if_pos all⟩, inside⟩

end

/-! ## Normal form -/

def withStatus (status : Int → Status) (s : State) : State := { s with status := status s.id }

theorem graph_withStatus (status : Int → Status) (excluded : List Int) :
    graph (states.map (withStatus status)) excluded = graph states excluded := by
  unfold graph
  rw [filter_map, map_map]
  rfl

theorem live_withStatus (status : Int → Status) : Live (states.map (withStatus status)) v ↔ Live states v := by
  unfold Live
  rw [graph_withStatus]
  simp only [mem_map, exists_exists_and_eq_and]
  rfl

theorem returns_withStatus (status : Int → Status) :
    Returns (states.map (withStatus status)) v ↔ Returns states v := by
  simp only [Returns, graph_withStatus, live_withStatus]

theorem covers_withStatus (status : Int → Status) :
    Covers (states.map (withStatus status)) sets v ↔ Covers states sets v := by
  unfold Covers
  rw [graph_withStatus]
  simp only [mem_map, exists_exists_and_eq_and]
  rfl

theorem Numbered.mapIdx_status (numbered : Numbered states) (status : ℕ → Status) :
    states.mapIdx (fun i s => { s with status := status i }) =
      states.map (withStatus fun v => status v.toNat) := by
  refine ext_getElem (by simp) fun i bound _ => ?_
  rw [length_mapIdx] at bound
  simp [withStatus, numbered.id_getElem bound]

/-- What the status of a state says, given the rejecting states and the members of accepting components. -/
theorem classify_iff {i : ℕ} {live returning : Prop}
    (rejects : (i : Int) ∈ rejecting ↔ ¬ live) (accepts : (i : Int) ∈ accepting ↔ live ∧ returning) :
    (classify rejecting accepting i = .rejecting ↔ ¬ live) ∧
      (classify rejecting accepting i = .accepting ↔ live ∧ returning) ∧
      (classify rejecting accepting i = .nonAccepting ↔ live ∧ ¬ returning) := by
  unfold classify
  by_cases dead : (i : Int) ∈ rejecting
  · have := rejects.mp dead
    simp [dead, this]
  · have alive : live := not_not.mp fun no => dead (rejects.mpr no)
    by_cases accepted : (i : Int) ∈ accepting
    · have := accepts.mp accepted
      simp [dead, accepted, this]
    · have : ¬ returning := fun yes => accepted (accepts.mpr ⟨alive, yes⟩)
      simp [dead, accepted, alive, this]

theorem isRejecting_classify (nonneg : 0 ≤ s.id) :
    (withStatus (fun v => classify rejecting accepting v.toNat) s).isRejecting =
      rejecting.contains s.id := by
  simp only [isRejecting, withStatus, classify, Int.toNat_of_nonneg nonneg]
  by_cases dead : s.id ∈ rejecting
  · simp [dead]
  · by_cases accepted : s.id ∈ accepting
    · simp [dead, accepted]
    · simp [dead, accepted]

theorem Numbered.rejecting_eq (numbered : Numbered states)
    (sorted : rejecting = (states.map (·.id)).filter rejecting.contains) :
    rejecting = ((states.map (withStatus fun v => classify rejecting accepting v.toNat)).filter
      isRejecting).map (·.id) := by
  have same : ∀ s ∈ states,
      (isRejecting ∘ withStatus fun v => classify rejecting accepting v.toNat) s = (rejecting.contains ∘ (·.id)) s :=
    fun s mem => isRejecting_classify (numbered.inRange mem).1
  rw [filter_map, map_map, filter_congr same]
  conv_lhs => rw [sorted, filter_map]
  rfl

theorem statuses_toStateAcceptance (statuses : ∀ s ∈ states, s.status = .ofSignature s.signature) :
    ∀ s ∈ toStateAcceptance states, s.status = .ofSignature s.signature := by
  obtain ⟨old, fresh, result, splits⟩ := exists_splits states
  rw [result]
  intro s mem
  rcases mem_append.mp mem with before | after
  · obtain ⟨s₀, inside, reroutes⟩ := exists_of_mem_right splits.rerouted before
    rw [reroutes.same]
    exact statuses s₀ inside
  · obtain ⟨_, _, leads⟩ := splits.back s after
    exact leads.status

/-- What the normal form consists of when states may stand anywhere: the state at a position has the status
of the position. -/
theorem Listed.normalise_spec (listed : Listed (toStateAcceptance states))
    (statuses : ∀ s ∈ toStateAcceptance states, s.status = .ofSignature s.signature) (sets : List Int) :
    ∃ rejecting accepting, normalise states sets = .ok ((toStateAcceptance states).mapIdx
        (fun i s => { s with status := classify rejecting accepting i }), rejecting) ∧
      rejecting = ((List.range (toStateAcceptance states).length).map Int.ofNat).filter
        rejecting.contains ∧
      ∀ v, Graph.InRange (toStateAcceptance states).length v →
        (v ∈ rejecting ↔ ¬ Live (toStateAcceptance states) v) ∧
        (v ∈ accepting ↔ Live (toStateAcceptance states) v ∧ Returns (toStateAcceptance states) v ∧
          CoversAt (toStateAcceptance states) sets v) := by
  obtain ⟨rejecting, dead, sorted, rejects⟩ := listed.rejectingStates_spec statuses
  obtain ⟨components, closed, accepts⟩ := acceptingComponents_spec rejects listed sets
  refine ⟨rejecting, components.flatten, ?_, sorted, fun v inside => ⟨?_, accepts v inside⟩⟩
  · exact bind_eq_ok.mpr ⟨rejecting, dead, bind_eq_ok.mpr ⟨components, closed, rfl⟩⟩
  · rw [rejects]
    tauto

theorem normalise_spec (numbered : Numbered states)
    (statuses : ∀ s ∈ states, s.status = .ofSignature s.signature) (sets : List Int) :
    ∃ rejecting accepting, normalise states sets = .ok ((toStateAcceptance states).map
        (withStatus fun v => classify rejecting accepting v.toNat), rejecting) ∧
      rejecting = ((toStateAcceptance states).map (·.id)).filter rejecting.contains ∧
      ∀ v, Graph.InRange (toStateAcceptance states).length v →
        (v ∈ rejecting ↔ ¬ Live (toStateAcceptance states) v) ∧
        (v ∈ accepting ↔ Live (toStateAcceptance states) v ∧ Returns (toStateAcceptance states) v ∧
          Covers (toStateAcceptance states) sets v) := by
  have numbered' := numbered.toStateAcceptance
  obtain ⟨rejecting, accepting, result, sorted, spec⟩ :=
    numbered'.listed.normalise_spec (statuses_toStateAcceptance statuses) sets
  refine ⟨rejecting, accepting, ?_, ?_, fun v inside => ?_⟩
  · rw [result, numbered'.mapIdx_status]
  · rw [numbered'.ids]
    exact sorted
  · rw [← numbered'.coversAt_iff inside]
    exact spec v inside

/-- Normalising leads transitions with signatures through fresh states and gives every state the status
that its paths call for; the rejecting states are listed in order. -/
theorem normalise_classifies (numbered : Numbered states)
    (statuses : ∀ s ∈ states, s.status = .ofSignature s.signature) (sets : List Int) :
    ∃ q rejecting, normalise states sets = .ok (q, rejecting) ∧
      (∃ status, q = (toStateAcceptance states).map (withStatus status)) ∧
      (∀ s ∈ q, (s.status = .rejecting ↔ ¬ Live q s.id) ∧
        (s.status = .accepting ↔ Live q s.id ∧ Returns q s.id ∧ Covers q sets s.id) ∧
        (s.status = .nonAccepting ↔ Live q s.id ∧ ¬ (Returns q s.id ∧ Covers q sets s.id))) ∧
      rejecting = (q.filter isRejecting).map (·.id) := by
  obtain ⟨rejecting, accepting, result, sorted, spec⟩ := normalise_spec numbered statuses sets
  have numbered' := numbered.toStateAcceptance
  refine ⟨_, rejecting, result, ⟨_, rfl⟩, fun s member => ?_, ?_⟩
  · obtain ⟨s₀, inside, rfl⟩ := mem_map.mp member
    have range := numbered'.inRange inside
    have position : ((s₀.id.toNat : ℕ) : Int) = s₀.id := Int.toNat_of_nonneg range.1
    simp only [live_withStatus, returns_withStatus, covers_withStatus]
    refine classify_iff ?_ ?_
    · rw [position]
      exact (spec s₀.id range).1
    · rw [position]
      exact (spec s₀.id range).2
  · exact numbered'.rejecting_eq sorted

/-- A state from where one can go to a loop with a signature or to a loop without. -/
def fork : List State :=
  [.make 0 [] [.make 1 [] "0", .make 2 [] "!0"] none none, .make 1 [] [.make 1 [0] "1"] none none,
    .make 2 [] [.make 2 [] ""] none none]

theorem fork_classifies : Numbered fork ∧ (∀ s ∈ fork, s.status = .ofSignature s.signature) ∧
    ∃ q rejecting, normalise fork [0] = .ok (q, rejecting) ∧
      (∃ status, q = (toStateAcceptance fork).map (withStatus status)) ∧
      (∀ s ∈ q, (s.status = .rejecting ↔ ¬ Live q s.id) ∧
        (s.status = .accepting ↔ Live q s.id ∧ Returns q s.id ∧ Covers q [0] s.id) ∧
        (s.status = .nonAccepting ↔ Live q s.id ∧ ¬ (Returns q s.id ∧ Covers q [0] s.id))) ∧
      rejecting = (q.filter isRejecting).map (·.id) := by
  have numbered : Numbered fork := by decide +kernel
  have statuses : ∀ s ∈ fork, s.status = .ofSignature s.signature := by decide +kernel
  exact ⟨numbered, statuses, normalise_classifies numbered statuses [0]⟩

end Supermartingale.State
