import Supermartingale.Proofs.Automaton.Acceptance

/-!
# Rejecting states and the automaton as it was given

Rejecting states are looked for after transitions with signatures have been led through fresh states, where paths are
lost. They do not matter here: up to the first transition with a signature a path is kept, and the fresh state of that
transition has a signature.
-/

namespace Supermartingale.State

variable {states old fresh : List State} {v w : Int}

/-- A signature can be met: that of a state which can be reached, or that of one of its transitions. -/
def Hopeful (states : List State) (v : Int) : Prop :=
  ∃ s ∈ states, (graph states []).Reaches v s.id ∧ (s.signature ≠ [] ∨ ∃ t ∈ s.transitions, t.signature ≠ [])

theorem Splits.exists_signed (splits : Splits states old fresh) (numbered : Numbered states) {f : State}
    (mem : f ∈ fresh) (step : Step (old ++ fresh) v f.id) :
    ∃ s ∈ states, s.id = v ∧ ∃ t ∈ s.transitions, t.signature ≠ [] := by
  obtain ⟨s', inside, rfl, t', transition, leads⟩ := step
  have beyond := (splits.bound_fresh mem).1
  rcases splits.transition_cases inside transition with ⟨s, listed, number, t, source, redirects⟩ | ⟨-, s, listed, rfl⟩
  · cases redirects with
    | silent empty =>
      have range := (numbered.destinations s listed t' source).2
      omega
    | detour nonempty _ _ _ => exact ⟨s, listed, number.symm, t, source, nonempty⟩
  · -- fresh states lead to old ones
    have range := (numbered.inRange listed).2
    simp only [Transition.make] at leads
    omega

theorem Numbered.live_of_signed (numbered : Numbered states) {s : State} (mem : s ∈ states)
    {t : Transition} (transition : t ∈ s.transitions) (nonempty : t.signature ≠ []) :
    Live (State.toStateAcceptance states) s.id := by
  obtain ⟨old, fresh, result, splits⟩ := exists_splits states
  have numbered' : Numbered (old ++ fresh) := result ▸ numbered.toStateAcceptance
  obtain ⟨s', inside, reroutes⟩ := exists_of_mem_left splits.rerouted mem
  obtain ⟨t', forward, redirects⟩ := exists_of_mem_left reroutes.transitions transition
  rw [result]
  cases redirects with
  | silent empty => exact absurd empty nonempty
  | @detour _ f listed signature _ =>
    have step : Step (old ++ fresh) s.id f.id := ⟨s', List.mem_append_left _ inside, reroutes.id_eq, _, forward, rfl⟩
    have live : Live (old ++ fresh) f.id := .of_signature (List.mem_append_right _ listed) (signature ▸ nonempty)
    exact live.of_reaches (.single (numbered'.edge_iff.mpr step))

theorem Numbered.live_of_hopeful (numbered : Numbered states) (hopeful : Hopeful states v) :
    Live (State.toStateAcceptance states) v := by
  obtain ⟨old, fresh, result, splits⟩ := exists_splits states
  have numbered' := numbered.toStateAcceptance
  obtain ⟨s, mem, path, signed⟩ := hopeful
  -- from the end of the path to its start: a silent step is kept, any other one makes its source live
  induction path using Relation.ReflTransGen.head_induction_on with
  | refl =>
    rcases signed with nonempty | ⟨t, transition, nonempty⟩
    · obtain ⟨s', inside, reroutes⟩ := exists_of_mem_left splits.rerouted mem
      rw [result, ← reroutes.id_eq]
      exact .of_signature (List.mem_append_left _ inside) (reroutes.signature_eq ▸ nonempty)
    · exact numbered.live_of_signed mem transition nonempty
  | head edge _ ih =>
    obtain ⟨source, listed, rfl, t, transition, leads⟩ := numbered.edge_iff.mp edge
    by_cases empty : t.signature = []
    · have step : Step (states.map State.silent) source.id _ :=
        step_silent_iff.mpr ⟨source, listed, rfl, t, transition, empty, leads⟩
      have kept : Step (State.toStateAcceptance states) source.id _ := result ▸ splits.step_of_silent step
      exact ih.of_reaches (.single (numbered'.edge_iff.mpr kept))
    · exact numbered.live_of_signed listed transition empty

theorem Numbered.hopeful_of_live (numbered : Numbered states) (inside : Graph.InRange states.length v)
    (live : Live (State.toStateAcceptance states) v) : Hopeful states v := by
  obtain ⟨old, fresh, result, splits⟩ := exists_splits states
  have numbered' := numbered.toStateAcceptance
  -- a path between old states after rerouting is one of the given automaton
  have given {u : Int} (range : Graph.InRange states.length u)
      (path : (graph (State.toStateAcceptance states) []).Reaches v u) : (graph states []).Reaches v u :=
    numbered.reaches_of_silent ((numbered.reaches_toStateAcceptance_iff inside range).mp path)
  obtain ⟨s', mem, nonempty, path⟩ := live
  rw [result] at mem
  rcases List.mem_append.mp mem with before | after
  · obtain ⟨s, listed, reroutes⟩ := exists_of_mem_right splits.rerouted before
    rw [reroutes.id_eq] at path
    exact ⟨s, listed, given (numbered.inRange listed) path, .inl (reroutes.signature_eq ▸ nonempty)⟩
  · have beyond := (splits.bound_fresh after).1
    -- the last step on the way to a fresh state is that of a transition with a signature
    cases path with
    | refl =>
      have := inside.2
      omega
    | tail path edge =>
      have step := numbered'.edge_iff.mp edge
      rw [result] at step
      obtain ⟨s, listed, rfl, signed⟩ := splits.exists_signed numbered after step
      exact ⟨s, listed, given (numbered.inRange listed) path, .inr signed⟩

/-- The rejecting states are the given states from which no signature can be met; no fresh state is
rejecting. -/
theorem normalise_rejects_hopeless (numbered : Numbered states)
    (statuses : ∀ s ∈ states, s.status = .ofSignature s.signature) (sets : List Int) :
    ∃ q rejecting, normalise states sets = .ok (q, rejecting) ∧
      (∀ s ∈ states, s.id ∈ rejecting ↔ ¬ Hopeful states s.id) ∧
      ∀ s ∈ q, (states.length : Int) ≤ s.id → s.id ∉ rejecting ∧ s.isRejecting = false := by
  obtain ⟨rejecting, accepting, result, sorted, spec⟩ := normalise_spec numbered statuses sets
  have numbered' := numbered.toStateAcceptance
  obtain ⟨old, fresh, split, splits⟩ := exists_splits states
  refine ⟨_, rejecting, result, fun s member => ?_, fun s member beyond => ?_⟩
  · have inside := numbered.inRange member
    have range : Graph.InRange (State.toStateAcceptance states).length s.id := by
      have := inside.2
      rw [split, List.length_append, splits.length_old]
      exact ⟨inside.1, by omega⟩
    rw [(spec s.id range).1]
    exact not_congr ⟨numbered.hopeful_of_live inside, numbered.live_of_hopeful⟩
  · obtain ⟨s₀, listed, rfl⟩ := List.mem_map.mp member
    have range := numbered'.inRange listed
    have alive : s₀.id ∉ rejecting := by
      intro dead
      -- a state beyond the given ones is fresh and has a signature
      rw [split] at listed
      rcases List.mem_append.mp listed with before | after
      · obtain ⟨s, known, reroutes⟩ := exists_of_mem_right splits.rerouted before
        have bound := (numbered.inRange known).2
        have same := reroutes.id_eq
        simp only [withStatus] at beyond
        omega
      · obtain ⟨_, _, leads⟩ := splits.back s₀ after
        refine (spec s₀.id range).1.mp dead ?_
        rw [split]
        exact .of_signature listed leads.signature
    refine ⟨alive, ?_⟩
    rw [isRejecting_classify range.1]
    simpa using alive

/-- A way over a transition with a signature to a loop without one, and another such loop aside. -/
def bridge : List State :=
  [.make 0 [] [.make 1 [0] "0", .make 2 [] "!0"] none none, .make 1 [] [.make 1 [] ""] none none,
    .make 2 [] [.make 2 [] ""] none none]

theorem bridge_rejects_hopeless : Numbered bridge ∧ (∀ s ∈ bridge, s.status = .ofSignature s.signature) ∧
    ∃ q rejecting, normalise bridge [0] = .ok (q, rejecting) ∧
      (∀ s ∈ bridge, s.id ∈ rejecting ↔ ¬ Hopeful bridge s.id) ∧
      ∀ s ∈ q, (bridge.length : Int) ≤ s.id → s.id ∉ rejecting ∧ s.isRejecting = false := by
  have numbered : Numbered bridge := by decide +kernel
  have statuses : ∀ s ∈ bridge, s.status = .ofSignature s.signature := by decide +kernel
  exact ⟨numbered, statuses, normalise_rejects_hopeless numbered statuses [0]⟩

end Supermartingale.State
