import Supermartingale.Proofs.Automaton.Numbered
import Supermartingale.Proofs.Except

/-!
# Transitions led through fresh states

A transition with a signature is led to a fresh state that carries the signature, and the step back leads to the
source of the transition. So what can be reached from an old state are the old states that transitions without a
signature lead to.
-/

namespace Supermartingale.State

open List

variable {states fresh more : List State} {v w : Int} {s s' : State}

/-! ## What rerouting makes -/

/-- A fresh state leads back to a state, and to no other. -/
structure LeadsBack (f : State) (id : Int) : Prop where
  signature : f.signature ≠ []
  transitions : f.transitions = [Transition.make id [] ""]
  status : f.status = .ofSignature f.signature

/-- A transition of a state stays as it is, or it leads to a fresh state from where a step leads back. -/
inductive Redirects (id : Int) (fresh : List State) (t : Transition) : Transition → Prop where
  | silent (empty : t.signature = []) : Redirects id fresh t t
  | detour (nonempty : t.signature ≠ []) {f : State} (mem : f ∈ fresh)
      (signature : f.signature = t.signature) (back : LeadsBack f id) :
      Redirects id fresh t (Transition.make f.id [] t.label)

theorem Redirects.mono {id : Int} {t t' : Transition}
    (redirects : Redirects id fresh t t') (subset : fresh ⊆ more) : Redirects id more t t' := by
  cases redirects with
  | silent empty => exact .silent empty
  | detour nonempty mem signature back => exact .detour nonempty (subset mem) signature back

/-- A state keeps everything but its transitions, which are redirected. -/
structure Reroutes (fresh : List State) (s s' : State) : Prop where
  same : s' = { s with transitions := s'.transitions }
  transitions : Forall₂ (Redirects s.id fresh) s.transitions s'.transitions

theorem Reroutes.mono (reroutes : Reroutes fresh s s') (subset : fresh ⊆ more) : Reroutes more s s' :=
  ⟨reroutes.same, reroutes.transitions.imp fun _ _ redirects => redirects.mono subset⟩

theorem Reroutes.id_eq {fresh : List State} (reroutes : Reroutes fresh s s') : s'.id = s.id := by
  rw [reroutes.same]

theorem Reroutes.signature_eq {fresh : List State} (reroutes : Reroutes fresh s s') :
    s'.signature = s.signature := by
  rw [reroutes.same]

/-- The fresh state with a number, through which a transition of a state is led. -/
def detour (number : ℕ) (signature : List Int) (source : Int) : State :=
  .make number signature [.make source [] ""] (some "") (some "")

section

variable {id : Int} {next : ℕ} {t : Transition} {ts : List Transition}

theorem reroute_cons_silent (silent : t.signature = []) :
    reroute id next (t :: ts) = (t :: (reroute id next ts).1, (reroute id next ts).2) := by
  simp [reroute, silent]

theorem reroute_cons_signed (signed : t.signature ≠ []) :
    reroute id next (t :: ts) = (Transition.make next [] t.label :: (reroute id (next + 1) ts).1,
      detour next t.signature id :: (reroute id (next + 1) ts).2) := by
  simp [reroute, signed, detour]

theorem reroute_of_silent (silent : ∀ t ∈ ts, t.signature = []) : reroute id next ts = (ts, []) := by
  induction ts with
  | nil => rfl
  | cons t ts ih =>
    rw [forall_mem_cons] at silent
    rw [reroute_cons_silent silent.1, ih silent.2]

end

theorem rerouteAll_of_silent (next : ℕ) (silent : ∀ s ∈ states, ∀ t ∈ s.transitions, t.signature = []) :
    rerouteAll next states = (states, []) := by
  induction states generalizing next with
  | nil => rfl
  | cons s ss ih =>
    rw [forall_mem_cons] at silent
    simp [rerouteAll, reroute_of_silent silent.1, ih _ silent.2]

theorem toStateAcceptance_of_silent (silent : ∀ s ∈ states, ∀ t ∈ s.transitions, t.signature = []) :
    toStateAcceptance states = states := by
  rw [toStateAcceptance, rerouteAll_of_silent _ silent]
  exact append_nil states

theorem reroute_spec (id : Int) (next : ℕ) (ts : List Transition) :
    Forall₂ (Redirects id (reroute id next ts).2) ts (reroute id next ts).1 ∧
      (∀ f ∈ (reroute id next ts).2, LeadsBack f id) ∧
      (reroute id next ts).2.map (·.id) =
        (List.range' next (reroute id next ts).2.length).map Int.ofNat := by
  induction ts generalizing next with
  | nil => exact ⟨.nil, by simp [reroute], rfl⟩
  | cons t ts ih =>
    by_cases empty : t.signature = []
    · obtain ⟨redirected, back, ids⟩ := ih next
      rw [reroute_cons_silent empty]
      exact ⟨.cons (.silent empty) redirected, back, ids⟩
    · obtain ⟨redirected, back, ids⟩ := ih (next + 1)
      have leads : LeadsBack (detour next t.signature id) id := ⟨empty, rfl, rfl⟩
      rw [reroute_cons_signed empty]
      refine ⟨.cons (.detour empty mem_cons_self rfl leads) ?_, ?_, ?_⟩
      · exact redirected.imp fun _ _ redirects => redirects.mono (subset_cons_self _ _)
      · exact forall_mem_cons.mpr ⟨leads, back⟩
      · rw [map_cons, ids, length_cons, List.range'_succ, map_cons]
        rfl

theorem rerouteAll_spec (next : ℕ) (ss : List State) :
    Forall₂ (Reroutes (rerouteAll next ss).2) ss (rerouteAll next ss).1 ∧
      (∀ f ∈ (rerouteAll next ss).2, ∃ s ∈ ss, LeadsBack f s.id) ∧
      (rerouteAll next ss).2.map (·.id) =
        (List.range' next (rerouteAll next ss).2.length).map Int.ofNat := by
  induction ss generalizing next with
  | nil => exact ⟨.nil, by simp [rerouteAll], rfl⟩
  | cons s ss ih =>
    obtain ⟨redirected, back, ids⟩ := reroute_spec s.id next s.transitions
    obtain ⟨rerouted, others, further⟩ := ih (next + (reroute s.id next s.transitions).2.length)
    rw [rerouteAll]
    refine ⟨.cons ⟨rfl, ?_⟩ ?_, ?_, ?_⟩
    · exact redirected.imp fun _ _ redirects => redirects.mono (subset_append_left _ _)
    · exact rerouted.imp fun _ _ reroutes => reroutes.mono (subset_append_right _ _)
    · intro f mem
      rcases mem_append.mp mem with here | later
      · exact ⟨s, mem_cons_self, back f here⟩
      · obtain ⟨s', inside, leads⟩ := others f later
        exact ⟨s', mem_cons_of_mem _ inside, leads⟩
    · rw [map_append, ids, further, ← map_append, length_append, List.range'_append_1]

/-- The old states, with their transitions redirected, and the fresh ones. -/
structure Splits (states old fresh : List State) : Prop where
  rerouted : Forall₂ (Reroutes fresh) states old
  back : ∀ f ∈ fresh, ∃ s ∈ states, LeadsBack f s.id
  ids : fresh.map (·.id) = (List.range' states.length fresh.length).map Int.ofNat

theorem exists_splits (states : List State) :
    ∃ old fresh, toStateAcceptance states = old ++ fresh ∧ Splits states old fresh := by
  obtain ⟨rerouted, back, ids⟩ := rerouteAll_spec states.length states
  exact ⟨_, _, rfl, rerouted, back, ids⟩

namespace Splits

variable {old fresh : List State}

theorem length_old (splits : Splits states old fresh) : old.length = states.length := splits.rerouted.length_eq.symm

theorem map_id_old (splits : Splits states old fresh) : old.map (·.id) = states.map (·.id) := by
  have rerouted := splits.rerouted
  clear splits
  induction rerouted with
  | nil => rfl
  | cons first _ ih => rw [map_cons, map_cons, ih, first.same]

theorem bound_fresh (splits : Splits states old fresh) {f : State} (mem : f ∈ fresh) :
    (states.length : Int) ≤ f.id ∧ f.id < states.length + fresh.length := by
  have listed : f.id ∈ fresh.map (·.id) := mem_map_of_mem mem
  rw [splits.ids, mem_map] at listed
  obtain ⟨i, inside, same⟩ := listed
  rw [mem_range'_1] at inside
  rw [← same, Int.ofNat_eq_natCast]
  omega

/-- A transition of the result is a redirected one, or the step back from a fresh state. -/
theorem transition_cases (splits : Splits states old fresh) {t' : Transition} (mem : s' ∈ old ++ fresh)
    (transition : t' ∈ s'.transitions) :
    (∃ s ∈ states, s'.id = s.id ∧ ∃ t ∈ s.transitions, Redirects s.id fresh t t') ∨
      s' ∈ fresh ∧ ∃ s ∈ states, t' = Transition.make s.id [] "" := by
  rcases mem_append.mp mem with before | after
  · obtain ⟨s, inside, reroutes⟩ := exists_of_mem_right splits.rerouted before
    obtain ⟨t, source, redirects⟩ := exists_of_mem_right reroutes.transitions transition
    exact .inl ⟨s, inside, reroutes.id_eq, t, source, redirects⟩
  · obtain ⟨s, inside, leads⟩ := splits.back s' after
    rw [leads.transitions, mem_singleton] at transition
    exact .inr ⟨after, s, inside, transition⟩

end Splits

theorem Numbered.toStateAcceptance (numbered : Numbered states) : Numbered (toStateAcceptance states) := by
  obtain ⟨old, fresh, result, splits⟩ := exists_splits states
  rw [result]
  have length : (old ++ fresh).length = states.length + fresh.length := by
    rw [length_append, splits.length_old]
  refine ⟨?_, fun s mem t transition => ?_⟩
  · rw [map_append, splits.map_id_old, splits.ids, numbered.ids, ← map_append, length,
      range_eq_range', range_eq_range']
    congr 1
    simpa using List.range'_append_1 (s := 0) (m := states.length) (n := fresh.length)
  · rw [length]
    rcases splits.transition_cases mem transition with ⟨s₀, inside, -, t₀, from₀, redirects⟩ | ⟨-, s₀, inside, rfl⟩
    · cases redirects with
      | silent empty =>
        have range := numbered.destinations s₀ inside t from₀
        exact ⟨range.1, by have := range.2; omega⟩
      | detour nonempty mem signature back =>
        have bound := splits.bound_fresh mem
        exact ⟨by simp only [Transition.make]; omega, by simp only [Transition.make]; omega⟩
    · have range := numbered.inRange inside
      exact ⟨range.1, by have := range.2; simp only [Transition.make]; omega⟩

/-! ## Paths -/

/-- A state with those of its transitions that have no signature. -/
def silent (s : State) : State := { s with transitions := s.transitions.filter (·.signature.isEmpty) }

theorem Numbered.silent (numbered : Numbered states) : Numbered (states.map silent) where
  ids := by
    rw [map_map, length_map]
    exact numbered.ids
  destinations := by
    intro s mem t transition
    obtain ⟨s₀, inside, rfl⟩ := mem_map.mp mem
    rw [length_map]
    exact numbered.destinations s₀ inside t (mem_of_mem_filter transition)

theorem step_silent_iff : Step (states.map silent) v w ↔
      ∃ s ∈ states, s.id = v ∧ ∃ t ∈ s.transitions, t.signature = [] ∧ t.destination = w := by
  constructor
  · rintro ⟨s, mem, same, t, transition, leads⟩
    obtain ⟨s₀, inside, rfl⟩ := mem_map.mp mem
    obtain ⟨listed, empty⟩ := mem_filter.mp transition
    exact ⟨s₀, inside, same, t, listed, by simpa using empty, leads⟩
  · rintro ⟨s, inside, same, t, listed, empty, leads⟩
    refine ⟨s.silent, mem_map_of_mem inside, same, t, ?_, leads⟩
    exact mem_filter.mpr ⟨listed, by simp [empty]⟩

section

variable {old fresh : List State}

/-- From an old state, silent transitions lead to old states and all others to fresh states that
lead back. -/
theorem Splits.step_old (splits : Splits states old fresh)
    (inside : Graph.InRange states.length v) (step : Step (old ++ fresh) v w) :
    Step (states.map State.silent) v w ∨ ∃ f ∈ fresh, f.id = w ∧ LeadsBack f v := by
  obtain ⟨s', mem, same, t', transition, leads⟩ := step
  rcases splits.transition_cases mem transition with ⟨s, listed, number, t, from_, redirects⟩ | ⟨after, -⟩
  · have source : s.id = v := number.symm.trans same
    cases redirects with
    | silent empty => exact .inl (step_silent_iff.mpr ⟨s, listed, source, t', from_, empty, leads⟩)
    | detour nonempty fresh signature back => exact .inr ⟨_, fresh, leads, source ▸ back⟩
  · have bound := (splits.bound_fresh after).1
    have := inside.2
    omega

theorem step_fresh (numbered : Numbered (old ++ fresh)) {f : State} {u : Int} (mem : f ∈ fresh)
    (back : LeadsBack f u) (step : Step (old ++ fresh) f.id w) : w = u := by
  obtain ⟨s, inside, same, t, transition, leads⟩ := step
  have equal := numbered.eq_of_id inside (mem_append_right _ mem) same
  rw [equal, back.transitions, mem_singleton] at transition
  rw [← leads, transition]
  rfl

theorem Splits.step_of_silent (splits : Splits states old fresh)
    (step : Step (states.map State.silent) v w) : Step (old ++ fresh) v w := by
  obtain ⟨s, inside, rfl, t, transition, empty, leads⟩ := step_silent_iff.mp step
  obtain ⟨s', mem, reroutes⟩ := exists_of_mem_left splits.rerouted inside
  obtain ⟨t', transition', redirects⟩ := exists_of_mem_left reroutes.transitions transition
  refine ⟨s', mem_append_left _ mem, by rw [reroutes.same], t', transition', ?_⟩
  cases redirects with
  | silent _ => exact leads
  | detour nonempty _ _ _ => exact absurd empty nonempty

end

/-- After rerouting, an old state reaches the old states that silent transitions lead to. -/
theorem Numbered.reaches_toStateAcceptance_iff (numbered : Numbered states)
    (start : Graph.InRange states.length v) (goal : Graph.InRange states.length w) :
    (graph (State.toStateAcceptance states) []).Reaches v w ↔
      (graph (states.map State.silent) []).Reaches v w := by
  obtain ⟨old, fresh, result, splits⟩ := exists_splits states
  have numbered' : Numbered (old ++ fresh) := result ▸ numbered.toStateAcceptance
  rw [result]
  constructor
  · intro path
    -- on the way, a fresh state stands for the state that it leads back to
    have followed : ∃ u, (graph (states.map State.silent) []).Reaches v u ∧
        (Graph.InRange states.length w ∧ u = w ∨ ∃ f ∈ fresh, f.id = w ∧ LeadsBack f u) ∧
        Graph.InRange states.length u := by
      clear goal
      induction path with
      | refl => exact ⟨v, .refl, .inl ⟨start, rfl⟩, start⟩
      | tail _ edge ih =>
        obtain ⟨u, before, stand, inside⟩ := ih
        have step := numbered'.edge_iff.mp edge
        rcases stand with ⟨_, equal⟩ | ⟨f, mem, rfl, back⟩
        · subst equal
          rcases splits.step_old inside step with silent | detour
          · have range := (numbered.silent.step_inRange silent).2
            rw [length_map] at range
            exact ⟨_, before.tail (numbered.silent.edge_iff.mpr silent), .inl ⟨range, rfl⟩, range⟩
          · exact ⟨_, before, .inr detour, inside⟩
        · cases step_fresh numbered' mem back step
          exact ⟨_, before, .inl ⟨inside, rfl⟩, inside⟩
    obtain ⟨u, before, ⟨_, rfl⟩ | ⟨f, mem, rfl, _⟩, _⟩ := followed
    · exact before
    · have bound := (splits.bound_fresh mem).1
      have := goal.2
      omega
  · refine Relation.ReflTransGen.mono (fun x y edge => ?_) v w
    exact numbered'.edge_iff.mpr (splits.step_of_silent (numbered.silent.edge_iff.mp edge))

theorem Numbered.reaches_of_silent (numbered : Numbered states)
    (path : (graph (states.map State.silent) []).Reaches v w) : (graph states []).Reaches v w := by
  refine Relation.ReflTransGen.mono (fun x y edge => ?_) v w path
  obtain ⟨s, inside, same, t, transition, _, leads⟩ := step_silent_iff.mp (numbered.silent.edge_iff.mp edge)
  exact numbered.edge_iff.mpr ⟨s, inside, same, t, transition, leads⟩

/-! ## Detours -/

/-- A transition of a state has become a step under its label to a fresh state with its signature, from
where an unconditional step leads to its destination. -/
def Detours (states : List State) (s : State) (t : Transition) : Prop :=
  ∃ s' ∈ toStateAcceptance states, s'.id = s.id ∧ ∃ f ∈ toStateAcceptance states,
    (states.length : Int) ≤ f.id ∧ f.signature = t.signature ∧
      Transition.make f.id [] t.label ∈ s'.transitions ∧
      ∃ back ∈ f.transitions, back.isEpsilon ∧ back.destination = t.destination

/-- A transition with a signature becomes a detour to its destination only if it is a loop. -/
theorem Numbered.detours_iff (numbered : Numbered states) {s : State} (mem : s ∈ states)
    {t : Transition} (transition : t ∈ s.transitions) (nonempty : t.signature ≠ []) :
    Detours states s t ↔ t.destination = s.id := by
  obtain ⟨old, fresh, result, splits⟩ := exists_splits states
  have numbered' : Numbered (old ++ fresh) := result ▸ numbered.toStateAcceptance
  rw [Detours, result]
  constructor
  · rintro ⟨s', inside, source, f, listed, isFresh, _, forward, back, from_, _, leads⟩
    have step : Step (old ++ fresh) s.id f.id := ⟨s', inside, source, _, forward, rfl⟩
    rcases splits.step_old (numbered.inRange mem) step with silent | detour
    · have range := (numbered.silent.step_inRange silent).2
      rw [length_map] at range
      have := range.2
      omega
    · obtain ⟨f', mem', same, leadsBack⟩ := detour
      have equal := numbered'.eq_of_id (mem_append_right _ mem') listed same
      rw [← leads]
      exact step_fresh numbered' mem' leadsBack
        ⟨f, listed, same.symm, back, from_, rfl⟩
  · intro loop
    obtain ⟨s', inside, reroutes⟩ := exists_of_mem_left splits.rerouted mem
    obtain ⟨t', forward, redirects⟩ := exists_of_mem_left reroutes.transitions transition
    cases redirects with
    | silent empty => exact absurd empty nonempty
    | @detour _ f listed signature back =>
      refine ⟨s', mem_append_left _ inside, by rw [reroutes.same], f,
        mem_append_right _ listed, (splits.bound_fresh listed).1, signature, forward, ?_⟩
      refine ⟨Transition.make s.id [] "", by simp [back.transitions],
        by simp [Transition.isEpsilon, Transition.make], loop.symm⟩

/-- Rerouting keeps the paths between old states exactly if silent transitions lead to the destination
of every transition with a signature; and it turns each of these transitions into a detour to its
destination exactly if all of them are loops. -/
theorem toStateAcceptance_keeps_paths_iff (numbered : Numbered states) :
    ((∀ v w, Graph.InRange states.length v → Graph.InRange states.length w →
        ((graph (toStateAcceptance states) []).Reaches v w ↔ (graph states []).Reaches v w)) ↔
      ∀ s ∈ states, ∀ t ∈ s.transitions, t.signature ≠ [] → (graph (states.map silent) []).Reaches s.id t.destination) ∧
    (((∀ v w, Graph.InRange states.length v → Graph.InRange states.length w →
        ((graph (toStateAcceptance states) []).Reaches v w ↔ (graph states []).Reaches v w)) ∧
        ∀ s ∈ states, ∀ t ∈ s.transitions, t.signature ≠ [] → Detours states s t) ↔
      ∀ s ∈ states, ∀ t ∈ s.transitions, t.signature ≠ [] → t.destination = s.id) := by
  have paths : (∀ v w, Graph.InRange states.length v → Graph.InRange states.length w →
        ((graph (toStateAcceptance states) []).Reaches v w ↔ (graph states []).Reaches v w)) ↔
      ∀ s ∈ states, ∀ t ∈ s.transitions, t.signature ≠ [] →
        (graph (states.map silent) []).Reaches s.id t.destination := by
    constructor
    · intro kept s member t transition _
      have goal := numbered.destinations s member t transition
      rw [← numbered.reaches_toStateAcceptance_iff (numbered.inRange member) goal,
        kept _ _ (numbered.inRange member) goal]
      exact .single (numbered.edge_iff.mpr ⟨s, member, rfl, t, transition, rfl⟩)
    · intro silently v w start goal
      rw [numbered.reaches_toStateAcceptance_iff start goal]
      refine ⟨numbered.reaches_of_silent, fun path => ?_⟩
      clear goal
      induction path with
      | refl => exact .refl
      | tail _ edge ih =>
        obtain ⟨s, member, rfl, t, transition, rfl⟩ := numbered.edge_iff.mp edge
        by_cases empty : t.signature = []
        · refine ih.tail (numbered.silent.edge_iff.mpr (step_silent_iff.mpr ?_))
          exact ⟨s, member, rfl, t, transition, empty, rfl⟩
        · exact ih.trans (silently s member t transition empty)
  refine ⟨paths, ?_⟩
  rw [paths]
  constructor
  · rintro ⟨_, detours⟩ s member t transition nonempty
    exact (numbered.detours_iff member transition nonempty).mp (detours s member t transition nonempty)
  · intro loops
    refine ⟨fun s member t transition nonempty => ?_, fun s member t transition nonempty => ?_⟩
    · rw [loops s member t transition nonempty]
    · exact (numbered.detours_iff member transition nonempty).mpr (loops s member t transition nonempty)

/-- A loop with a signature at a state from where a silent transition leads on and another one back. -/
def patrol : List State :=
  [.make 0 [] [.make 0 [0] "0", .make 1 [] "!0"] none none, .make 1 [] [.make 0 [] ""] none none]

theorem patrol_keeps_paths :
    Numbered patrol ∧ (∀ v w, Graph.InRange patrol.length v → Graph.InRange patrol.length w →
        ((graph (toStateAcceptance patrol) []).Reaches v w ↔ (graph patrol []).Reaches v w)) ∧
      ∀ s ∈ patrol, ∀ t ∈ s.transitions, t.signature ≠ [] → Detours patrol s t := by
  have numbered : Numbered patrol := by decide +kernel
  exact ⟨numbered, (toStateAcceptance_keeps_paths_iff numbered).2.mpr (by decide +kernel)⟩

/-- The destination of a transition with a signature is lost when no silent transition leads there. -/
theorem not_reaches_crossing : let crossing : List State :=
      [.make 0 [] [.make 1 [0] "0"] none none, .make 1 [] [.make 1 [] ""] none none]
    Numbered crossing ∧ (graph crossing []).Reaches 0 1 ∧
      ¬ (graph (toStateAcceptance crossing) []).Reaches 0 1 := by
  intro crossing
  refine ⟨by decide +kernel, ?_, ?_⟩
  · rw [← Graph.mem_reachable]
    decide +kernel
  · rw [← Graph.mem_reachable]
    decide +kernel

end Supermartingale.State
