import Supermartingale.Proofs.Automaton.Rerouting

/-!
# The conversion to acceptance by states

Rerouting goes through the transitions in the order of the states and numbers the fresh states in the same order. No
transition has a signature afterwards, and a second conversion has nothing left to do.
-/

namespace Supermartingale

open List

/-- A transition as it is made: a label that is always true has been dropped. -/
def Transition.IsMade (t : Transition) : Prop := Transition.make t.destination t.signature t.label = t

theorem Transition.isMade_make (destination : Int) (signature : List Int) (label : String) :
    (Transition.make destination signature label).IsMade := by
  suffices Text.strip (if Text.strip label ∈ epsilonLabels then "" else label) ∈ epsilonLabels →
      Text.strip label ∉ epsilonLabels → label = "" by simpa [IsMade, make]
  intro dropped kept
  rw [if_neg kept] at dropped
  exact absurd dropped kept

namespace State

variable {states : List State} {ts : List Transition} {q : ℕ × ℕ} {id : Int}

/-! ## Positions -/

/-- The transition at a position: the number of a state and a number among its transitions. -/
def transitionAt (states : List State) (p : ℕ × ℕ) : Option Transition := states[p.1]?.bind (·.transitions[p.2]?)

def signedIn : List Transition → List ℕ
  | [] => []
  | t :: ts => if t.signature.isEmpty then (signedIn ts).map (· + 1) else 0 :: (signedIn ts).map (· + 1)

def signedAt : List State → List (ℕ × ℕ)
  | [] => []
  | s :: ss => (signedIn s.transitions).map (0, ·) ++ (signedAt ss).map fun p => (p.1 + 1, p.2)

theorem mem_signedIn {j : ℕ} {t : Transition} (found : ts[j]? = some t)
    (signed : t.signature ≠ []) : j ∈ signedIn ts := by
  induction ts generalizing j with
  | nil => simp at found
  | cons first ts ih =>
    rw [signedIn]
    cases j with
    | zero =>
      cases found
      simp [signed]
    | succ j =>
      have later := ih (j := j) (by simpa using found)
      split
      · exact mem_map_of_mem later
      · exact mem_cons_of_mem _ (mem_map_of_mem later)

theorem mem_signedAt {p : ℕ × ℕ} {t : Transition} (found : transitionAt states p = some t)
    (signed : t.signature ≠ []) : p ∈ signedAt states := by
  induction states generalizing p with
  | nil => simp [transitionAt] at found
  | cons s ss ih =>
    obtain ⟨i, j⟩ := p
    rw [signedAt, mem_append]
    cases i with
    | zero => exact .inl (mem_map_of_mem (mem_signedIn (by simpa [transitionAt] using found) signed))
    | succ i => exact .inr (mem_map_of_mem (ih (p := (i, j)) (by simpa [transitionAt] using found)))

/-! ## Where transitions are led -/

theorem reroute_signed (id : Int) (next : ℕ) (ts : List Transition) :
    (reroute id next ts).2.length = (signedIn ts).length ∧
      ∀ k j, (signedIn ts)[k]? = some j → ∃ t, ts[j]? = some t ∧ t.signature ≠ [] ∧
        (reroute id next ts).1[j]? = some (.make (next + k : ℕ) [] t.label) ∧
        (reroute id next ts).2[k]? = some (detour (next + k) t.signature id) := by
  induction ts generalizing next with
  | nil => simp [signedIn, reroute]
  | cons t ts ih =>
    by_cases silent : t.signature = []
    · obtain ⟨length, each⟩ := ih next
      rw [reroute_cons_silent silent]
      simp only [signedIn, silent, isEmpty_nil, if_true, length_map, length, true_and]
      intro k j found
      rw [List.getElem?_map, Option.map_eq_some_iff] at found
      obtain ⟨j, found, rfl⟩ := found
      exact each k j found
    · obtain ⟨length, each⟩ := ih (next + 1)
      rw [reroute_cons_signed silent, signedIn, if_neg (by simpa using silent)]
      refine ⟨by simp [length], fun k j found => ?_⟩
      cases k with
      | zero =>
        cases found
        exact ⟨t, rfl, silent, rfl, rfl⟩
      | succ k =>
        rw [List.getElem?_cons_succ, List.getElem?_map, Option.map_eq_some_iff] at found
        obtain ⟨j, found, rfl⟩ := found
        rw [show next + (k + 1) = next + 1 + k by omega]
        exact each k j found

theorem rerouteAll_signed (next : ℕ) (ss : List State) :
    (rerouteAll next ss).2.length = (signedAt ss).length ∧
      ∀ k p, (signedAt ss)[k]? = some p → ∃ source t, transitionAt ss p = some t ∧ t.signature ≠ [] ∧
        transitionAt (rerouteAll next ss).1 p = some (.make (next + k : ℕ) [] t.label) ∧
        (rerouteAll next ss).2[k]? = some (detour (next + k) t.signature source) := by
  induction ss generalizing next with
  | nil => simp [signedAt, rerouteAll]
  | cons s ss ih =>
    obtain ⟨here, first⟩ := reroute_signed s.id next s.transitions
    obtain ⟨there, others⟩ := ih (next + (reroute s.id next s.transitions).2.length)
    rw [rerouteAll, signedAt]
    refine ⟨by rw [length_append, there, here, length_append, length_map, length_map], ?_⟩
    intro k p found
    by_cases early : k < (signedIn s.transitions).length
    · rw [List.getElem?_append_left (by simpa using early), List.getElem?_map, Option.map_eq_some_iff] at found
      obtain ⟨j, found, rfl⟩ := found
      obtain ⟨t, known, signed, forward, fresh⟩ := first k j found
      refine ⟨s.id, t, known, signed, forward, ?_⟩
      rw [List.getElem?_append_left (here ▸ early)]
      exact fresh
    · rw [List.getElem?_append_right (by simpa using early), length_map, ← here, List.getElem?_map,
        Option.map_eq_some_iff] at found
      obtain ⟨p, found, rfl⟩ := found
      obtain ⟨source, t, known, signed, forward, fresh⟩ := others _ _ found
      have number : next + (reroute s.id next s.transitions).2.length +
          (k - (reroute s.id next s.transitions).2.length) = next + k := by omega
      rw [number] at forward fresh
      refine ⟨source, t, known, signed, forward, ?_⟩
      rw [List.getElem?_append_right (by omega)]
      exact fresh

variable {fresh : List State} {t t' : Transition}

theorem Redirects.eq_of_silent
    (redirects : Redirects id fresh t t') (silent : t.signature = []) : t' = t := by
  cases redirects with
  | silent _ => rfl
  | detour signed _ _ _ => exact absurd silent signed

theorem Redirects.signature_eq_nil (redirects : Redirects id fresh t t') : t'.signature = [] := by
  cases redirects with
  | silent empty => exact empty
  | detour _ _ _ _ => rfl

theorem Redirects.label_eq (redirects : Redirects id fresh t t') (made : t.IsMade) : t'.label = t.label := by
  cases redirects with
  | silent _ => rfl
  | detour _ _ _ _ => exact (congrArg Transition.label made :)

theorem Reroutes.labels_eq {s s' : State} (reroutes : Reroutes fresh s s')
    (made : ∀ t ∈ s.transitions, t.IsMade) : s'.transitions.map (·.label) = s.transitions.map (·.label) := by
  rw [← forall₂_eq_eq_eq, forall₂_map_left_iff, forall₂_map_right_iff]
  exact (forall₂_of_mem reroutes.transitions fun t mem _ redirects => redirects.label_eq (made t mem)).flip

/-! ## The converted list -/

/-- What the conversion makes of a list of states. -/
structure Converts (states result : List State) : Prop where
  numbered : Numbered result
  silent : ∀ s ∈ result, ∀ t ∈ s.transitions, t.signature = []
  length : result.length = states.length + (signedAt states).length
  old : ∀ (i : ℕ) (s : State), states[i]? = some s → ∃ ts : List Transition,
    result[i]? = some { s with transitions := ts } ∧ ts.map (·.label) = s.transitions.map (·.label) ∧
      ∀ (j : ℕ) (t : Transition), s.transitions[j]? = some t → t.signature = [] → ts[j]? = some t
  fresh : ∀ (k : ℕ) (p : ℕ × ℕ), (signedAt states)[k]? = some p →
    ∃ (t : Transition) (f : State) (back : Transition),
      transitionAt states p = some t ∧ t.signature ≠ [] ∧ result[states.length + k]? = some f ∧
      f.id = (states.length + k : ℕ) ∧ f.signature = t.signature ∧ f.transitions = [back] ∧ back.isEpsilon ∧
      ∀ q, (transitionAt result q).map (·.destination) = some ((states.length + k : ℕ) : Int) ↔ q = p

theorem Numbered.destination_lt (numbered : Numbered states) {t : Transition}
    (found : transitionAt states q = some t) : t.destination < states.length := by
  obtain ⟨s, state, transition⟩ := Option.bind_eq_some_iff.mp found
  exact (numbered.destinations s (mem_of_getElem? state) t (mem_of_getElem? transition)).2

theorem Splits.transitionAt_cases {old fresh : List State} (splits : Splits states old fresh)
    (numbered : Numbered states) {t' : Transition} (found : transitionAt (old ++ fresh) q = some t') :
    t'.destination < states.length ∨ q ∈ signedAt states ∧ transitionAt old q = some t' := by
  obtain ⟨s', state, transition⟩ := Option.bind_eq_some_iff.mp found
  by_cases early : q.1 < old.length
  · rw [List.getElem?_append_left early] at state
    obtain ⟨s, known, reroutes⟩ := exists_getElem?_left splits.rerouted state
    obtain ⟨t, source, redirects⟩ := exists_getElem?_left reroutes.transitions transition
    have original : transitionAt states q = some t := Option.bind_eq_some_iff.mpr ⟨s, known, source⟩
    by_cases silent : t.signature = []
    · rw [redirects.eq_of_silent silent]
      exact .inl (numbered.destination_lt original)
    · exact .inr ⟨mem_signedAt original silent, Option.bind_eq_some_iff.mpr ⟨s', state, transition⟩⟩
  · rw [List.getElem?_append_right (by omega)] at state
    obtain ⟨s, known, leads⟩ := splits.back s' (mem_of_getElem? state)
    have only := mem_of_getElem? transition
    rw [leads.transitions, mem_singleton] at only
    rw [only]
    exact .inl (numbered.inRange known).2

/-- The conversion leads the transitions with a signature through fresh states, one for each of them, and leaves
everything else as it is; and it has nothing to do a second time. -/
theorem toStateAcceptance_converts (numbered : Numbered states) (made : ∀ s ∈ states, ∀ t ∈ s.transitions, t.IsMade) :
    Converts states (toStateAcceptance states) ∧
      toStateAcceptance (toStateAcceptance states) = toStateAcceptance states := by
  obtain ⟨old, fresh, result, split⟩ : ∃ old fresh, toStateAcceptance states = old ++ fresh ∧
    rerouteAll states.length states = (old, fresh) := ⟨_, _, rfl, rfl⟩
  obtain ⟨rerouted, back, ids⟩ := rerouteAll_spec states.length states
  obtain ⟨count, led⟩ := rerouteAll_signed states.length states
  rw [split] at rerouted back ids count led
  have splits : Splits states old fresh := ⟨rerouted, back, ids⟩
  have silent : ∀ s ∈ old ++ fresh, ∀ t ∈ s.transitions, t.signature = [] := by
    intro s member t transition
    rcases splits.transition_cases member transition with ⟨_, _, _, _, _, redirects⟩ | ⟨_, _, _, rfl⟩
    · exact redirects.signature_eq_nil
    · rfl
  have leadsTo {k : ℕ} {p : ℕ × ℕ} (found : (signedAt states)[k]? = some p) :
      (transitionAt (old ++ fresh) p).map (·.destination) = some ((states.length + k : ℕ) : Int) := by
    obtain ⟨_, t, _, _, forward, _⟩ := led k p found
    obtain ⟨s, state, transition⟩ := Option.bind_eq_some_iff.mp forward
    rw [transitionAt, List.getElem?_append_left (List.getElem?_eq_some_iff.mp state).1, state]
    simp [transition, Transition.make]
  rw [result]
  refine ⟨⟨result ▸ numbered.toStateAcceptance, silent, ?_, fun i s known => ?_, fun k p found => ?_⟩, ?_⟩
  · rw [length_append, splits.length_old, count]
  · obtain ⟨s', state, reroutes⟩ := exists_getElem?_right rerouted known
    refine ⟨s'.transitions, ?_, reroutes.labels_eq (made s (mem_of_getElem? known)), ?_⟩
    · rw [List.getElem?_append_left (List.getElem?_eq_some_iff.mp state).1, state, ← reroutes.same]
    · intro j t transition empty
      obtain ⟨t', there, redirects⟩ := exists_getElem?_right reroutes.transitions transition
      rw [there, redirects.eq_of_silent empty]
  · obtain ⟨source, t, known, signed, _, there⟩ := led k p found
    refine ⟨t, detour (states.length + k) t.signature source, .make source [] "", known, signed, ?_, rfl, rfl, rfl,
      by simp [Transition.isEpsilon, Transition.make], fun q => ⟨?_, ?_⟩⟩
    · rw [List.getElem?_append_right (by rw [splits.length_old]; omega), splits.length_old,
        Nat.add_sub_cancel_left, there]
    · intro leads
      obtain ⟨t', transition, destination⟩ := Option.map_eq_some_iff.mp leads
      rcases splits.transitionAt_cases numbered transition with inside | ⟨member, _⟩
      · omega
      · obtain ⟨k', found'⟩ := mem_iff_getElem?.mp member
        have same := Option.some.inj ((leadsTo found').symm.trans leads)
        have equal : k' = k := by omega
        subst equal
        exact Option.some.inj (found'.symm.trans found)
    · rintro rfl
      exact leadsTo found
  · exact toStateAcceptance_of_silent silent

/-- Two states with transitions that have signatures, among others that have none. -/
def shuttle : List State :=
  [.make 0 [] [.make 1 [0] "0", .make 0 [] "!0", .make 0 [1] "t"] none (some "start"),
    .make 1 [1] [.make 1 [] "", .make 0 [0, 1] "1"] none none]

theorem shuttle_converts : Numbered shuttle ∧ (∀ s ∈ shuttle, ∀ t ∈ s.transitions, t.IsMade) ∧
    signedAt shuttle = [(0, 0), (0, 2), (1, 1)] ∧ Converts shuttle (toStateAcceptance shuttle) ∧
    toStateAcceptance (toStateAcceptance shuttle) = toStateAcceptance shuttle := by
  have numbered : Numbered shuttle := by decide +kernel
  have made : ∀ s ∈ shuttle, ∀ t ∈ s.transitions, t.IsMade := by
    simp [shuttle, State.make, Transition.isMade_make]
  exact ⟨numbered, made, by decide +kernel, toStateAcceptance_converts numbered made⟩

end State

end Supermartingale
