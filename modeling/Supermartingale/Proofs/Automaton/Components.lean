import Supermartingale.Proofs.Automaton.Search

/-!
# Components are the classes of connected nodes

A search keeps the nodes that are in no component yet on a stack. Those whose successors are still being searched form
a path, and every node on the stack lies between nodes of the path. When all successors of a node have been searched
and no edge leads from the nodes above it to one below it, these nodes are a component.
-/

namespace Supermartingale.Graph

open List

variable {g : Graph}

theorem forall_mem_snoc {α : Type} {P : α → Prop} {xs : List α} {y : α} :
    (∀ x ∈ xs ++ [y], P x) ↔ (∀ x ∈ xs, P x) ∧ P y := by
  rw [forall_mem_append, forall_mem_singleton]

/-! ## Complete components -/

/-- Lists of nodes that are components, each one behind those to which its edges lead. -/
inductive Complete (g : Graph) : List (List Int) → Prop where
  | nil : Complete g []
  | snoc {cs : List (List Int)} {c : List Int} (earlier : Complete g cs) (nonempty : c ≠ [])
      (fresh : ∀ v ∈ c, v ∉ cs.flatten) (connected : ∀ v ∈ c, ∀ w, w ∈ c ↔ g.Connected v w)
      (led : ∀ v ∈ c, ∀ w, g.Edge v w → w ∈ c ∨ w ∈ cs.flatten) : Complete g (cs ++ [c])

namespace Complete

variable {cs : List (List Int)} {c d : List Int} {v w : Int}

theorem spec (complete : g.Complete cs) : ∀ c ∈ cs, c ≠ [] ∧ ∀ v ∈ c, ∀ w, w ∈ c ↔ g.Connected v w := by
  induction complete with
  | nil => exact forall_mem_nil _
  | snoc _ nonempty _ connected _ ih => exact forall_mem_snoc.mpr ⟨ih, nonempty, connected⟩

theorem mem_iff (complete : g.Complete cs) (mem : c ∈ cs) (inside : v ∈ c) : w ∈ c ↔ g.Connected v w :=
  (complete.spec c mem).2 v inside w

theorem mem_of_edge (complete : g.Complete cs) (inside : v ∈ cs.flatten) (edge : g.Edge v w) : w ∈ cs.flatten := by
  induction complete with
  | nil => cases inside
  | snoc _ _ _ _ led ih =>
    rw [flatten_append, flatten_singleton, mem_append] at inside ⊢
    rcases inside with old | new
    · exact .inl (ih old)
    · exact (led v new w edge).symm

theorem mem_of_reaches (complete : g.Complete cs) (inside : v ∈ cs.flatten) (path : g.Reaches v w) :
    w ∈ cs.flatten := by
  induction path with
  | refl => exact inside
  | tail _ edge ih => exact complete.mem_of_edge ih edge

theorem le_of_reaches (complete : g.Complete cs) {i j : ℕ} (first : cs[i]? = some c) (second : cs[j]? = some d)
    (inside : v ∈ c) (ahead : w ∈ d) (path : g.Reaches v w) : j ≤ i := by
  induction complete with
  | nil => cases first
  | @snoc cs c' earlier _ fresh _ _ ih =>
    by_cases last : i < cs.length
    · rw [List.getElem?_append_left last] at first
      -- the path stays in the components before the last one
      have stays : w ∈ cs.flatten :=
        earlier.mem_of_reaches (mem_flatten.mpr ⟨c, mem_of_getElem? first, inside⟩) path
      by_cases other : j < cs.length
      · rw [List.getElem?_append_left other] at second
        exact ih first second
      · rw [List.getElem?_append_right (by omega), List.getElem?_singleton] at second
        split at second
        · cases second
          exact absurd stays (fresh w ahead)
        · cases second
    · have bound : j < (cs ++ [c']).length := (List.getElem?_eq_some_iff.mp second).1
      simp only [length_append, length_singleton] at bound
      omega

end Complete

/-! ## The state of a search -/

namespace Survey

variable {s s' : Survey} {v x : Int}

theorem number_lt_length (found : x ∈ s.found) : s.number x < s.found.length := idxOf_lt_length_of_mem found

theorem number_enter_of_mem (found : x ∈ s.found) : (s.enter v).number x = s.number x := idxOf_append_of_mem found

theorem number_enter_self (fresh : v ∉ s.found) : (s.enter v).number v = s.found.length := by
  simp [number, enter, idxOf_append_of_notMem fresh]

/-- A search goes on: nodes keep their numbers, and the stack is left as it was found. -/
structure Grows (s s' : Survey) : Prop where
  found : s.found <+: s'.found
  stack : s.stack <:+ s'.stack

theorem Grows.trans {t : Survey} (first : s.Grows s') (second : s'.Grows t) : s.Grows t :=
  ⟨first.found.trans second.found, first.stack.trans second.stack⟩

theorem grows_enter (s : Survey) (v : Int) : s.Grows (s.enter v) := ⟨prefix_append _ _, suffix_cons _ _⟩

theorem Grows.number_eq (grows : s.Grows s') (found : x ∈ s.found) : s'.number x = s.number x := by
  obtain ⟨new, same⟩ := grows.found
  rw [number, ← same]
  exact idxOf_append_of_mem found

/-- What holds while the successors of the nodes in `path` are being searched. -/
structure Sound (g : Graph) (path : List Int) (s : Survey) : Prop where
  distinct : s.found.Nodup
  parts : (s.stack ++ s.components.flatten).Perm s.found
  pending : ∀ x ∈ path, x ∈ s.stack
  closed : ∀ x ∈ s.found, x ∉ path → ∀ w, g.Edge x w → w ∈ s.found
  descending : s.stack.Pairwise fun x y => s.number y < s.number x
  climbs : ∀ x ∈ path, ∀ y ∈ s.stack, s.number x ≤ s.number y → g.Reaches x y
  returns : ∀ y ∈ s.stack, ∃ x ∈ path, s.number x ≤ s.number y ∧ g.Reaches y x
  complete : g.Complete s.components

namespace Sound

variable {path : List Int}

theorem mem_found (sound : s.Sound g path) : x ∈ s.found ↔ x ∈ s.stack ∨ x ∈ s.components.flatten := by
  rw [← sound.parts.mem_iff, mem_append]

theorem not_mem_components (sound : s.Sound g path) (waiting : x ∈ s.stack) : x ∉ s.components.flatten :=
  fun mem => disjoint_of_nodup_append (sound.parts.nodup_iff.mpr sound.distinct) waiting mem

theorem empty (g : Graph) : Sound g [] {} where
  distinct := .nil
  parts := .nil
  pending := forall_mem_nil _
  closed := forall_mem_nil _
  descending := .nil
  climbs := forall_mem_nil _
  returns := forall_mem_nil _
  complete := .nil

/-- A new node that can be reached from the whole path becomes the end of the path. -/
theorem enter (sound : s.Sound g path) (fresh : v ∉ s.found) (ahead : ∀ x ∈ path, g.Reaches x v) :
    (s.enter v).Sound g (v :: path) := by
  have self := number_enter_self fresh
  have old : ∀ y ∈ s.stack, y ∈ s.found ∧ (s.enter v).number y = s.number y ∧ s.number y < s.found.length := by
    intro y waiting
    have found := sound.mem_found.mpr (.inl waiting)
    exact ⟨found, number_enter_of_mem found, number_lt_length found⟩
  constructor
  case distinct => exact nodup_append_comm.mp (nodup_cons.mpr ⟨fresh, sound.distinct⟩)
  case parts => exact (sound.parts.cons v).trans (perm_append_singleton v s.found).symm
  case pending => exact forall_mem_cons.mpr ⟨mem_cons_self, fun x mem => mem_cons_of_mem _ (sound.pending x mem)⟩
  case closed =>
    intro x found idle w edge
    rw [mem_cons, not_or] at idle
    rcases mem_append.mp found with before | new
    · exact mem_append_left _ (sound.closed x before idle.2 w edge)
    · exact absurd (mem_singleton.mp new) idle.1
  case descending =>
    refine pairwise_cons.mpr ⟨fun y waiting => ?_, sound.descending.imp_of_mem fun first second less => ?_⟩
    · rw [self, (old y waiting).2.1]
      exact (old y waiting).2.2
    · rw [(old _ first).2.1, (old _ second).2.1]
      exact less
  case climbs =>
    intro x mem y waiting above
    rcases mem_cons.mp mem with rfl | earlier <;> rcases mem_cons.mp waiting with rfl | below
    · exact .refl
    · rw [self, (old y below).2.1] at above
      have less := (old y below).2.2
      omega
    · exact ahead x earlier
    · rw [(old x (sound.pending x earlier)).2.1, (old y below).2.1] at above
      exact sound.climbs x earlier y below above
  case returns =>
    intro y waiting
    rcases mem_cons.mp waiting with rfl | waiting
    · exact ⟨y, mem_cons_self, le_refl _, .refl⟩
    · obtain ⟨x, mem, below, back⟩ := sound.returns y waiting
      refine ⟨x, mem_cons_of_mem _ mem, ?_, back⟩
      rw [(old x (sound.pending x mem)).2.1, (old y waiting).2.1]
      exact below
  case complete => exact sound.complete

end Sound

end Survey

/-! ## Searching one node -/

variable {path seen : List Int} {s : Survey} {r : Survey × ℕ} {v w : Int}

/-- What the search of a node that was found with `s` gives: a state and the least number of a node on the
stack of `s` to which a node that is still on the stack has an edge. -/
structure Finds (g : Graph) (path : List Int) (s : Survey) (v : Int) (r : Survey × ℕ) : Prop where
  sound : r.1.Sound g path
  grows : s.Grows r.1
  entered : v ∈ r.1.found
  reached : ∀ x ∈ r.1.found, x ∈ s.found ∨ g.Reaches v x
  realised : r.2 < s.found.length → ∃ y ∈ s.stack, s.number y = r.2 ∧ g.Reaches v y
  bound : ∀ a ∈ r.1.stack, a ∉ s.stack → ∀ b ∈ s.stack, g.Edge a b → r.2 ≤ s.number b

/-- The same while the node is being searched, when the successors in `seen` have been looked at. -/
structure Searched (g : Graph) (path : List Int) (s : Survey) (v : Int) (seen : List Int) (r : Survey × ℕ) : Prop where
  base : s.Sound g path
  fresh : v ∉ s.found
  sound : r.1.Sound g (v :: path)
  grows : (s.enter v).Grows r.1
  reached : ∀ x ∈ r.1.found, x ∈ s.found ∨ g.Reaches v x
  entered : ∀ w ∈ seen, w ∈ r.1.found
  le : r.2 ≤ s.found.length
  realised : r.2 < s.found.length → ∃ y ∈ s.stack, s.number y = r.2 ∧ g.Reaches v y
  bound : ∀ a ∈ r.1.stack, a ∉ s.stack → ∀ b ∈ s.stack, (a = v → b ∈ seen) → g.Edge a b → r.2 ≤ s.number b

namespace Searched

theorem start (base : s.Sound g path) (fresh : v ∉ s.found) (ahead : ∀ x ∈ path, g.Reaches x v) :
    g.Searched path s v [] (s.enter v, s.found.length) where
  base := base
  fresh := fresh
  sound := base.enter fresh ahead
  grows := ⟨prefix_rfl, suffix_rfl⟩
  reached := forall_mem_snoc.mpr ⟨fun _ => .inl, .inr .refl⟩
  entered := forall_mem_nil _
  le := le_refl _
  realised := fun less => absurd less (lt_irrefl _)
  bound := by
    intro a waiting above b _ first _
    rcases mem_cons.mp waiting with same | old
    · exact absurd (first same) not_mem_nil
    · exact absurd old above

section

variable (searched : g.Searched path s v seen r)
include searched

theorem grown : s.Grows r.1 := (s.grows_enter v).trans searched.grows

theorem mem_found_self : v ∈ r.1.found :=
  searched.sound.mem_found.mpr (.inl (searched.sound.pending v mem_cons_self))

theorem number_of_mem {x : Int} (found : x ∈ s.found) : r.1.number x = s.number x := searched.grown.number_eq found

theorem number_self : r.1.number v = s.found.length := by
  rw [searched.grows.number_eq (mem_append_right _ (mem_singleton_self v))]
  exact Survey.number_enter_self searched.fresh

/-- The stack consists of what was found after the node, the node, and the stack before it. -/
theorem exists_top : ∃ top, r.1.stack = top ++ v :: s.stack ∧ ∀ y ∈ top, s.found.length < r.1.number y := by
  obtain ⟨top, same⟩ := searched.grows.stack
  refine ⟨top, same.symm, fun y inside => ?_⟩
  have descending := searched.sound.descending
  rw [← same] at descending
  have less := (pairwise_append.mp descending).2.2 y inside v mem_cons_self
  rwa [searched.number_self] at less

theorem mem_stack_of_lt {y : Int} (waiting : y ∈ r.1.stack) (less : r.1.number y < s.found.length) :
    y ∈ s.stack ∧ s.number y = r.1.number y := by
  obtain ⟨top, same, above⟩ := searched.exists_top
  rw [same] at waiting
  rcases mem_append.mp waiting with inside | rest
  · have further := above y inside
    omega
  · rcases mem_cons.mp rest with rfl | old
    · rw [searched.number_self] at less
      exact absurd less (lt_irrefl _)
    · exact ⟨old, (searched.number_of_mem (searched.base.mem_found.mpr (.inl old))).symm⟩

theorem reaches_successor (edge : g.Edge v w) : ∀ x ∈ v :: path, g.Reaches x w := by
  intro x mem
  have waiting := searched.sound.pending v mem_cons_self
  refine .tail ?_ edge
  rcases mem_cons.mp mem with rfl | mem
  · exact .refl
  · refine searched.sound.climbs x (mem_cons_of_mem _ mem) v waiting ?_
    have found := searched.base.mem_found.mpr (.inl (searched.base.pending x mem))
    rw [searched.number_self, searched.number_of_mem found]
    exact (Survey.number_lt_length found).le

/-- A successor that has been found. Only if it is on the stack, its number counts. -/
theorem keep (edge : g.Edge v w) (found : w ∈ r.1.found) :
    g.Searched path s v (seen ++ [w]) (r.1, if r.1.stack.contains w then min r.2 (r.1.number w) else r.2) where
  base := searched.base
  fresh := searched.fresh
  sound := searched.sound
  grows := searched.grows
  reached := searched.reached
  entered := forall_mem_snoc.mpr ⟨searched.entered, found⟩
  le := by
    have le := searched.le
    split <;> omega
  realised := by
    intro less
    by_cases waiting : w ∈ r.1.stack
    · simp only [contains_iff_mem.mpr waiting, if_true] at less ⊢
      by_cases smaller : r.1.number w < r.2
      · rw [min_eq_right smaller.le] at less ⊢
        obtain ⟨old, same⟩ := searched.mem_stack_of_lt waiting less
        exact ⟨w, old, same, .single edge⟩
      · rw [min_eq_left (not_lt.mp smaller)] at less ⊢
        exact searched.realised less
    · simp only [contains_iff_mem, waiting, if_false] at less ⊢
      exact searched.realised less
  bound := by
    intro a waiting above b below first leads
    by_cases new : a = v ∧ b = w
    · -- the edge to the successor itself
      obtain ⟨rfl, rfl⟩ := new
      have inside : b ∈ r.1.stack := searched.grown.stack.subset below
      rw [if_pos (contains_iff_mem.mpr inside), searched.number_of_mem (searched.base.mem_found.mpr (.inl below))]
      exact min_le_right _ _
    · have before : a = v → b ∈ seen := by
        intro same
        rcases mem_append.mp (first same) with before | last
        · exact before
        · exact absurd ⟨same, mem_singleton.mp last⟩ new
      have least := searched.bound a waiting above b below before leads
      split <;> omega

theorem descend {r' : Survey × ℕ} (edge : g.Edge v w) (unknown : w ∉ r.1.found) (finds : g.Finds (v :: path) r.1 w r') :
    g.Searched path s v (seen ++ [w]) (r'.1, min r.2 r'.2) where
  base := searched.base
  fresh := searched.fresh
  sound := finds.sound
  grows := searched.grows.trans finds.grows
  reached := by
    intro x found
    rcases finds.reached x found with before | path
    · exact searched.reached x before
    · exact .inr (.head edge path)
  entered := forall_mem_snoc.mpr
    ⟨fun x before => finds.grows.found.subset (searched.entered x before), finds.entered⟩
  le := (min_le_left _ _).trans searched.le
  realised := by
    intro less
    dsimp only at less ⊢
    by_cases smaller : r'.2 < r.2
    · rw [min_eq_right smaller.le] at less ⊢
      -- the successor has a greater number than the node, so the least number is that of a node on the stack
      have later : r'.2 < r.1.found.length := by
        have within := Survey.number_lt_length searched.mem_found_self
        rw [searched.number_self] at within
        omega
      obtain ⟨y, waiting, same, there⟩ := finds.realised later
      obtain ⟨old, number⟩ := searched.mem_stack_of_lt waiting (by omega)
      exact ⟨y, old, number.trans same, .head edge there⟩
    · rw [min_eq_left (not_lt.mp smaller)] at less ⊢
      exact searched.realised less
  bound := by
    intro a waiting above b below first leads
    have known : b ∈ s.found := searched.base.mem_found.mpr (.inl below)
    by_cases before : a ∈ r.1.stack
    · refine (min_le_left _ _).trans (searched.bound a before above b below (fun same => ?_) leads)
      rcases mem_append.mp (first same) with before | last
      · exact before
      · cases mem_singleton.mp last
        exact absurd (searched.grown.found.subset known) unknown
    · have least := finds.bound a waiting before b (searched.grown.stack.subset below) leads
      rw [searched.number_of_mem known] at least
      exact (min_le_right _ _).trans least

end

/-! ## Leaving a node -/

theorem closed (searched : g.Searched path s v (g.successors v) r) :
    ∀ x ∈ r.1.found, x ∉ path → ∀ w, g.Edge x w → w ∈ r.1.found := by
  intro x found idle w edge
  by_cases same : x = v
  · exact searched.entered w (same ▸ edge)
  · exact searched.sound.closed x found (by simp [same, idle]) w edge

theorem leave (searched : g.Searched path s v (g.successors v) r) (less : r.2 < s.found.length) :
    g.Finds path s v r where
  sound :=
    { distinct := searched.sound.distinct
      parts := searched.sound.parts
      pending := fun x mem => searched.sound.pending x (mem_cons_of_mem _ mem)
      closed := searched.closed
      descending := searched.sound.descending
      climbs := fun x mem => searched.sound.climbs x (mem_cons_of_mem _ mem)
      returns := by
        intro y waiting
        obtain ⟨x, mem, below, back⟩ := searched.sound.returns y waiting
        rcases mem_cons.mp mem with rfl | mem
        · -- from the node itself there is a way on to the rest of the path
          obtain ⟨z, old, number, there⟩ := searched.realised less
          obtain ⟨u, inside, under, onward⟩ := searched.base.returns z old
          refine ⟨u, inside, ?_, back.trans (there.trans onward)⟩
          rw [searched.number_self] at below
          rw [searched.number_of_mem (searched.base.mem_found.mpr (.inl (searched.base.pending u inside)))]
          omega
        · exact ⟨x, mem, below, back⟩
      complete := searched.sound.complete }
  grows := searched.grown
  entered := searched.mem_found_self
  reached := searched.reached
  realised := searched.realised
  bound := fun a waiting above b below leads => searched.bound a waiting above b below (fun same => same ▸ leads) leads

section

variable {top : List Int} (searched : g.Searched path s v (g.successors v) r) (least : r.2 = s.found.length)
  (same : r.1.stack = top ++ v :: s.stack)
include searched same

theorem mem_stack_of_mem {a : Int} (inside : a ∈ top ++ [v]) : a ∈ r.1.stack ∧ a ∉ s.stack := by
  have whole : r.1.stack = (top ++ [v]) ++ s.stack := by simp [same]
  have distinct := searched.sound.parts.nodup_iff.mpr searched.sound.distinct
  rw [whole, append_assoc] at distinct
  refine ⟨whole ▸ mem_append_left _ inside, fun below => ?_⟩
  exact disjoint_of_nodup_append distinct inside (mem_append_left _ below)

include least

theorem mem_of_edge {a b : Int} (inside : a ∈ top ++ [v]) (edge : g.Edge a b) :
    b ∈ top ++ [v] ∨ b ∈ r.1.components.flatten := by
  obtain ⟨waiting, above⟩ := searched.mem_stack_of_mem same inside
  have found : b ∈ r.1.found := by
    by_cases self : a = v
    · exact searched.entered b (self ▸ edge)
    · refine searched.sound.closed a (searched.sound.mem_found.mpr (.inl waiting)) (fun mem => ?_) b edge
      rcases mem_cons.mp mem with equal | mem
      · exact self equal
      · exact above (searched.base.pending a mem)
  rcases searched.sound.mem_found.mp found with stacked | done
  · rw [same, ← singleton_append, ← append_assoc] at stacked
    rcases mem_append.mp stacked with within | below
    · exact .inl within
    · have bound := searched.bound a waiting above b below (fun self => self ▸ edge) edge
      have number := Survey.number_lt_length (searched.base.mem_found.mpr (.inl below))
      omega
  · exact .inr done

/-- A way back to the stack does not leave the part above the node: outside of it are complete components. -/
theorem mem_of_reaches {a b c : Int} (inside : a ∈ top ++ [v]) (path : g.Reaches a b) (back : g.Reaches b c)
    (waiting : c ∈ r.1.stack) : b ∈ top ++ [v] := by
  by_contra outside
  obtain ⟨x, y, before, after, _, exit, onward⟩ := path.exists_exit inside outside
  have done := (searched.mem_of_edge least same before exit).resolve_left after
  exact searched.sound.not_mem_components waiting (searched.sound.complete.mem_of_reaches done (onward.trans back))

theorem connected_of_mem {a : Int} (inside : a ∈ top ++ [v]) : g.Connected v a := by
  obtain ⟨waiting, _⟩ := searched.mem_stack_of_mem same inside
  constructor
  · refine searched.sound.climbs v mem_cons_self a waiting ?_
    rcases mem_append.mp inside with upper | last
    · have descending := searched.sound.descending
      rw [same] at descending
      exact ((pairwise_append.mp descending).2.2 a upper v mem_cons_self).le
    · cases mem_singleton.mp last
      exact le_refl _
  · obtain ⟨u, mem, _, back⟩ := searched.sound.returns a waiting
    rcases mem_cons.mp mem with rfl | earlier
    · exact back
    · -- an earlier node of the path is below the node
      have within := searched.mem_of_reaches least same inside back .refl (searched.sound.pending u mem)
      exact absurd (searched.base.pending u earlier) (searched.mem_stack_of_mem same within).2

theorem connected_iff {a b : Int} (inside : a ∈ top ++ [v]) : b ∈ top ++ [v] ↔ g.Connected a b := by
  constructor
  · intro mem
    exact (searched.connected_of_mem least same inside).symm.trans (searched.connected_of_mem least same mem)
  · intro connected
    exact searched.mem_of_reaches least same inside connected.1 connected.2 (searched.mem_stack_of_mem same inside).1

end

/-- A node from which there is no way to a node before it completes a component. -/
theorem close (searched : g.Searched path s v (g.successors v) r) (least : r.2 = s.found.length) :
    g.Finds path s v (r.1.close v, r.2) := by
  obtain ⟨top, same, above⟩ := searched.exists_top
  have absent : ∀ x ∈ top, (x != v) = true := by
    intro x mem
    have greater := above x mem
    rw [bne_iff_ne]
    rintro rfl
    rw [searched.number_self] at greater
    exact lt_irrefl _ greater
  have stack : (r.1.close v).stack = s.stack := by
    simp [Survey.close, same, dropWhile_append_of_pos absent]
  have components : (r.1.close v).components = r.1.components ++ [top ++ [v]] := by
    simp [Survey.close, same, takeWhile_append_of_pos absent]
  have older : ∀ x ∈ s.stack, (r.1.close v).number x = s.number x := fun x mem =>
    searched.number_of_mem (searched.base.mem_found.mpr (.inl mem))
  constructor
  case sound =>
    constructor
    case distinct => exact searched.sound.distinct
    case parts =>
      rw [stack, components, flatten_append, flatten_singleton, ← append_assoc]
      refine perm_append_comm.trans ?_
      have parts := searched.sound.parts
      rw [same] at parts
      simpa [Survey.close] using parts
    case pending => exact stack ▸ searched.base.pending
    case closed => exact searched.closed
    case descending =>
      have descending := searched.sound.descending
      rw [same] at descending
      rw [stack]
      exact (pairwise_cons.mp (pairwise_append.mp descending).2.1).2
    case climbs =>
      intro x mem y waiting below
      rw [stack] at waiting
      rw [older x (searched.base.pending x mem), older y waiting] at below
      exact searched.base.climbs x mem y waiting below
    case returns =>
      intro y waiting
      rw [stack] at waiting
      obtain ⟨x, mem, below, back⟩ := searched.base.returns y waiting
      refine ⟨x, mem, ?_, back⟩
      rw [older x (searched.base.pending x mem), older y waiting]
      exact below
    case complete =>
      rw [components]
      refine .snoc searched.sound.complete (by simp) (fun x mem => ?_)
        (fun x mem w => searched.connected_iff least same mem)
        (fun x mem w edge => searched.mem_of_edge least same mem edge)
      exact searched.sound.not_mem_components (searched.mem_stack_of_mem same mem).1
  case grows =>
    refine ⟨searched.grown.found, ?_⟩
    rw [stack]
  case entered => exact searched.mem_found_self
  case reached => exact searched.reached
  case realised => exact searched.realised
  case bound =>
    intro a waiting above
    rw [stack] at waiting
    exact absurd waiting above

end Searched

/-! ## The whole search -/

theorem Searched.foldl {fuel : ℕ}
    (searches : ∀ path s v, s.Sound g path → v ∉ s.found → (∀ x ∈ path, g.Reaches x v) →
      g.unfound s.found < fuel → g.Finds path s v (g.connect fuel s v))
    (ws : List Int) (searched : g.Searched path s v seen r) (edges : ∀ w ∈ ws, g.Edge v w)
    (enough : ws = [] ∨ g.unfound r.1.found < fuel) :
    g.Searched path s v (seen ++ ws) (ws.foldl (advance (g.connect fuel)) r) := by
  induction ws generalizing seen r with
  | nil => simpa using searched
  | cons w ws ih =>
    have bound : g.unfound r.1.found < fuel := enough.resolve_left (cons_ne_nil _ _)
    have edge := edges w mem_cons_self
    obtain ⟨s', low⟩ := r
    have next : g.Searched path s v (seen ++ [w]) (advance (g.connect fuel) (s', low) w) ∧
        ∀ x ∈ s'.found, x ∈ (advance (g.connect fuel) (s', low) w).1.found := by
      unfold advance
      dsimp only
      split
      · rename_i found
        exact ⟨searched.keep edge (contains_iff_mem.mp found), fun _ => id⟩
      · rename_i missing
        have unknown : w ∉ s'.found := fun found => missing (contains_iff_mem.mpr found)
        have finds := searches _ s' w searched.sound unknown (searched.reaches_successor edge) bound
        exact ⟨searched.descend edge unknown finds, fun x before => finds.grows.found.subset before⟩
    have rest := ih next.1 (fun x mem => edges x (mem_cons_of_mem _ mem))
      (.inr (lt_of_le_of_lt (unfound_le next.2) bound))
    rwa [append_assoc] at rest

theorem finds_connect (fuel : ℕ) (path : List Int) (s : Survey) (v : Int) (sound : s.Sound g path)
    (fresh : v ∉ s.found) (ahead : ∀ x ∈ path, g.Reaches x v) (enough : g.unfound s.found < fuel) :
    g.Finds path s v (g.connect fuel s v) := by
  induction fuel generalizing path s v with
  | zero => omega
  | succ fuel ih =>
    have searched := (Searched.start sound fresh ahead).foldl ih (g.successors v) (fun _ => id) (by
      cases successors : g.successors v with
      | nil => exact .inl rfl
      | cons w ws =>
        have edge : g.Edge v w := by simp [Edge, successors]
        have less : g.unfound (s.enter v).found < g.unfound s.found :=
          unfound_lt (fun _ => mem_append_left _) (mem_nodes_of_edge edge) fresh
            (mem_append_right _ (mem_singleton_self v))
        exact .inr (by dsimp only; omega))
    rw [nil_append] at searched
    unfold connect
    dsimp only
    split
    · rename_i least
      exact searched.close (beq_iff_eq.mp least)
    · rename_i other
      exact searched.leave (lt_of_le_of_ne searched.le fun least => other (beq_iff_eq.mpr least))

structure Surveys (g : Graph) (keys : List Int) (s : Survey) : Prop where
  sound : s.Sound g []
  entered : ∀ v ∈ keys, v ∈ s.found
  reached : ∀ x ∈ s.found, ∃ u ∈ keys, g.Reaches u x

theorem Surveys.explore {keys : List Int} (surveys : g.Surveys keys s) (v : Int) :
    g.Surveys (keys ++ [v]) (g.explore s v) := by
  unfold Graph.explore
  split
  · rename_i found
    refine ⟨surveys.sound, forall_mem_snoc.mpr ⟨surveys.entered, contains_iff_mem.mp found⟩, fun x inside => ?_⟩
    obtain ⟨u, mem, path⟩ := surveys.reached x inside
    exact ⟨u, mem_append_left _ mem, path⟩
  · rename_i missing
    have finds := finds_connect _ [] s v surveys.sound (fun found => missing (contains_iff_mem.mpr found))
      (forall_mem_nil _) (g.unfound_lt_length _)
    refine ⟨finds.sound, forall_mem_snoc.mpr
      ⟨fun x before => finds.grows.found.subset (surveys.entered x before), finds.entered⟩, fun x inside => ?_⟩
    rcases finds.reached x inside with before | path
    · obtain ⟨u, mem, path⟩ := surveys.reached x before
      exact ⟨u, mem_append_left _ mem, path⟩
    · exact ⟨v, mem_append_right _ (mem_singleton_self v), path⟩

theorem surveys_survey (g : Graph) : g.Surveys (g.map (·.1)) g.survey := by
  have run : ∀ ws keys s, g.Surveys keys s → g.Surveys (keys ++ ws) (ws.foldl g.explore s) := by
    intro ws
    induction ws with
    | nil =>
      intro keys s surveys
      simpa using surveys
    | cons w ws ih =>
      intro keys s surveys
      have rest := ih _ _ (surveys.explore w)
      rwa [append_assoc] at rest
  exact run _ [] {} ⟨.empty g, forall_mem_nil _, forall_mem_nil _⟩

theorem complete_components (g : Graph) : g.Complete g.components := g.surveys_survey.sound.complete

theorem components_perm_found (g : Graph) : g.components.flatten.Perm g.survey.found := by
  have sound := g.surveys_survey.sound
  have empty : g.survey.stack = [] := by
    refine eq_nil_iff_forall_not_mem.mpr fun y waiting => ?_
    obtain ⟨x, mem, _⟩ := sound.returns y waiting
    cases mem
  have parts := sound.parts
  rwa [empty, nil_append] at parts

theorem mem_flatten_components : v ∈ g.components.flatten ↔ ∃ u ∈ g.map (·.1), g.Reaches u v := by
  have surveys := g.surveys_survey
  rw [g.components_perm_found.mem_iff]
  constructor
  · exact surveys.reached v
  · rintro ⟨u, mem, path⟩
    induction path with
    | refl => exact surveys.entered u mem
    | tail _ edge ih => exact surveys.sound.closed _ ih not_mem_nil _ edge

theorem mem_component_iff {c : List Int} (component : c ∈ g.components) {v : Int} (inside : v ∈ c)
    {w : Int} : w ∈ c ↔ g.Connected v w :=
  g.complete_components.mem_iff component inside

/-- Every listed node, and every node that can be reached from one, is in a component. -/
theorem exists_component {u v : Int} (listed : u ∈ g.map (·.1)) (path : g.Reaches u v) :
    ∃ c ∈ g.components, v ∈ c :=
  mem_flatten.mp (mem_flatten_components.mpr ⟨u, listed, path⟩)

theorem exists_reaches {c : List Int} (component : c ∈ g.components) {v : Int} (inside : v ∈ c) :
    ∃ u ∈ g.map (·.1), g.Reaches u v :=
  mem_flatten_components.mp (mem_flatten.mpr ⟨c, component, inside⟩)

/-- The components share out the listed nodes and those that can be reached from them, each node once. Two
nodes are in one component if they can be reached from each other, and a component comes after those that can be
reached from it. -/
theorem components_partition (g : Graph) :
    (g.components.flatten.Nodup ∧ [] ∉ g.components ∧
      ∀ v, v ∈ g.components.flatten ↔ ∃ u ∈ g.map (·.1), g.Reaches u v) ∧
    ∀ (i j : ℕ) c d v w, g.components[i]? = some c → g.components[j]? = some d → v ∈ c → w ∈ d →
      (i = j ↔ g.Connected v w) ∧ (i ≠ j → g.Reaches v w → j < i) := by
  have complete := g.complete_components
  refine ⟨⟨?_, fun member => (complete.spec [] member).1 rfl, fun v => mem_flatten_components⟩, ?_⟩
  · exact g.components_perm_found.nodup_iff.mpr g.surveys_survey.sound.distinct
  · intro i j c d v w first second inside ahead
    refine ⟨⟨?_, fun connected => ?_⟩, fun other path => ?_⟩
    · rintro rfl
      cases first.symm.trans second
      exact (complete.mem_iff (mem_of_getElem? first) inside).mp ahead
    · exact le_antisymm (complete.le_of_reaches second first ahead inside connected.2)
        (complete.le_of_reaches first second inside ahead connected.1)
    · exact lt_of_le_of_ne (complete.le_of_reaches first second inside ahead path) other.symm

end Supermartingale.Graph
