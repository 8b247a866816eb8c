import Supermartingale.Proofs.Policy.Synthesis

/-!
# The policy that is reported

A model of the constraints gives values to the constants of the policies. The constraints of an accepting state are
about the policy of the first acceptance set and those of the other states about the policy that reaches acceptance;
the answer has it the other way round.
-/

namespace Supermartingale

open List DecomposedPolicy

/-! ## Values -/

namespace Answer

open DecomposedPolicy (stem coefficientName)

section

variable {κ : Type} [BEq κ] [LawfulBEq κ] {values : List (κ × Value)} {k l : κ} {v : Value}

def valueOf (values : List (κ × Value)) (k : κ) : Option Value := (values.find? (·.1 == k)).map (·.2)

theorem valueOf_eq_some (distinct : (values.map (·.1)).Nodup) : valueOf values k = some v ↔ (k, v) ∈ values := by
  unfold valueOf
  rw [Option.map_eq_some_iff]
  constructor
  · rintro ⟨⟨k', v'⟩, found, rfl⟩
    have same : k' = k := by simpa using List.find?_some found
    exact same ▸ mem_of_find?_eq_some found
  · intro mem
    cases found : values.find? (·.1 == k) with
    | none => simpa using List.find?_eq_none.mp found _ mem
    | some entry =>
      have same : entry.1 = k := by simpa using List.find?_some found
      have equal : entry = (k, v) := inj_on_of_nodup_map distinct (mem_of_find?_eq_some found) mem same
      exact ⟨entry, rfl, by rw [equal]⟩

omit [LawfulBEq κ] in
theorem setValue_eq_upsert : setValue values k v = upsert (· == k) k v values := rfl

theorem valueOf_setValue : valueOf (setValue values k v) l = if k == l then some v else valueOf values l := by
  rw [valueOf, setValue_eq_upsert]
  by_cases equal : k = l
  · rw [← equal, if_pos BEq.rfl]
    exact find?_upsert_self (· == k) BEq.rfl
  · rw [if_neg (by simpa using equal), find?_upsert_of_ne (· == k) (· == l) BEq.rfl fun n same => ?_]
    · rfl
    · simpa [eq_of_beq same] using equal

theorem valueOf_reverse (distinct : (values.map (·.1)).Nodup) : valueOf values.reverse k = valueOf values k := by
  refine Option.ext fun v => ?_
  rw [valueOf_eq_some distinct, valueOf_eq_some, mem_reverse]
  rw [map_reverse]
  exact nodup_reverse.mpr distinct

theorem nodup_setValue (distinct : (values.map (·.1)).Nodup) : ((setValue values k v).map (·.1)).Nodup := by
  by_cases present : values.any (·.1 == k)
  · rw [setValue_eq_upsert, keys_upsert (· == k) present]
    exact distinct
  · rw [setValue, if_neg present, map_append, nodup_append]
    refine ⟨distinct, nodup_singleton k, fun l mem l' last same => ?_⟩
    obtain ⟨entry, inside, rfl⟩ := mem_map.mp mem
    rw [map_singleton, mem_singleton] at last
    exact present (any_eq_true.mpr ⟨entry, inside, by simp [same, last]⟩)

/-- Of the values that are set under one key, the last one stays. -/
theorem valueOf_foldl_setValue {α : Type} (key : α → κ) (xs : List (α × Value)) (values : List (κ × Value)) (k : κ) :
    valueOf (xs.foldl (fun values (x, v) => setValue values (key x) v) values) k =
      ((xs.reverse.find? fun x => key x.1 == k).map (·.2)).or (valueOf values k) := by
  induction xs generalizing values with
  | nil => rfl
  | cons x xs ih =>
    rw [foldl_cons, ih, reverse_cons, List.find?_append, valueOf_setValue]
    cases xs.reverse.find? fun x => key x.1 == k with
    | some y => rfl
    | none => cases same : key x.1 == k <;> simp [same]

theorem nodup_foldl_setValue {α : Type} (key : α → κ) (xs : List (α × Value)) {values : List (κ × Value)}
    (distinct : (values.map (·.1)).Nodup) :
    ((xs.foldl (fun values (x, v) => setValue values (key x) v) values).map (·.1)).Nodup := by
  induction xs generalizing values with
  | nil => exact distinct
  | cons x xs ih => exact ih (nodup_setValue distinct)

end

/-! ## Values of the constants -/

def startsWith (head name : String) : Bool := (Text.dropLeading? head.toList name.toList).isSome

theorem startsWith_coefficientName (accepting accepting' : Bool) (a i : ℕ) :
    startsWith (stem accepting ++ "_") (coefficientName accepting' a i) = (accepting == accepting') := by
  have chars : (coefficientName accepting' a i).toList =
      (stem accepting' ++ "_").toList ++ (Nat.toDigits 10 (a + 1) ++ '_' :: Nat.toDigits 10 (i + 1)) := by
    simp [coefficientName, Policy.actionStem]
  rw [startsWith, chars]
  cases accepting <;> cases accepting' <;> rfl

/-- A model gives values to the first coefficients of some actions in both policies, and to no other constants
with their stems. -/
structure Gives (m count : ℕ) (model : List (String × Value)) : Prop where
  distinct : (model.map (·.1)).Nodup
  constants : ∀ name, name ∈ model.map (·.1) ∧ isPolicyConstant name ↔
    ∃ accepting, ∃ a < m, ∃ i < count, name = coefficientName accepting a i
  writable : ∀ i < count, isWritable (i + 1)

variable {m count i : ℕ} {model : List (String × Value)} {accepting : Bool} {own : List (ℤ × Value)} {name : String}

/-- The names of the first coefficients of some actions. -/
def coefficients (accepting : Bool) (m count : ℕ) : List String :=
  (List.range m).flatMap fun a => (List.range count).map (coefficientName accepting a)

theorem mem_coefficients :
    name ∈ coefficients accepting m count ↔ ∃ a < m, ∃ i < count, name = coefficientName accepting a i := by
  simp [coefficients, eq_comm]

theorem length_coefficients (accepting : Bool) (m count : ℕ) : (coefficients accepting m count).length = m * count := by
  simp [coefficients, length_flatMap]

theorem Gives.of_coefficients (distinct : (model.map (·.1)).Nodup)
    (constants : ∀ name, name ∈ model.map (·.1) ∧ isPolicyConstant name ↔
      ∃ accepting, name ∈ coefficients accepting m count)
    (positive : 1 ≤ m) (writable : isWritable (coefficients true m count).length) : Gives m count model where
  distinct := distinct
  constants := fun name => (constants name).trans (exists_congr fun _ => mem_coefficients)
  writable := by
    intro i bound
    rw [length_coefficients, isWritable_iff] at writable
    rw [isWritable_iff]
    exact lt_of_le_of_lt ((Nat.succ_le_of_lt bound).trans (Nat.le_mul_of_pos_left count positive)) writable

theorem isPolicyConstant_of_startsWith (starts : startsWith (stem accepting ++ "_") name) : isPolicyConstant name := by
  rw [isPolicyConstant, any_eq_true]
  cases accepting with
  | false => exact ⟨"Pa_", by simp, starts⟩
  | true => exact ⟨"Pb0_", by simp, starts⟩

theorem Gives.lastNumber_ok (gives : Gives m count model) (accepting : Bool) (a : ℕ) (bound : i < count) :
    lastNumber (coefficientName accepting a i) = .ok ((i + 1 : ℕ) : ℤ) :=
  lastNumber_append _ (gives.writable i bound)

/-- The number at the end of a name, where there is one. -/
def numberOf (name : String) : ℤ := (lastNumber name).toOption.getD 0

theorem Gives.numberOf_eq (gives : Gives m count model) (accepting : Bool) (a : ℕ) (bound : i < count) :
    numberOf (coefficientName accepting a i) = ((i + 1 : ℕ) : ℤ) := by
  simp [numberOf, gives.lastNumber_ok accepting a bound, Except.toOption]

theorem Gives.mem_own (gives : Gives m count model) (accepting : Bool) {entry : String × Value} :
    entry ∈ model.filter (fun (k, _) => startsWith (stem accepting ++ "_") k) ↔
      entry ∈ model ∧ ∃ a < m, ∃ i < count, entry.1 = coefficientName accepting a i := by
  obtain ⟨k, v⟩ := entry
  rw [mem_filter]
  refine and_congr_right fun mem => ?_
  dsimp only
  constructor
  · intro starts
    obtain ⟨accepting', a, action, i, bound, name⟩ := (gives.constants k).mp
      ⟨mem_map_of_mem mem, isPolicyConstant_of_startsWith starts⟩
    rw [name, startsWith_coefficientName, beq_iff_eq] at starts
    exact ⟨a, action, i, bound, starts ▸ name⟩
  · rintro ⟨a, _, i, _, name⟩
    rw [name, startsWith_coefficientName, beq_self_eq_true]

theorem Gives.valueOf_isSome (gives : Gives m count model) (accepting : Bool) {a i : ℕ} (action : a < m)
    (bound : i < count) : ∃ v, valueOf model (coefficientName accepting a i) = some v := by
  obtain ⟨listed, _⟩ := (gives.constants _).mpr ⟨accepting, a, action, i, bound, rfl⟩
  obtain ⟨entry, mem, name⟩ := mem_map.mp listed
  exact ⟨entry.2, (valueOf_eq_some gives.distinct).mpr (name ▸ mem)⟩

theorem foldlM_setValue {own : List (String × Value)}
    (known : ∀ entry ∈ own, lastNumber entry.1 = .ok (numberOf entry.1)) (values : List (ℤ × Value)) :
    own.foldlM (fun values (k, v) => do return setValue values (← lastNumber k) v) values =
      .ok (own.foldl (fun values (k, v) => setValue values (numberOf k) v) values) := by
  induction own generalizing values with
  | nil => rfl
  | cons entry own ih =>
    rw [forall_mem_cons] at known
    rw [foldlM_cons]
    exact bind_eq_ok.mpr ⟨_, bind_eq_ok.mpr ⟨_, known.1, rfl⟩, ih known.2 _⟩

/-- The values that are taken for a policy: under every number that of a coefficient with this number. -/
structure Takes (model : List (String × Value)) (m count : ℕ) (accepting : Bool) (values : List (ℤ × Value)) :
    Prop where
  distinct : (values.map (·.1)).Nodup
  source : ∀ n v, valueOf values n = some v → ∃ a < m, ∃ i < count, n = ((i + 1 : ℕ) : ℤ) ∧
    valueOf model (coefficientName accepting a i) = some v
  known : ∀ a < m, ∀ i < count, ∃ v, valueOf values ((i + 1 : ℕ) : ℤ) = some v

theorem Gives.takeStem_spec (gives : Gives m count model) (accepting : Bool) :
    ∃ values, takeStem (stem accepting ++ "_") model = .ok values ∧ Takes model m count accepting values := by
  have known : ∀ entry ∈ model.filter (fun (k, _) => startsWith (stem accepting ++ "_") k),
      lastNumber entry.1 = .ok (numberOf entry.1) := by
    intro entry mem
    obtain ⟨_, a, _, i, bound, name⟩ := (gives.mem_own accepting).mp mem
    rw [name, gives.numberOf_eq accepting a bound]
    exact gives.lastNumber_ok accepting a bound
  refine ⟨_, foldlM_setValue known [], nodup_foldl_setValue numberOf _ nodup_nil, fun n v found => ?_,
    fun a action i bound => ?_⟩
  · rw [valueOf_foldl_setValue, show valueOf ([] : List (ℤ × Value)) n = none from rfl, Option.or_none,
      Option.map_eq_some_iff] at found
    obtain ⟨entry, last, rfl⟩ := found
    have mem := mem_reverse.mp (mem_of_find?_eq_some last)
    obtain ⟨listed, a, action, i, bound, name⟩ := (gives.mem_own accepting).mp mem
    have same : numberOf entry.1 = n := by simpa using List.find?_some last
    refine ⟨a, action, i, bound, ?_, (valueOf_eq_some gives.distinct).mpr (name ▸ listed)⟩
    rw [← same, name, gives.numberOf_eq accepting a bound]
  · obtain ⟨v, given⟩ := gives.valueOf_isSome accepting action bound
    have mem := (gives.mem_own accepting).mpr
      ⟨(valueOf_eq_some gives.distinct).mp given, a, action, i, bound, rfl⟩
    rw [valueOf_foldl_setValue]
    cases last : (model.filter fun (k, _) => startsWith (stem accepting ++ "_") k).reverse.find?
        fun entry => numberOf entry.1 == ((i + 1 : ℕ) : ℤ) with
    | none =>
      have absent := List.find?_eq_none.mp last _ (mem_reverse.mpr mem)
      simp [gives.numberOf_eq accepting a bound] at absent
    | some entry => exact ⟨entry.2, rfl⟩

/-! ## Spreading over states -/

def report (own : List (ℤ × Value)) (state : ℤ) (model : List (String × Value)) : List (String × Value) :=
  own.foldl (fun model (n, v) => setValue model (reportName state n) v) model

theorem valueOf_report_of_ne {state : ℤ} (other : ∀ n, name ≠ reportName state n) (model : List (String × Value)) :
    valueOf (report own state model) name = valueOf model name := by
  have none : own.reverse.find? (fun x => reportName state x.1 == name) = none := by
    rw [List.find?_eq_none]
    exact fun x _ same => other x.1 (beq_iff_eq.mp same).symm
  rw [report, valueOf_foldl_setValue, none]
  rfl

theorem valueOf_report (distinct : (own.map (·.1)).Nodup) (state n : ℤ)
    (model : List (String × Value)) : valueOf (report own state model) (reportName state n) =
      (valueOf own n).or (valueOf model (reportName state n)) := by
  have same : (fun x : ℤ × Value => reportName state x.1 == reportName state n) = fun x => x.1 == n := by
    funext x
    rw [Bool.eq_iff_iff, beq_iff_eq, beq_iff_eq]
    exact ⟨fun h => (reportName_injective h).2, congrArg _⟩
  rw [report, valueOf_foldl_setValue, same, ← valueOf_reverse distinct]
  rfl

theorem valueOf_spread {own : State → List (ℤ × Value)} (distinct : ∀ s, ((own s).map (·.1)).Nodup)
    (rest : List (String × Value)) {n : ℤ} {v : Value} {states : List State} {s : State} (mem : s ∈ states)
    (same : ∀ s' ∈ states, s'.id = s.id → valueOf (own s') n = some v) :
    valueOf (states.foldl (fun model s => report (own s) s.id model) rest) (reportName s.id n) = some v := by
  induction states using List.reverseRecOn with
  | nil => cases mem
  | append_singleton states last ih =>
    rw [foldl_append, foldl_cons, foldl_nil]
    by_cases equal : last.id = s.id
    · rw [← equal, valueOf_report (distinct last), same last (by simp) equal]
      rfl
    · rw [valueOf_report_of_ne fun k h => equal (reportName_injective h).1.symm]
      refine ih ?_ fun s' inside => same s' (mem_append_left _ inside)
      rcases mem_append.mp mem with before | here
      · exact before
      · exact absurd (congrArg State.id (mem_singleton.mp here)).symm equal

/-- Accepting states are reported with the values of the policy that acts in the others, and the other way
round. -/
theorem Gives.refine_eq (gives : Gives m count model) (positive : 1 ≤ m) (states : List State) :
    ∃ own : Bool → List (ℤ × Value), (∀ accepting, Takes model m count accepting (own accepting)) ∧
      refine model states = .ok (states.foldl (fun model s => report (own !s.isAccepting) s.id model)
        (model.filter fun (k, _) => !isPolicyConstant k)) := by
  have numbered : (model.filter fun (k, _) => isPolicyConstant k).forM
      (fun (k, _) => do let _ ← lastNumber k) = .ok () := by
    refine forM_of_ok fun entry mem => ?_
    obtain ⟨listed, policy⟩ := mem_filter.mp mem
    obtain ⟨accepting, a, _, i, bound, name⟩ := (gives.constants entry.1).mp ⟨mem_map_of_mem listed, policy⟩
    refine bind_eq_ok.mpr ⟨((i + 1 : ℕ) : ℤ), ?_, rfl⟩
    rw [name]
    exact gives.lastNumber_ok accepting a bound
  choose own taken takes using gives.takeStem_spec
  have fromReach : takeStem "Pa_" model = .ok (own false) := taken false
  have fromAgain : takeStem "Pb0_" model = .ok (own true) := taken true
  -- both policies have as many coefficients
  have empty (accepting accepting' : Bool) (none : own accepting = []) : own accepting' = [] := by
    by_contra nonempty
    obtain ⟨entry, others, first⟩ := exists_cons_of_ne_nil nonempty
    have found : valueOf (own accepting') entry.1 = some entry.2 :=
      (valueOf_eq_some (takes accepting').distinct).mpr (first ▸ mem_cons_self)
    obtain ⟨a, _, i, bound, _⟩ := (takes accepting').source _ _ found
    obtain ⟨v, known⟩ := (takes accepting).known 0 positive i bound
    rw [none] at known
    cases known
  have unfolded : refine model states = if (own false).isEmpty || (own true).isEmpty then
      .ok (model.filter fun (k, _) => !isPolicyConstant k)
      else .ok (states.foldl (fun model s => report (if s.isAccepting then own false else own true) s.id model)
        (model.filter fun (k, _) => !isPolicyConstant k)) := by
    rw [refine]
    dsimp only
    rw [numbered, fromReach, fromAgain]
    rfl
  refine ⟨own, takes, ?_⟩
  rw [unfolded]
  split
  · rename_i one
    have all (accepting : Bool) : own accepting = [] := by
      rcases Bool.or_eq_true_iff.mp one with first | second
      · exact empty false accepting (isEmpty_iff.mp first)
      · exact empty true accepting (isEmpty_iff.mp second)
    simp [all, report]
  · congr 2
    funext model s
    cases s.isAccepting with
    | true => rfl
    | false => rfl

theorem Takes.valueOf_eq {values : List (ℤ × Value)} (takes : Takes model 1 count accepting values)
    (bound : i < count) : valueOf values ((i + 1 : ℕ) : ℤ) = valueOf model (coefficientName accepting 0 i) := by
  obtain ⟨v, known⟩ := takes.known 0 Nat.one_pos i bound
  obtain ⟨a, action, j, _, number, value⟩ := takes.source _ v known
  obtain rfl : a = 0 := by omega
  obtain rfl : j = i := by omega
  rw [known, value]

/-- With a single action, every state is reported with the values of the policy that acts in it exactly if both
policies have the same values. -/
theorem Gives.refine_spec (gives : Gives 1 count model) (states : List State) :
    ∃ refined, refine model states = .ok refined ∧
      ((∀ s ∈ states, ∀ i < count, valueOf refined (reportName s.id ((i + 1 : ℕ) : ℤ)) =
          valueOf model (coefficientName s.isAccepting 0 i)) ↔
        states = [] ∨ ∀ i < count,
          valueOf model (coefficientName false 0 i) = valueOf model (coefficientName true 0 i)) := by
  obtain ⟨own, takes, result⟩ := gives.refine_eq (Nat.le_refl 1) states
  refine ⟨_, result, ?_, ?_⟩
  · intro reported
    rcases eq_nil_or_concat states with empty | ⟨before, last, rfl⟩
    · exact .inl empty
    · refine .inr fun i bound => ?_
      have atLast := reported last (by simp) i bound
      rw [concat_eq_append, foldl_append, foldl_cons, foldl_nil,
        valueOf_report (takes _).distinct, (takes _).valueOf_eq bound] at atLast
      obtain ⟨v, value⟩ := gives.valueOf_isSome (!last.isAccepting) Nat.one_pos bound
      rw [value, Option.some_or, ← value] at atLast
      cases status : last.isAccepting with
      | true => simpa [status] using atLast
      | false => simpa [status] using atLast.symm
  · rintro (rfl | equal) s mem i bound
    · cases mem
    · have agree (accepting : Bool) :
          valueOf model (coefficientName accepting 0 i) = valueOf model (coefficientName true 0 i) := by
        cases accepting with
        | true => rfl
        | false => exact equal i bound
      obtain ⟨v, value⟩ := gives.valueOf_isSome true Nat.one_pos bound
      rw [agree, value]
      refine valueOf_spread (fun s => (takes _).distinct) _ mem fun s' _ _ => ?_
      rw [(takes _).valueOf_eq bound, agree, value]

/-- A model gives values to the constants of the policies that act, and to no other constants with their
stems. -/
structure Assigns (p : DecomposedPolicy) (model : List (String × Value)) : Prop where
  distinct : (model.map (·.1)).Nodup
  constants : ∀ name, name ∈ model.map (·.1) ∧ isPolicyConstant name ↔
    ∃ accepting e, p.act accepting = .ok [("A1", e)] ∧ name ∈ e.constants
  writable : ∀ accepting e, p.act accepting = .ok [("A1", e)] → isWritable e.constants.length

theorem Assigns.gives {p : DecomposedPolicy} (assigns : Assigns p model)
    (acts : ∀ accepting, ∃ e, p.act accepting = .ok [("A1", e)] ∧
      e.constants = (List.range count).map (coefficientName accepting 0)) : Gives 1 count model := by
  choose e act constants using acts
  have listed (accepting : Bool) : (e accepting).constants = coefficients accepting 1 count := by
    simp [constants, coefficients]
  refine Gives.of_coefficients assigns.distinct (fun name => ?_) (Nat.le_refl 1) ?_
  · rw [assigns.constants]
    exact exists_congr fun accepting => by simp [act, listed]
  · rw [← listed]
    exact assigns.writable true _ (act true)

/-- With a single action, what is reported for every state is the policy that its constraints are about
exactly if there is no state or both policies have the same values. -/
theorem reports_verified_policy_iff {actions dimension degree given : Value} {sets : ℕ}
    {limits : List (String × Value)} {shelf shelf' : Powers.Shelf} {p : DecomposedPolicy}
    (sound : shelf.Sound) (some : 1 ≤ sets) (single : actions.count = .ok 1)
    (made : make actions dimension degree sets given limits shelf = .ok (p, shelf'))
    (assigns : Assigns p model) (states : List State) :
    ∃ refined, refine model states = .ok refined ∧
      ((∀ s ∈ states, ∃ e, p.act s.isAccepting = .ok [("A1", e)] ∧ ∀ i name,
          e.constants[i]? = Option.some name →
            valueOf refined (reportName s.id ((i + 1 : ℕ) : ℤ)) = valueOf model name) ↔
        states = [] ∨ ∃ reach again, p.act false = .ok [("A1", reach)] ∧
          p.act true = .ok [("A1", again)] ∧
          reach.constants.map (valueOf model) = again.constants.map (valueOf model)) := by
  obtain ⟨count, acts⟩ := act_single sound some single made
  obtain ⟨refined, result, exactly⟩ := (assigns.gives acts).refine_spec states
  have atState (accepting : Bool) (id : ℤ) :
      (∃ e, p.act accepting = .ok [("A1", e)] ∧ ∀ i name, e.constants[i]? = Option.some name →
          valueOf refined (reportName id ((i + 1 : ℕ) : ℤ)) = valueOf model name) ↔
        ∀ i < count, valueOf refined (reportName id ((i + 1 : ℕ) : ℤ)) =
          valueOf model (coefficientName accepting 0 i) := by
    obtain ⟨e, act, constants⟩ := acts accepting
    constructor
    · rintro ⟨e', act', values⟩ i bound
      cases act.symm.trans act'
      exact values i _ (by simp [constants, bound])
    · intro values
      refine ⟨e, act, fun i name known => ?_⟩
      rw [constants, List.getElem?_map, Option.map_eq_some_iff] at known
      obtain ⟨j, inside, rfl⟩ := known
      obtain ⟨bound, rfl⟩ := List.getElem?_eq_some_iff.mp inside
      rw [length_range] at bound
      rw [getElem_range]
      exact values i bound
  have equalValues : (∃ reach again, p.act false = .ok [("A1", reach)] ∧
      p.act true = .ok [("A1", again)] ∧
      reach.constants.map (valueOf model) = again.constants.map (valueOf model)) ↔
        ∀ i < count, valueOf model (coefficientName false 0 i) = valueOf model (coefficientName true 0 i) := by
    obtain ⟨reach, actReach, constantsReach⟩ := acts false
    obtain ⟨again, actAgain, constantsAgain⟩ := acts true
    have lists : reach.constants.map (valueOf model) = again.constants.map (valueOf model) ↔
        ∀ i < count, valueOf model (coefficientName false 0 i) = valueOf model (coefficientName true 0 i) := by
      rw [constantsReach, constantsAgain, map_map, map_map, map_inj_left]
      simp only [mem_range, Function.comp]
    rw [← lists]
    constructor
    · rintro ⟨reach', again', actReach', actAgain', same⟩
      cases actReach.symm.trans actReach'
      cases actAgain.symm.trans actAgain'
      exact same
    · exact fun same => ⟨reach, again, actReach, actAgain, same⟩
  refine ⟨refined, result, ?_⟩
  rw [equalValues, ← exactly]
  simp only [atState]

theorem constants_of_degree_zero : ∃ p shelf reach again,
      make (.int 1) (.int 1) (.int 0) 1 (.list []) [] {} = .ok (p, shelf) ∧
      p.act false = .ok [("A1", reach)] ∧ p.act true = .ok [("A1", again)] ∧
      reach.constants = ["Pa_1_1"] ∧ again.constants = ["Pb0_1_1"] := by
  obtain ⟨⟨p, shelf⟩, made⟩ : ∃ result,
      make (.int 1) (.int 1) (.int 0) 1 (.list []) [] {} = .ok result :=
    exists_of_isOk (by decide +kernel)
  obtain ⟨count, acts⟩ := act_single Powers.Shelf.sound_empty (le_refl 1) rfl made
  obtain ⟨reach, actReach, constantsReach⟩ := acts false
  obtain ⟨again, actAgain, constantsAgain⟩ := acts true
  have computed : ((make (.int 1) (.int 1) (.int 0) 1 (.list []) [] {}).toOption.bind
      fun result => (result.1.act false).toOption.map fun actions =>
        actions.map (·.2.constants.length)) = some [1] := by decide +kernel
  have one : count = 1 := by
    simpa [made, Except.toOption, actReach, constantsReach] using computed
  subst one
  refine ⟨p, shelf, reach, again, made, actReach, actAgain, ?_, ?_⟩
  · rw [constantsReach]
    decide +kernel
  · rw [constantsAgain]
    decide +kernel

/-- Two policies with the same value, an accepting state and one that is not. -/
theorem reports_equal_policies :
    let model : List (String × Value) := [("Pa_1_1", .int 3), ("V_safe_0_1", .int 7), ("Pb0_1_1", .int 3)]
    let states : List State := [.make 0 [] [] none none, .make 1 [0] [] none none]
    ∃ p shelf, make (.int 1) (.int 1) (.int 0) 1 (.list []) [] {} = .ok (p, shelf) ∧
      Assigns p model ∧ ∃ refined, refine model states = .ok refined ∧
        ∀ s ∈ states, ∃ e, p.act s.isAccepting = .ok [("A1", e)] ∧ ∀ i name,
          e.constants[i]? = some name →
            valueOf refined (reportName s.id ((i + 1 : ℕ) : ℤ)) = valueOf model name := by
  intro model states
  obtain ⟨p, shelf, reach, again, made, actReach, actAgain, constantsReach, constantsAgain⟩ := constants_of_degree_zero
  have assigns : Assigns p model := by
    refine ⟨by decide +kernel, fun name => ?_, fun accepting e act => ?_⟩
    · constructor
      · rintro ⟨member, policy⟩
        have named : name = "Pa_1_1" ∨ name = "V_safe_0_1" ∨ name = "Pb0_1_1" := by
          simpa [model] using member
        rcases named with rfl | rfl | rfl
        · exact ⟨false, reach, actReach, by simp [constantsReach]⟩
        · exact absurd policy (by decide +kernel)
        · exact ⟨true, again, actAgain, by simp [constantsAgain]⟩
      · rintro ⟨accepting, e, act, member⟩
        cases accepting with
        | false =>
          cases actReach.symm.trans act
          rw [constantsReach, mem_singleton] at member
          subst member
          exact ⟨by simp [model], by decide +kernel⟩
        | true =>
          cases actAgain.symm.trans act
          rw [constantsAgain, mem_singleton] at member
          subst member
          exact ⟨by simp [model], by decide +kernel⟩
    · cases accepting with
      | false =>
        cases actReach.symm.trans act
        rw [constantsReach]
        decide +kernel
      | true =>
        cases actAgain.symm.trans act
        rw [constantsAgain]
        decide +kernel
  obtain ⟨refined, result, exactly⟩ := reports_verified_policy_iff Powers.Shelf.sound_empty (le_refl 1)
    rfl made assigns states
  refine ⟨p, shelf, made, assigns, refined, result, exactly.mpr (.inr ?_)⟩
  refine ⟨reach, again, actReach, actAgain, ?_⟩
  rw [constantsReach, constantsAgain]
  rfl

/-- In an accepting state the constraints are about the second policy, and the first one is reported. -/
theorem reports_other_policy : ∃ p shelf e refined,
      make (.int 1) (.int 1) (.int 0) 1 (.list []) [] {} = .ok (p, shelf) ∧
      p.act true = .ok [("A1", e)] ∧ e.constants = ["Pb0_1_1"] ∧
      refine [("Pa_1_1", .int 3), ("Pb0_1_1", .int 5)] [.make 0 [0] [] none none] = .ok refined ∧
      valueOf refined (reportName 0 1) = some (.int 3) := by
  obtain ⟨p, shelf, _, again, made, _, act, _, constants⟩ := constants_of_degree_zero
  exact ⟨p, shelf, again, [("P_0_1", .int 3)], made, act, constants, rfl, rfl⟩

end Answer

end Supermartingale
